import IslBindings.Catalogue.Class

/-!
# Placement

The class that a C name belongs to, and the method name that is left of it. Some
names belong elsewhere than their first words say, all others to the longest class
that they start with.
-/

namespace IslBindings

inductive Placement where
  | method (cls name : String)
  | ignored
  deriving DecidableEq, Repr

inductive PlacementError where
  | notIsl (cName : String)
  | noClass (cName : String)
  | noMethod (cName cls : String)
  deriving DecidableEq, Repr

def PlacementError.message : PlacementError → String
  | .notIsl cName => "declaration `" ++ cName ++ "` does not carry the isl_ prefix"
  | .noClass cName => "no class in the catalogue matches `" ++ cName ++ "`"
  | .noMethod cName cls => "`" ++ cName ++ "` matches class `" ++ cls ++ "` but names no method"

namespace Placement

/-- Options are methods of the context: `get_x` is `get_option_x` there. -/
def optionMethod (name : String) : String :=
  match Text.afterStart? "get_" name with
  | some rest => "get_option_" ++ rest
  | none =>
    match Text.afterStart? "set_" name with
    | some rest => "set_option_" ++ rest
    | none => name

/-- The names that belong elsewhere than their first words say. -/
def special? (name : String) : Option Placement :=
  match Text.afterStart? "options_" name with
  | some rest => some (.method "ctx" (optionMethod rest))
  | none =>
    if Text.startsWith name "equality_" || Text.startsWith name "inequality_" then
      some (.method "constraint" name)
    else if name = "ast_op_type_set_print_name" then some (.method "printer" name)
    else if Text.startsWith name "bool_" then some .ignored
    else none

/-- The place of a name after `isl_` by the longest class. -/
def byClass (cName name : String) : Except PlacementError Placement :=
  match Catalogue.longestClass? name with
  | none => .error (.noClass cName)
  | some cls =>
    match Text.afterStart? (cls ++ "_") name with
    | some rest => if rest = "" then .error (.noMethod cName cls) else .ok (.method cls rest)
    | none => .error (.noMethod cName cls)

def ofName (cName : String) : Except PlacementError Placement :=
  match Text.afterStart? "isl_" cName with
  | none => .error (.notIsl cName)
  | some name =>
    match special? name with
    | some placement => .ok placement
    | none => byClass cName name

end Placement

end IslBindings
