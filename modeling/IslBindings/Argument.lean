import IslBindings.CType
import IslBindings.Text.Search

/-!
# Arguments

An argument of a C function is a value or a callback, and a callback has arguments
of its own.
-/

namespace IslBindings

structure ValueArgument where
  name : String
  isConst : Bool
  type : CType
  deriving DecidableEq, Repr, Inhabited

namespace ValueArgument

/-- `const ` for a constant, else nothing. -/
def qualifier (a : ValueArgument) : String := if a.isConst then "const " else ""

def spelling (a : ValueArgument) : String := a.qualifier ++ a.type.spelling

/-- The class of an argument of an isl type. -/
def islClass? (a : ValueArgument) : Option String := Text.afterStart? "isl_" a.type.base

end ValueArgument

inductive Argument where
  | value (arg : ValueArgument)
  | callback (name : String) (result : CType) (args : List Argument)
  deriving Repr, Inhabited

structure Callback where
  name : String
  result : CType
  args : List Argument
  deriving Repr

namespace Argument

def name : Argument → String
  | .value arg => arg.name
  | .callback name _ _ => name

def value? : Argument → Option ValueArgument
  | .value arg => some arg
  | .callback .. => none

end Argument

namespace Callback

/-- The arguments that the host callable sees: all but a last one called `user`. -/
def visible (c : Callback) : List Argument :=
  match c.args.getLast? with
  | some last => if last.name = "user" then c.args.dropLast else c.args
  | none => []

/-- The last argument, when it is a value called `user`. -/
def user? (c : Callback) : Option ValueArgument :=
  (c.args.getLast?.bind Argument.value?).filter (·.name = "user")

end Callback

end IslBindings
