import IslBindings.Argument
import IslBindings.Catalogue.Class

/-!
# Methods

A C function as a method of the class it works on.
-/

namespace IslBindings

structure Method where
  /-- The class, without `isl_`. -/
  cls : String
  /-- The name in the bindings. -/
  name : String
  cName : String
  result : CType
  args : List Argument
  isExported : Bool
  isConstructor : Bool
  /-- The method is wrapped as one that returns a new object, whatever its form. -/
  mutatorVeto : Bool
  deriving Repr

namespace Method

/-- The first argument is an object of the method's class. -/
def receiver? (m : Method) : Option ValueArgument :=
  match m.args with
  | .value arg :: _ => if arg.type.base = "isl_" ++ m.cls then some arg else none
  | _ => none

def isStatic (m : Method) : Bool := m.receiver?.isNone

def nameReceiver (m : Method) : Method :=
  match m.receiver?, m.args with
  | some arg, _ :: rest => { m with args := .value { arg with name := "self" } :: rest }
  | _, _ => m

/-- The method changes its receiver in place: it takes it and gives back a value of the same
type, which cannot be copied. -/
def isMutator (m : Method) : Bool :=
  !m.mutatorVeto &&
    m.receiver?.any fun arg =>
      arg.type.ownership == some .take && arg.type.depth == .pointer &&
        m.result.depth == .pointer && m.result.base == arg.type.base &&
        m.result.ownership == some .give && arg.islClass?.any (Catalogue.nonCopyable.contains ·)

/-- The last argument is a machine integer, by the name. -/
def isIntegerOverload (m : Method) : Bool :=
  Text.endsWith m.name "_si" || Text.endsWith m.name "_ui"

def wrapperName (m : Method) : String := m.cls ++ "_" ++ m.name

def display (m : Method) : String := "<method " ++ m.cName ++ ">"

end Method

end IslBindings
