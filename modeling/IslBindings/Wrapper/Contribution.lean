import IslBindings.Shape
import IslBindings.Trampoline
import IslBindings.Wrapper.Statement

/-!
# What an argument adds to a wrapper

Each argument of a method adds to its wrapper: a parameter, statements before and
after the call, the arguments of the call, and sometimes a value that comes with the
result. Ownership decides which handle is passed and whether it is let go of.
-/

namespace IslBindings

structure Parameter where
  /-- The name by which the caller knows it. -/
  name : String
  declaration : String
  doc : String
  deriving DecidableEq, Repr

structure Contribution where
  trampoline : Option Trampoline := none
  parameter : Option Parameter := none
  checks : List Statement := []
  locals : List Statement := []
  actuals : List Actual
  fixups : List Statement := []
  auxiliary : Option Auxiliary := none
  deriving DecidableEq, Repr

namespace Contribution

def paramDoc (name text : String) : String := ":param " ++ name ++ ": " ++ text

/-! ### Arguments that are no objects -/

/-- The method's class holds on to the callbacks that its setters are given. -/
def keepsCallback (m : Method) : Bool :=
  Catalogue.callbackHolders.contains m.cls && Text.startsWith m.name "set_"

def ofCallback (m : Method) (c : Callback) : Except SkipReason Contribution := do
  let trampoline ← Trampoline.ofCallback (Trampoline.nameFor m.cls m.name c.name) c
  let visible := ", ".intercalate (c.visible.map Argument.name)
  return {
    trampoline := some trampoline
    parameter := some
      { name := c.name
        declaration := "py::object py_" ++ c.name
        doc := paramDoc c.name ("callback(" ++ visible ++ ")") }
    actuals := [.trampoline trampoline.name, .callable c.name]
    auxiliary := if keepsCallback m then some (.callback c.name) else none }

/-- The class of a scalar in the documentation. -/
def scalarRole (base : String) : String :=
  let shown := (Text.afterStart? "isl_" base).getD base
  if shown = "unsigned long" then "int" else shown

def ofScalar (arg : ValueArgument) : Contribution where
  parameter := some
    { name := arg.name
      declaration := arg.type.base ++ " arg_" ++ arg.name
      doc := paramDoc arg.name (":class:`" ++ scalarRole arg.type.base ++ "`") }
  actuals := [.scalar arg.name]

/-- The callee gets a copy of a string that it may free. -/
def isFreed (arg : ValueArgument) : Bool :=
  arg.type.ownership == some .give || arg.type.ownership == some .take

def ofText (arg : ValueArgument) : Contribution where
  parameter := some
    { name := arg.name
      declaration := arg.qualifier ++ "char *arg_" ++ arg.name
      doc := paramDoc arg.name "string" }
  actuals := [.text arg.name (isFreed arg)]

def ofFlag (arg : ValueArgument) : Contribution where
  locals := [.declareFlag arg.type.base arg.name]
  actuals := [.flagAddress arg.name]
  auxiliary := some (.flag arg.type.base arg.name)

/-! ### Objects -/

/-- The handle is let go of after the call if the callee has taken it. -/
def letGo (arg : ValueArgument) (h : Held) : List Statement :=
  if arg.type.ownership = some .take then [.invalidate h] else []

def ofValueOrInt (m : Method) (arg : ValueArgument) : Except SkipReason Contribution :=
  if arg.type.ownership.isNone then .error (.undocumented m.display)
  else .ok
    { parameter := some
        { name := arg.name
          declaration := "py::object py_" ++ arg.name
          doc := paramDoc arg.name (Catalogue.classRole "val") }
      checks := [.takeValue arg.name]
      actuals := [.handle (.temporary arg.name)]
      fixups := letGo arg (.temporary arg.name) }

/-- The first argument gives the wrapper its context. -/
def contextFrom (index : Nat) (cls name : String) : List Statement :=
  if index = 0 then [.setContext cls name] else []

/-- The receiver of a method that changes it in place. -/
def ofMutated (m : Method) (index : Nat) (arg : ValueArgument) (cls : String) : Contribution where
  parameter := some
    { name := arg.name
      declaration := "py::object py_" ++ arg.name
      doc := paramDoc arg.name (Catalogue.classRole cls ++ " (mutated in-place)") }
  checks := [.bindReceiver cls arg.name, .requireValid m.wrapperName arg.name] ++
    contextFrom index cls arg.name
  actuals := [.handle (.own arg.name)]
  fixups := [.invalidate (.own arg.name)]

/-- An object that is copied for the callee to take. -/
def ofCopied (m : Method) (index : Nat) (arg : ValueArgument) (cls : String) : Contribution where
  parameter := some
    { name := arg.name
      declaration := "isl::" ++ cls ++ " const &arg_" ++ arg.name
      doc := paramDoc arg.name (Catalogue.classRole cls) }
  checks := [.requireValid m.wrapperName arg.name, .copyHandle m.wrapperName cls arg.name] ++
    contextFrom index cls arg.name
  actuals := [.handle (.copy arg.name)]
  fixups := letGo arg (.copy arg.name)

/-- An object of a class without copies, which the callee takes from the caller. -/
def ofTaken (m : Method) (index : Nat) (arg : ValueArgument) (cls : String) : Contribution where
  parameter := some
    { name := arg.name
      declaration := "isl::" ++ cls ++ " &arg_" ++ arg.name
      doc := paramDoc arg.name
        (Catalogue.classRole cls ++ " (:ref:`becomes invalid <auto-invalidation>`)") }
  checks := .requireValid m.wrapperName arg.name :: contextFrom index cls arg.name
  actuals := [.handle (.own arg.name)]
  fixups := letGo arg (.own arg.name)

/-- An object that stays with the caller. -/
def ofLent (m : Method) (index : Nat) (arg : ValueArgument) (cls : String) : Contribution where
  parameter := some
    { name := arg.name
      declaration := "isl::" ++ cls ++ " const &arg_" ++ arg.name
      doc := paramDoc arg.name (Catalogue.classRole cls) }
  checks := .requireValid m.wrapperName arg.name :: contextFrom index cls arg.name
  actuals := [.handle (.own arg.name)]

def ofHandle (m : Method) (index : Nat) (arg : ValueArgument) (cls : String) :
    Except SkipReason Contribution :=
  if index = 0 ∧ m.isMutator then .ok (ofMutated m index arg cls)
  else if arg.type.ownership.isNone ∧ cls ≠ "ctx" then .error (.undocumented m.display)
  else if arg.type.ownership = some .take then
    if Catalogue.nonCopyable.contains cls then .ok (ofTaken m index arg cls)
    else .ok (ofCopied m index arg cls)
  else .ok (ofLent m index arg cls)

def ofHandleOut (arg : ValueArgument) (cls : String) : Except SkipReason Contribution :=
  if arg.type.ownership = some .give then .ok
    { locals := [.declareObject cls arg.name]
      actuals := [.objectAddress arg.name]
      fixups := [.wrapObject cls arg.name]
      auxiliary := some (.object cls arg.name) }
  else .error (.unsupported .objectNotGiven)

def ofShape (m : Method) : Nat × ArgShape → Except SkipReason Contribution
  | (_, .callback c) => ofCallback m c
  | (_, .scalar arg) => .ok (ofScalar arg)
  | (_, .text arg) => .ok (ofText arg)
  | (_, .flag arg) => .ok (ofFlag arg)
  | (_, .valueOrInt arg) => ofValueOrInt m arg
  | (index, .handle arg cls) => ofHandle m index arg cls
  | (_, .handleOut arg cls) => ofHandleOut arg cls

end Contribution

end IslBindings
