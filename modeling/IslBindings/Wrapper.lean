import IslBindings.Text.Lines
import IslBindings.Wrapper.Contribution
import IslBindings.Wrapper.Conversion

/-!
# Wrappers

The C++ function that wraps one method: what its arguments add, the call, and the
conversion of the result. Before the call the wrapper checks its arguments and forgets
old errors; after the call it lets go of what the callee has taken, and only then looks
at the result.
-/

namespace IslBindings

structure Wrapper where
  name : String
  title : String
  function : String
  contributions : List Contribution
  /-- The type of the result, if there is one. -/
  captured : Option CType
  conversion : Conversion
  deriving DecidableEq, Repr

namespace Wrapper

/-! ### Parts -/

def trampolines (w : Wrapper) : List Trampoline := w.contributions.filterMap (·.trampoline)

def parameters (w : Wrapper) : List Parameter := w.contributions.filterMap (·.parameter)

/-- The names by which the caller knows the parameters, the receiver's included. -/
def argNames (w : Wrapper) : List String := w.parameters.map (·.name)

def checks (w : Wrapper) : List Statement := w.contributions.flatMap (·.checks)

def locals (w : Wrapper) : List Statement := w.contributions.flatMap (·.locals)

def actuals (w : Wrapper) : List Actual := w.contributions.flatMap (·.actuals)

def fixups (w : Wrapper) : List Statement := w.contributions.flatMap (·.fixups)

/-- The statements before the call. -/
def beforeCall (w : Wrapper) : List Statement :=
  [.declareContext] ++ w.checks ++ w.locals ++ [.resetError]

def callStatement (w : Wrapper) : Statement := .call w.captured w.function w.actuals

/-- The statements of the body, in order. -/
def body (w : Wrapper) : List Statement :=
  w.beforeCall ++ [w.callStatement] ++ w.fixups ++ w.conversion.statements

/-! ### Code and documentation -/

def signature (w : Wrapper) : String :=
  w.conversion.cppType ++ " " ++ w.name ++ "(" ++
    ", ".intercalate (w.parameters.map (·.declaration)) ++ ")"

def steps (w : Wrapper) : List Code.Step :=
  .line w.signature :: Code.braced ((w.body.flatMap Statement.lines).map Code.Step.line)

/-- The lines of the trampolines, an empty one after each. -/
def trampolineLines (w : Wrapper) : List String :=
  w.trampolines.flatMap fun t => (Text.lines t.code.toList).map String.ofList ++ [""]

def code (w : Wrapper) : String := Code.print (w.trampolineLines ++ Code.layout 0 w.steps)

def docLines (w : Wrapper) : List String :=
  [w.title ++ "(" ++ ", ".intercalate w.argNames ++ ")", ""] ++ w.parameters.map (·.doc) ++
    [":return: " ++ w.conversion.description]

def doc (w : Wrapper) : String := "\n".intercalate w.docLines

end Wrapper

/-! ### Wrapping a method -/

inductive Outcome where
  | wrapped (w : Wrapper)
  | skipped (reason : SkipReason)
  /-- The method is to be wrapped as one that returns a new object. -/
  | retry
  deriving DecidableEq, Repr

namespace Method

def contributions (m : Method) : Except SkipReason (List Contribution) := do
  let shapes ← m.argShapes
  shapes.mapM (Contribution.ofShape m)

/-- The type of the result, if the method has one. -/
def captured (m : Method) : ResultShape → Option CType
  | .nothing => none
  | _ => some m.result

def assemble (m : Method) (contributions : List Contribution) (shape : ResultShape)
    (conversion : Conversion) : Wrapper where
  name := m.wrapperName
  title := m.name
  function := m.cName
  contributions
  captured := m.captured shape
  conversion

def wrap (m : Method) : Outcome :=
  match m.contributions with
  | .error reason => .skipped reason
  | .ok contributions =>
    match m.resultShape with
    | .error reason => .skipped reason
    | .ok shape =>
      match Conversion.ofShape m (contributions.filterMap (·.auxiliary)) shape with
      | .error (.skip reason) => .skipped reason
      | .error .retry => .retry
      | .ok conversion => .wrapped (m.assemble contributions shape conversion)

def veto (m : Method) : Method := { m with mutatorVeto := true }

/-- Wraps a method, a second time with the veto if need be. -/
def wrapOrVeto (m : Method) : Outcome :=
  match m.wrap with
  | .retry => m.veto.wrap
  | outcome => outcome

end Method

end IslBindings
