import IslBindings.Argument
import IslBindings.Catalogue.ValueType
import IslBindings.Code.Layout
import IslBindings.SkipReason

/-!
# Trampolines

A trampoline is a function with the C signature of a callback that calls a host
callable. It finds the callable in its `user` argument, wraps the objects it is given,
and converts the result. A host exception ends in the error value of the result type.
Objects that are only borrowed are released on each of the three ways out.
-/

namespace IslBindings

/-! ### Signatures -/

/-- An object that a callback is given. -/
structure CallbackObject where
  name : String
  cls : String
  /-- isl keeps the object, so the host's wrapper has to let go of it after the call. -/
  isBorrowed : Bool
  deriving DecidableEq, Repr

inductive CallbackResult where
  | status
  | bool
  | scalar (base : String)
  | handle (cls : String)
  deriving DecidableEq, Repr

structure Trampoline where
  name : String
  result : CType
  /-- The C arguments, `user` included. -/
  inputs : List ValueArgument
  objects : List CallbackObject
  /-- How the host result is converted. -/
  conversion : CallbackResult
  deriving DecidableEq, Repr

def CallbackObject.ofArgument : Argument → Except SkipReason CallbackObject
  | .callback name _ _ => .error (.unsupported (.callbackInCallback name))
  | .value arg =>
    match arg.islClass?, arg.type.depth with
    | some cls, .pointer =>
      match arg.type.ownership with
      | some .take => .ok { name := arg.name, cls, isBorrowed := false }
      | some .keep => .ok { name := arg.name, cls, isBorrowed := true }
      | _ => .error (.unsupported .callbackArgumentOwnership)
    | _, depth => .error (.unsupported (.callbackArgument arg.type.base depth))

def CallbackResult.ofType (t : CType) : Except SkipReason CallbackResult :=
  match t.depth with
  | .value =>
    if t.base = "isl_stat" then .ok .status
    else if t.base = "isl_bool" then .ok .bool
    else if Catalogue.isValueType t.base then .ok (.scalar t.base)
    else .error (.unsupported .callbackResult)
  | .pointer =>
    match Text.afterStart? "isl_" t.base, t.ownership with
    | some cls, some .give => .ok (.handle cls)
    | some _, none => .error (.unsupported .callbackResultUnannotated)
    | some _, some _ => .error (.unsupported .callbackResultNotGiven)
    | none, _ => .error (.unsupported .callbackResult)
  | .pointerToPointer => .error (.unsupported .callbackResult)

namespace Trampoline

def nameFor (cls method arg : String) : String := "cb_" ++ cls ++ "_" ++ method ++ "_" ++ arg

/-- The trampoline of a callback, if its last argument is `user` and the others are objects. -/
def ofCallback (name : String) (c : Callback) : Except SkipReason Trampoline := do
  if c.user?.isNone then
    throw (.unsupported (.callbackNotEndingInUser c.name))
  let objects ← c.visible.mapM CallbackObject.ofArgument
  let conversion ← CallbackResult.ofType c.result
  return { name, result := c.result, inputs := c.args.filterMap Argument.value?, objects, conversion }

end Trampoline

/-! ### Statements -/

def CallbackResult.errorValue : CallbackResult → String
  | .status => "isl_stat_error"
  | .bool => "isl_bool_error"
  | .scalar base => "static_cast<" ++ base ++ ">(-1)"
  | .handle _ => "nullptr"

inductive CallbackAct where
  /-- Finds the host callable. -/
  | recover
  | declare (o : CallbackObject)
  | wrap (o : CallbackObject)
  | call (objects : List CallbackObject)
  /-- Lets go of a borrowed object, and forgets it. -/
  | release (o : CallbackObject)
  /-- Lets go of a borrowed object if it has been wrapped. -/
  | releaseIfHeld (o : CallbackObject)
  /-- Converts the host result and returns it. -/
  | convert (r : CallbackResult)
  /-- Reports and clears a host exception. -/
  | warnException
  | clearException
  | warnError
  | fail (r : CallbackResult)
  deriving DecidableEq, Repr

namespace CallbackAct

def noneIsError : List String :=
  ["if (retval.ptr() == Py_None)", "  throw isl::error(\"callback returned None\");"]

def conversionLines : CallbackResult → List String
  | .status =>
    ["if (retval.ptr() == Py_None)", "  return isl_stat_ok;", "return py::cast<isl_stat>(retval);"]
  | .bool => noneIsError ++ ["return static_cast<isl_bool>(py::cast<bool>(retval));"]
  | .scalar base => noneIsError ++ ["return py::cast<" ++ base ++ ">(retval);"]
  | .handle cls =>
    ["if (retval.ptr() == Py_None)", "  return nullptr;",
      "isl::" ++ cls ++ " *wrapper_retval = py::cast<isl::" ++ cls ++ " *>(retval);",
      "isl_" ++ cls ++ " *unwrapped_retval = wrapper_retval->m_data;",
      "wrapper_retval->invalidate();", "return unwrapped_retval;"]

def lines : CallbackAct → List String
  | .recover => ["py::object py_cb = py::borrow<py::object>((PyObject *) c_arg_user);"]
  | .declare o => ["isl::" ++ o.cls ++ " *wrapped_arg_" ++ o.name ++ " = nullptr;"]
  | .wrap o =>
    ["wrapped_arg_" ++ o.name ++ " = new isl::" ++ o.cls ++ "(c_arg_" ++ o.name ++ ");",
      "py::object arg_" ++ o.name ++ "(handle_from_new_ptr(wrapped_arg_" ++ o.name ++ "));"]
  | .call objects =>
    ["py::object retval = py_cb(" ++ ", ".intercalate (objects.map ("arg_" ++ ·.name)) ++ ");"]
  | .release o =>
    ["wrapped_arg_" ++ o.name ++ "->invalidate();", "wrapped_arg_" ++ o.name ++ " = nullptr;"]
  | .releaseIfHeld o =>
    ["if (wrapped_arg_" ++ o.name ++ ") wrapped_arg_" ++ o.name ++ "->invalidate();"]
  | .convert r => conversionLines r
  | .warnException =>
    ["std::cout << \"[islpy warning] A Python exception occurred in \"",
      "  \"a call back function, ignoring:\" << std::endl;"]
  | .clearException => ["err.restore();", "PyErr_Print();", "PyErr_Clear();"]
  | .warnError =>
    ["std::cerr << \"[islpy] An exception occurred in \"",
      "  \"a Python callback query:\" << std::endl", "  << e.what() << std::endl;"]
  | .fail r => ["return " ++ r.errorValue ++ ";"]

end CallbackAct

namespace Trampoline

def borrowed (t : Trampoline) : List CallbackObject := t.objects.filter (·.isBorrowed)

def setup (t : Trampoline) : List CallbackAct := .recover :: t.objects.map .declare

def onReturn (t : Trampoline) : List CallbackAct :=
  t.objects.map .wrap ++ [.call t.objects] ++ t.borrowed.map .release ++ [.convert t.conversion]

def onException (t : Trampoline) : List CallbackAct :=
  [.warnException] ++ t.borrowed.map .releaseIfHeld ++ [.clearException, .fail t.conversion]

def onError (t : Trampoline) : List CallbackAct :=
  [.warnError] ++ t.borrowed.map .releaseIfHeld ++ [.fail t.conversion]

/-! ### Code -/

def signature (t : Trampoline) : String :=
  "static " ++ t.result.spelling ++ t.name ++ "(" ++
    ", ".intercalate (t.inputs.map fun a => a.spelling ++ "c_arg_" ++ a.name) ++ ")"

def actSteps (acts : List CallbackAct) : List Code.Step :=
  (acts.flatMap CallbackAct.lines).map Code.Step.line

def steps (t : Trampoline) : List Code.Step :=
  .line t.signature ::
    Code.braced (actSteps t.setup ++ [.line "try"] ++ Code.braced (actSteps t.onReturn) ++
      [.line "catch (py::python_error &err)"] ++ Code.braced (actSteps t.onException) ++
      [.line "catch (std::exception &e)"] ++ Code.braced (actSteps t.onError))

def code (t : Trampoline) : String := Code.print (Code.layout 0 t.steps)

end Trampoline

end IslBindings
