import IslBindings.Argument
import IslBindings.Catalogue.BoundClass
import IslBindings.Code.Layout

/-!
# Statements of a wrapper

What a wrapper passes to the C function, what it gives its caller, and the statements
of its body, each with its spelling in C++.
-/

namespace IslBindings

/-! ### What a wrapper gives its caller -/

/-- A value that comes with the result. -/
inductive Auxiliary where
  /-- A flag that the function returns through a pointer. -/
  | flag (base name : String)
  /-- An object that the function returns through a pointer. -/
  | object (cls name : String)
  /-- A callback that has to live as long as the object that holds it. -/
  | callback (name : String)
  deriving DecidableEq, Repr

namespace Auxiliary

def expression : Auxiliary → String
  | .flag base name => if base = "isl_bool" then "(bool) arg_" ++ name else "arg_" ++ name
  | .object _ name => "py_ret_" ++ name
  | .callback name => "py_" ++ name

def description : Auxiliary → String
  | .flag base name => if base = "isl_bool" then name ++ " (bool)" else name ++ " (int)"
  | .object cls name => name ++ " (" ++ Catalogue.classRole cls ++ ")"
  | .callback _ => "(opaque handle to manage callback lifetime)"

end Auxiliary

/-- The result of the function as the caller sees it. -/
inductive Primary where
  | bool
  | int
  | object (cls : String)
  deriving DecidableEq, Repr

namespace Primary

def expression : Primary → String
  | .bool => "(bool) result"
  | .int => "result"
  | .object _ => "handle_from_new_ptr(uptr_result.release())"

def description : Primary → String
  | .bool => "bool"
  | .int => "int"
  | .object cls => Catalogue.classRole cls

def cppType : Primary → String
  | .bool => "bool"
  | .int => "int"
  | .object _ => "py::object"

end Primary

structure Answer where
  primary : Option Primary
  extras : List Auxiliary
  deriving DecidableEq, Repr

namespace Answer

/-- The parts in order, the result first. -/
def expressions (a : Answer) : List String :=
  a.primary.toList.map Primary.expression ++ a.extras.map Auxiliary.expression

def descriptions (a : Answer) : List String :=
  a.primary.toList.map Primary.description ++ a.extras.map Auxiliary.description

/-- A single part stands alone, several make a tuple. -/
def expression (a : Answer) : String :=
  match a.primary, a.extras with
  | none, [only] => "py::cast(" ++ only.expression ++ ")"
  | some primary, [] => primary.expression
  | _, _ => "py::make_tuple(" ++ ", ".intercalate a.expressions ++ ")"

def description (a : Answer) : String :=
  match a.descriptions with
  | [only] => only
  | parts => "tuple: (" ++ ", ".intercalate parts ++ ")"

def cppType (a : Answer) : String :=
  match a.primary, a.extras with
  | some primary, [] => primary.cppType
  | _, _ => "py::object"

end Answer

/-! ### What a wrapper passes -/

/-- The handle that is passed for an object. -/
inductive Held where
  /-- The caller's own. -/
  | own (name : String)
  /-- A copy made for the call. -/
  | copy (name : String)
  /-- A value made for the call from a value or an integer. -/
  | temporary (name : String)
  deriving DecidableEq, Repr

namespace Held

def expression : Held → String
  | .own name => "arg_" ++ name ++ ".m_data"
  | .copy name => "auto_arg_" ++ name ++ "->m_data"
  | .temporary name => "unique_arg_" ++ name ++ "->m_data"

def invalidation : Held → String
  | .own name => "arg_" ++ name ++ ".invalidate();"
  | .copy name => "auto_arg_" ++ name ++ "->invalidate();"
  | .temporary name => "unique_arg_" ++ name ++ "->invalidate();"

end Held

inductive Actual where
  | handle (h : Held)
  | scalar (name : String)
  /-- A string, or a copy of it that the callee may free. -/
  | text (name : String) (isCopied : Bool)
  | flagAddress (name : String)
  | objectAddress (name : String)
  | trampoline (name : String)
  /-- The host callable, in the `user` slot of a trampoline. -/
  | callable (name : String)
  deriving DecidableEq, Repr

def Actual.expression : Actual → String
  | .handle h => h.expression
  | .scalar name => "arg_" ++ name
  | .text name isCopied => if isCopied then "strdup(arg_" ++ name ++ ")" else "arg_" ++ name
  | .flagAddress name => "&arg_" ++ name
  | .objectAddress name => "&ret_" ++ name
  | .trampoline name => name
  | .callable name => "py_" ++ name ++ ".ptr()"

/-! ### Statements -/

inductive Statement where
  | declareContext
  | bindReceiver (cls name : String)
  | requireValid (label name : String)
  | copyHandle (label cls name : String)
  | takeValue (name : String)
  | setContext (cls name : String)
  | declareFlag (base name : String)
  | declareObject (cls name : String)
  | resetError
  | call (captured : Option CType) (function : String) (actuals : List Actual)
  | invalidate (h : Held)
  /-- Wraps an object that the function returned through a pointer. -/
  | wrapObject (cls name : String)
  /-- Turns a failed call into an exception. -/
  | failIf (condition label : String)
  | give (a : Answer)
  | giveResult
  /-- Puts the result in the place of the receiver and returns the receiver. -/
  | repoint (receiver label : String)
  /-- Wraps the result in a new object and returns that with the auxiliary values. -/
  | giveObject (cls label : String) (a : Answer)
  | noneUnlessResult
  | castText
  | freeText
  | giveText
  | giveUserObject
  deriving DecidableEq, Repr

namespace Statement

def raise (label : String) : String :=
  "handle_isl_error(islpy_ctx, \"isl_" ++ label ++ "\");"

def takeValueLines (name : String) : List String :=
  ["std::unique_ptr<isl::val> unique_arg_" ++ name ++ ";",
    "try",
    "\x7b",
    "  isl::val *arg_" ++ name ++ " = py::cast<isl::val *>(py_" ++ name ++ ");",
    "  isl_val *tmp_ptr = isl_val_copy(arg_" ++ name ++ "->m_data);",
    "  if (!tmp_ptr)",
    "    throw isl::error(\"failed to copy arg " ++ name ++ "\");",
    "  unique_arg_" ++ name ++ " = std::unique_ptr<isl::val>(new isl::val(tmp_ptr));",
    "\x7d",
    "catch (py::cast_error &)",
    "\x7b",
    "\x7d",
    "if (!unique_arg_" ++ name ++ ")",
    "\x7b",
    "  if (!islpy_ctx)",
    "    islpy_ctx = isl::get_default_context();",
    "  long int_value;",
    "  try",
    "  \x7b",
    "    int_value = py::cast<long>(py_" ++ name ++ ");",
    "  \x7d",
    "  catch (py::cast_error &)",
    "  \x7b",
    "    throw isl::error(\"unrecognized argument for " ++ name ++ "\");",
    "  \x7d",
    "  isl_val *tmp_ptr = isl_val_int_from_si(islpy_ctx, int_value);",
    "  if (!tmp_ptr)",
    "    throw isl::error(\"failed to create arg " ++ name ++ " from integer\");",
    "  unique_arg_" ++ name ++ " = std::unique_ptr<isl::val>(new isl::val(tmp_ptr));",
    "\x7d"]

def copyHandleLines (label cls name : String) : List String :=
  ["std::unique_ptr<isl::" ++ cls ++ "> auto_arg_" ++ name ++ ";",
    "\x7b",
    "  isl_" ++ cls ++ " *tmp_ptr = isl_" ++ cls ++ "_copy(arg_" ++ name ++ ".m_data);",
    "  if (!tmp_ptr)",
    "    throw isl::error(\"failed to copy arg " ++ name ++ " on entry to " ++ label ++ "\");",
    "  auto_arg_" ++ name ++ " = std::unique_ptr<isl::" ++ cls ++ ">(new isl::" ++ cls ++
      "(tmp_ptr));",
    "\x7d"]

def capture : Option CType → String
  | some t => t.spelling ++ "result = "
  | none => ""

def lines : Statement → List String
  | .declareContext => ["isl_ctx *islpy_ctx = nullptr;"]
  | .bindReceiver cls name =>
    ["isl::" ++ cls ++ " &arg_" ++ name ++ "(py::cast<isl::" ++ cls ++ " &>(py_" ++ name ++ "));"]
  | .requireValid label name =>
    ["if (!arg_" ++ name ++ ".is_valid())",
      "  throw isl::error(\"passed invalid arg to isl_" ++ label ++ " for " ++ name ++ "\");"]
  | .copyHandle label cls name => copyHandleLines label cls name
  | .takeValue name => takeValueLines name
  | .setContext cls name =>
    if cls = "ctx" then ["islpy_ctx = arg_" ++ name ++ ".m_data;"]
    else ["islpy_ctx = isl_" ++ cls ++ "_get_ctx(arg_" ++ name ++ ".m_data);"]
  | .declareFlag base name => [base ++ " arg_" ++ name ++ ";"]
  | .declareObject cls name => ["isl_" ++ cls ++ " *ret_" ++ name ++ " = nullptr;"]
  | .resetError => ["if (islpy_ctx) isl_ctx_reset_error(islpy_ctx);"]
  | .call captured function actuals =>
    [capture captured ++ function ++ "(" ++ ", ".intercalate (actuals.map Actual.expression) ++ ");"]
  | .invalidate h => [h.invalidation]
  | .wrapObject cls name =>
    ["py::object py_ret_" ++ name ++ " = py::none();",
      "if (ret_" ++ name ++ ")",
      "  py_ret_" ++ name ++ " = handle_from_new_ptr(new isl::" ++ cls ++ "(ret_" ++ name ++ "));"]
  | .failIf condition label => ["if (" ++ condition ++ ")", "  " ++ raise label]
  | .give a => ["return " ++ a.expression ++ ";"]
  | .giveResult => ["return result;"]
  | .repoint receiver label =>
    ["if (result)",
      "\x7b",
      "  arg_" ++ receiver ++ ".take_possession_of(result);",
      "  return py_" ++ receiver ++ ";",
      "\x7d",
      "else",
      "  " ++ raise label]
  | .giveObject cls label a =>
    ["if (result)",
      "\x7b",
      "  std::unique_ptr<isl::" ++ cls ++ "> uptr_result(new isl::" ++ cls ++ "(result));",
      "  return " ++ a.expression ++ ";",
      "\x7d",
      "else",
      "  " ++ raise label]
  | .noneUnlessResult => ["if (!result)", "  return py::none();"]
  | .castText => ["py::object py_result = py::cast(result);"]
  | .freeText => ["free(result);"]
  | .giveText => ["return py_result;"]
  | .giveUserObject => ["return py::borrow<py::object>((PyObject *) result);"]

end Statement

end IslBindings
