import IslBindings.Code.Literal
import IslBindings.Wrapper

/-!
# Registration

The statement that makes a wrapper a method of its host class, with the names of the
arguments and the documentation. A method that reads an object from a string also
makes a constructor.
-/

namespace IslBindings

structure Registration where
  cls : String
  isStatic : Bool
  publicName : String
  wrapper : String
  /-- The names of the arguments without the receiver. -/
  argNames : List String
  doc : String
  deriving DecidableEq, Repr

namespace Registration

/-- Added to the documentation of a method that is not exported. -/
def unofficialWarning : String :=
  "\n\n.. warning::\n\n    This function is not part of the officially public isl API. " ++
    "Use at your own risk."

/-- The size and the hash of an object have names of their own. -/
def nameFor (m : Method) : String :=
  if m.name = "size" ∧ m.args.length = 1 then "__len__"
  else if m.name = "get_hash" ∧ m.args.length = 1 then "__hash__"
  else m.name

def ofWrapper (m : Method) (w : Wrapper) : Registration where
  cls := m.cls
  isStatic := m.isStatic
  publicName := nameFor m
  wrapper := m.wrapperName
  argNames := if m.isStatic then w.argNames else w.argNames.drop 1
  doc := if m.isExported then w.doc else w.doc ++ unofficialWarning

def statement (r : Registration) : String :=
  "wrap_" ++ r.cls ++ ".def" ++ (if r.isStatic then "_static" else "") ++ "(\"" ++ r.publicName ++
    "\", isl::" ++ r.wrapper ++
    String.join (r.argNames.map fun name => ", py::arg(\"" ++ name ++ "\")") ++ ", " ++
    Code.literal r.doc ++ ");\n"

/-! ### Constructors from strings -/

def constructorSteps (cls function : String) : List Code.Step :=
  [.line ("wrap_" ++ cls ++ ".def(\"__init__\","),
    .opening ("  [](isl::" ++ cls ++ " *t, const char *s, isl::ctx *ctx_wrapper)"),
    .opening "\x7b",
    .line "isl_ctx *ctx = nullptr;",
    .line "if (ctx_wrapper && ctx_wrapper->is_valid())",
    .line "  ctx = ctx_wrapper->m_data;",
    .line "if (!ctx)",
    .line "  ctx = isl::get_default_context();",
    .line "if (!ctx)",
    .line ("  throw isl::error(\"from-string conversion of " ++ cls ++
      ": no context available\");"),
    .line ("isl_" ++ cls ++ " *result = " ++ function ++ "(ctx, s);"),
    .line "if (result)",
    .line ("  new (t) isl::" ++ cls ++ "(result);"),
    .line "else",
    .line ("  isl::handle_isl_error(ctx, \"" ++ function ++ "\");"),
    .closing "\x7d,",
    .closing "  py::arg(\"s\"), py::arg(\"context\").none(true) = py::none());"]

/-- The method reads an object from a string. -/
def makesConstructor (m : Method) : Bool := m.name == "read_from_str" && m.isStatic

def code (m : Method) (w : Wrapper) : String :=
  (ofWrapper m w).statement ++
    if makesConstructor m then Code.print (Code.layout 0 (constructorSteps m.cls m.cName)) else ""

end Registration

end IslBindings
