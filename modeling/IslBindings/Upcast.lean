import IslBindings.Catalogue.BoundClass
import IslBindings.Code.Literal
import IslBindings.Registry

/-!
# Upcasts

An object of a general class converts into one of a specific class, so the general
class can have the methods of the specific one. A method is forwarded if it has a
wrapper and a receiver, is no integer overload, and the general class has either no
method of that name or one with other arguments. A name that a general class lacks is
forwarded to it once in a run.
-/

namespace IslBindings

/-! ### The ledger of a run -/

structure Ledger where
  /-- Class and name of each method that has a wrapper. -/
  wrapped : List (String × String)
  /-- General class and name of each method that was forwarded to a class that lacked it. -/
  forwarded : List (String × String)
  deriving DecidableEq, Repr

namespace Ledger

def empty : Ledger := ⟨[], []⟩

instance : Inhabited Ledger := ⟨empty⟩

def isWrapped (l : Ledger) (cls name : String) : Bool := l.wrapped.contains (cls, name)

def recordWrapped (l : Ledger) (m : Method) : Ledger :=
  { l with wrapped := l.wrapped.insert (m.cls, m.name) }

def recordForwarded (l : Ledger) (general name : String) : Ledger :=
  { l with forwarded := l.forwarded.insert (general, name) }

def isForwarded (l : Ledger) (general name : String) : Bool :=
  l.forwarded.contains (general, name)

/-- The method can be forwarded, or have others forwarded beside it. -/
def isForwardable (l : Ledger) (m : Method) : Bool :=
  !m.isIntegerOverload && !m.isStatic && l.isWrapped m.cls m.name

end Ledger

/-! ### Forwarding -/

/-- The type of an argument as far as overloads tell them apart. -/
def Argument.overloadType : Argument → String × Depth
  | .value arg => (arg.type.base, arg.type.depth)
  | .callback .. => ("callback", .pointer)

def Method.overloadTypes (m : Method) : List (String × Depth) :=
  (m.args.drop 1).map Argument.overloadType

/-- The methods of one specific class that are forwarded to one general class. -/
structure Fold where
  general : String
  specific : String
  methods : List Method
  deriving Repr

namespace Fold

/-- Whether a method is forwarded to a class with the methods `own`, and the ledger after it. -/
def choose (general : String) (own : List Method) (l : Ledger) (m : Method) : Bool × Ledger :=
  if l.isForwardable m then
    match own.find? (·.name == m.name) with
    | some other => (l.isForwardable other && other.overloadTypes != m.overloadTypes, l)
    | none =>
      if l.isForwarded general m.name then (false, l)
      else (true, l.recordForwarded general m.name)
  else (false, l)

/-- The methods among `candidates` that are forwarded, and the ledger after them. -/
def select (general : String) (own : List Method) : Ledger → List Method → List Method × Ledger
  | l, [] => ([], l)
  | l, m :: rest =>
    let (isForwarded, l) := choose general own l m
    let (methods, l) := select general own l rest
    (if isForwarded then m :: methods else methods, l)

/-- The methods of `specific` that are forwarded to `general`, and the ledger after them. -/
def ofPair (r : Registry) (l : Ledger) (general specific : String) : Fold × Ledger :=
  let (methods, l) := select general (r.methodsOf general) l (r.methodsOf specific)
  ({ general, specific, methods }, l)

/-! ### Code -/

def doc (f : Fold) : String :=
  "\n\nUpcast from " ++ Catalogue.classRole f.general ++ " to " ++
    Catalogue.classRole f.specific ++ "\n"

def statement (f : Fold) (m : Method) : String :=
  "wrap_" ++ f.general ++ ".def(\"" ++ m.name ++ "\", isl::" ++ m.wrapperName ++ ", " ++
    Code.literal f.doc ++ ");\n"

def code (f : Fold) : String :=
  "\n// \x7b\x7b\x7b Upcasts from " ++ f.general ++ " to " ++ f.specific ++ "\n\n" ++
    String.join (f.methods.map f.statement) ++ "\n// \x7d\x7d\x7d\n\n"

end Fold

end IslBindings
