import IslBindings.Shape
import IslBindings.Wrapper.Statement

/-!
# Conversion of results

What a wrapper does with the result of the call and the auxiliary values. A receiver
that is changed in place cannot come with auxiliary values: such a method is to be
wrapped again as one that returns a new object.
-/

namespace IslBindings

structure Conversion where
  cppType : String
  description : String
  statements : List Statement
  deriving DecidableEq, Repr

inductive Stop where
  | skip (reason : SkipReason)
  /-- The method is to be wrapped as one that returns a new object. -/
  | retry
  deriving DecidableEq, Repr

namespace Conversion

/-- Gives an answer after some checks. -/
def ofAnswer (checks : List Statement) (a : Answer) : Conversion where
  cppType := a.cppType
  description := a.description
  statements := checks ++ [.give a]

/-- Nothing but the auxiliary values, if there are any. -/
def ofNothing (extras : List Auxiliary) : Conversion :=
  if extras.isEmpty then { cppType := "void", description := "None", statements := [] }
  else ofAnswer [] { primary := none, extras }

/-- The status, or the auxiliary values in its place. -/
def ofStatus (label : String) (extras : List Auxiliary) : Conversion :=
  let check := Statement.failIf "result == isl_stat_error" label
  if extras.isEmpty then
    { cppType := "isl_stat", description := "None", statements := [check, .giveResult] }
  else ofAnswer [check] { primary := none, extras }

/-- A result without auxiliary values. -/
def alone (extras : List Auxiliary) (refusal : Unsupported) (c : Conversion) :
    Except Stop Conversion :=
  if extras.isEmpty then .ok c else .error (.skip (.unsupported refusal))

def ofScalar (base : String) : Conversion where
  cppType := base
  description := base
  statements := [.giveResult]

/-- A string that the caller is given is freed once it has been copied. -/
def ofText (isGiven : Bool) : Conversion where
  cppType := "py::object"
  description := "string"
  statements := [.noneUnlessResult, .castText] ++ (if isGiven then [.freeText] else []) ++
    [.giveText]

def ofUserObject : Conversion where
  cppType := "py::object"
  description := "a user-specified python object"
  statements := [.noneUnlessResult, .giveUserObject]

/-- The receiver takes possession of the result. -/
def ofMutator (m : Method) (cls : String) : Conversion where
  cppType := "py::object"
  description := Catalogue.classRole cls ++ " (self)"
  statements := [.repoint ((m.args.head?.map Argument.name).getD "self") m.wrapperName]

/-- The result becomes a new object. -/
def ofObject (label cls : String) (extras : List Auxiliary) : Conversion :=
  let a : Answer := { primary := some (.object cls), extras }
  { cppType := "py::object"
    description := a.description
    statements := [.giveObject cls label a] }

/-- An object is given to the caller; only a context may come without an annotation. -/
def ofHandle (m : Method) (cls : String) (extras : List Auxiliary) : Except Stop Conversion :=
  if m.isMutator then
    if extras.isEmpty then .ok (ofMutator m cls) else .error .retry
  else if m.result.ownership = some .give ∨ cls = "ctx" then
    .ok (ofObject m.wrapperName cls extras)
  else if m.result.ownership.isNone then .error (.skip (.undocumented m.display))
  else .error (.skip (.unsupported .resultNotGiven))

def ofShape (m : Method) (extras : List Auxiliary) : ResultShape → Except Stop Conversion
  | .nothing => .ok (ofNothing extras)
  | .int true =>
    .ok (ofAnswer [.failIf "result == -1" m.wrapperName] { primary := some .bool, extras })
  | .int false => .ok (ofAnswer [] { primary := some .int, extras })
  | .size =>
    .ok (ofAnswer [.failIf "result == isl_size_error" m.wrapperName]
      { primary := some .int, extras })
  | .status => .ok (ofStatus m.wrapperName extras)
  | .bool =>
    .ok (ofAnswer [.failIf "result == isl_bool_error" m.wrapperName]
      { primary := some .bool, extras })
  | .scalar => alone extras .extrasWithScalar (ofScalar m.result.base)
  | .handle cls => ofHandle m cls extras
  | .text => alone extras .extrasWithText (ofText (m.result.ownership == some .give))
  | .userObject => alone extras .extrasWithUserObject ofUserObject

end Conversion

end IslBindings
