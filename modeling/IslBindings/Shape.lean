import IslBindings.Catalogue.ValueType
import IslBindings.Method
import IslBindings.SkipReason

/-!
# Shapes

How each argument and the result of a method cross the boundary. A method with an
argument or a result of no shape has no wrapper.
-/

namespace IslBindings

/-! ### Arguments -/

inductive ArgShape where
  /-- A function pointer; the `user` slot after it is part of it. -/
  | callback (c : Callback)
  /-- A scalar or an enum by value. -/
  | scalar (arg : ValueArgument)
  /-- A `char *`. -/
  | text (arg : ValueArgument)
  /-- A pointer through which the function returns a flag. -/
  | flag (arg : ValueArgument)
  /-- An `isl_val *` that is no receiver, for which the caller may pass an integer. -/
  | valueOrInt (arg : ValueArgument)
  /-- A pointer to an object of a class. -/
  | handle (arg : ValueArgument) (cls : String)
  /-- A pointer through which the function returns an object. -/
  | handleOut (arg : ValueArgument) (cls : String)
  deriving Repr

namespace ArgShape

def ofValue (arg : ValueArgument) (index : Nat) : Except SkipReason ArgShape :=
  let base := arg.type.base
  match arg.type.depth with
  | .value =>
    if Catalogue.isValueType base then .ok (.scalar arg)
    else .error (.unsupported (.argumentType base .value))
  | .pointer =>
    if base = "char" then .ok (.text arg)
    else if base = "int" ∨ base = "isl_bool" then
      if Catalogue.flagNames.contains arg.name then .ok (.flag arg)
      else .error (.unsupported (.flagPointer base))
    else if base = "isl_val" ∧ 0 < index then .ok (.valueOrInt arg)
    else match arg.islClass? with
      | some cls => .ok (.handle arg cls)
      | none =>
        if base = "void" ∧ arg.name = "user" then .error (.unsupported .voidPointer)
        else .error (.unsupported (.argumentType base .pointer))
  | .pointerToPointer =>
    match arg.islClass? with
    | some cls => .ok (.handleOut arg cls)
    | none => .error (.unsupported (.argumentType base .pointerToPointer))

def ofArguments : Nat → List Argument → Except SkipReason (List (Nat × ArgShape))
  | _, [] => .ok []
  | index, .value arg :: rest => do
    let shape ← ofValue arg index
    let shapes ← ofArguments (index + 1) rest
    return (index, shape) :: shapes
  | _, [.callback ..] => .error (.unsupported .callbackWithoutUser)
  | index, .callback name result args :: next :: rest =>
    if next.name = "user" then do
      let shapes ← ofArguments (index + 2) rest
      return (index, .callback { name, result, args }) :: shapes
    else if Text.endsWith next.name "user" then .error (.unsupported .callbackUserName)
    else .error (.unsupported .callbackWithoutUser)

end ArgShape

def Method.argShapes (m : Method) : Except SkipReason (List (Nat × ArgShape)) :=
  ArgShape.ofArguments 0 m.args

/-! ### Results -/

inductive ResultShape where
  | nothing
  /-- An `int`; that of a predicate is a truth value or `-1` for an error. -/
  | int (isPredicate : Bool)
  | size
  | status
  | bool
  /-- Any other scalar or enum. -/
  | scalar
  | handle (cls : String)
  | text
  /-- The host object that was stored with the isl object. -/
  | userObject
  deriving DecidableEq, Repr

def Method.isPredicate (m : Method) : Bool :=
  Text.startsWith m.name "is_" || Text.startsWith m.name "has_"

def Method.resultShape (m : Method) : Except SkipReason ResultShape :=
  let base := m.result.base
  let refused := Except.error (.unsupported (.resultType base m.result.depth m.display))
  match m.result.depth with
  | .value =>
    if base = "void" then .ok .nothing
    else if base = "int" then .ok (.int m.isPredicate)
    else if base = "isl_size" then .ok .size
    else if base = "isl_stat" then .ok .status
    else if base = "isl_bool" then .ok .bool
    else if Catalogue.isValueType base then .ok .scalar
    else refused
  | .pointer =>
    if base = "char" ∨ base = "const char" then .ok .text
    else if base = "void" ∧ m.name = "get_user" then .ok .userObject
    else match Text.afterStart? "isl_" base with
      | some cls => .ok (.handle cls)
      | none => refused
  | .pointerToPointer => refused

end IslBindings
