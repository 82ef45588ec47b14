/-!
# Reading errors

Why a declaration or an argument is not read.
-/

namespace IslBindings

inductive ParseError where
  /-- The text has another form than a declaration or an argument. -/
  | malformed (text : String)
  /-- An argument of a form that has no binding, such as `...`. -/
  | badArgument (text : String)
  /-- A type with more than one ownership annotation. -/
  | conflictingAnnotations (context : String)
  deriving DecidableEq, Repr

def ParseError.message : ParseError → String
  | .malformed text => "declaration does not match the function grammar: `" ++ text ++ "`"
  | .badArgument text => "unsupported argument `" ++ text ++ "`"
  | .conflictingAnnotations context => "conflicting ownership annotations in `" ++ context ++ "`"

end IslBindings
