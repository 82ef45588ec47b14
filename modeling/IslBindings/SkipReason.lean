import IslBindings.CType
import IslBindings.ParseError

/-!
# Reasons to skip a method

Why a declaration or a method gets no wrapper.
-/

namespace IslBindings

/-- What about a signature has no binding. -/
inductive Unsupported where
  /-- A callback followed by an argument called like `xuser`. -/
  | callbackUserName
  | callbackWithoutUser
  | flagPointer (base : String)
  | voidPointer
  | argumentType (base : String) (depth : Depth)
  | resultType (base : String) (depth : Depth) (method : String)
  | callbackNotEndingInUser (name : String)
  | callbackInCallback (name : String)
  | callbackArgument (base : String) (depth : Depth)
  | callbackArgumentOwnership
  | callbackResultUnannotated
  | callbackResultNotGiven
  | callbackResult
  | extrasWithScalar
  | extrasWithText
  | extrasWithUserObject
  | resultNotGiven
  | objectNotGiven
  deriving DecidableEq, Repr

def Unsupported.message : Unsupported → String
  | .callbackUserName => "unexpected callback signature"
  | .callbackWithoutUser => "callback signature without user pointer"
  | .flagPointer base => base ++ " *"
  | .voidPointer => "void pointer"
  | .argumentType base depth => "arg type " ++ base ++ " " ++ depth.stars
  | .resultType base depth method =>
    "ret type: " ++ base ++ " " ++ depth.stars ++ " in " ++ method
  | .callbackNotEndingInUser name => "callback " ++ name ++ " does not end in a user pointer"
  | .callbackInCallback name => "nested callback argument " ++ name
  | .callbackArgument base depth =>
    "unsupported callback arg: " ++ base ++ " " ++ depth.stars
  | .callbackArgumentOwnership => "unsupported callback arg semantics"
  | .callbackResultUnannotated => "callback return with unspecified semantics"
  | .callbackResultNotGiven => "callback return with non-GIVE semantics"
  | .callbackResult => "non-int callback"
  | .extrasWithScalar => "extra ret val with safe type"
  | .extrasWithText => "extra ret val with string"
  | .extrasWithUserObject => "extra ret val with user object"
  | .resultNotGiven => "non-give return"
  | .objectNotGiven => "non-give secondary ptr return value"

inductive SkipReason where
  | malformedDeclaration (error : ParseError)
  | badArgument (text : String)
  /-- An isl object without an ownership annotation. -/
  | undocumented (method : String)
  | unsupported (what : Unsupported)
  deriving DecidableEq, Repr

def SkipReason.message : SkipReason → String
  | .malformedDeclaration error => "malformed declaration: " ++ error.message
  | .badArgument text => "unsupported argument in " ++ text
  | .undocumented method => "undocumented ownership semantics in " ++ method
  | .unsupported what => "sig not supported: " ++ what.message

def ParseError.skipReason : ParseError → SkipReason
  | .badArgument text => .badArgument text
  | error => .malformedDeclaration error

end IslBindings
