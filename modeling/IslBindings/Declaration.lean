import IslBindings.Argument.OfTokens
import IslBindings.Text.Blank

/-!
# Declarations

A function declaration with its arguments still in tokens, so that the invocations of
declaration macros, whose arguments are class names, can be told from functions first.
-/

namespace IslBindings

structure Declaration where
  /-- The words before the name, annotations and markers included. -/
  returnWords : List String
  returnDepth : Depth
  cName : String
  args : List (List Token)
  deriving DecidableEq, Repr

namespace Declaration

/-- Markers that say nothing about the result. -/
def isSilentWord (w : String) : Bool := w == "__isl_overload" || w == "ISL_DEPRECATED"

/-- The argument list, which `void` alone leaves empty. -/
def argumentGroups (inner : List Token) : List (List Token) :=
  match Nesting.split Token.mark inner with
  | [[]] => []
  | [[.word w]] => if w = "void" then [] else [[.word w]]
  | groups => groups

/-- The form `words stars name ( arguments )`; what follows is not looked at. -/
def ofTokens? (tokens : List Token) : Option Declaration :=
  let head := tokens.takeWhile (· != .openParen)
  match tokens.dropWhile (· != .openParen), head.getLast? with
  | .openParen :: rest, some (.word cName) =>
    (Nesting.close? Token.mark 0 rest).bind fun (inner, _) =>
      (wordsThenDepth? head.dropLast).map fun (words, depth) =>
        { returnWords := words.filter (!isSilentWord ·)
          returnDepth := depth
          cName
          args := argumentGroups inner }
  | _, _ => none

def ofText (text : String) : Except ParseError Declaration :=
  match ofTokens? (Token.ofText text) with
  | some declaration => .ok declaration
  | none => .error (.malformed (String.ofList (Text.trim text.toList)))

end Declaration

end IslBindings
