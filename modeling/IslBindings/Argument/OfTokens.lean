import IslBindings.Argument
import IslBindings.ParseError
import IslBindings.Token

/-!
# Reading an argument

An argument is `words stars name`, or for a callback `words stars (*name)(arguments)`.
The words hold at most one ownership annotation.
-/

namespace IslBindings

/-! ### Words and stars -/

def wordsThenStars? : List Token → Option (List String × Nat)
  | [] => some ([], 0)
  | .word w :: rest => (wordsThenStars? rest).map fun (words, stars) => (w :: words, stars)
  | .star :: rest => if rest.all (· == .star) then some ([], rest.length + 1) else none
  | _ :: _ => none

def wordsThenDepth? (tokens : List Token) : Option (List String × Depth) :=
  (wordsThenStars? tokens).bind fun (words, stars) =>
    (Depth.ofStars? stars).map fun depth => (words, depth)

def splitOwnership (words : List String) (context : String) :
    Except ParseError (Option Ownership × List String) :=
  match words.filterMap Ownership.ofWord? with
  | [] => .ok (none, words)
  | [o] => .ok (some o, words.filter fun w => (Ownership.ofWord? w).isNone)
  | _ => .error (.conflictingAnnotations context)

/-- The words `struct` and `enum` are no part of a type's name. -/
def isTag (w : String) : Bool := w == "struct" || w == "enum"

def joinWords (words : List String) : String := " ".intercalate words

/-! ### Values -/

/-- The words before the stars of a value: a leading `const` stands apart from the type. -/
def ValueArgument.ofWords (name : String) (words : List String) (depth : Depth) (text : String) :
    Except ParseError ValueArgument := do
  let (ownership, words) ← splitOwnership words text
  let words := words.filter (!isTag ·)
  let isConst := words.head? == some "const"
  let words := if isConst then words.drop 1 else words
  if words.isEmpty then
    throw (.malformed text)
  return { name, isConst, type := { ownership, base := joinWords words, depth } }

/-- The name is the last token. -/
def ValueArgument.ofTokens (tokens : List Token) : Except ParseError ValueArgument :=
  let text := Token.spell tokens
  match tokens.getLast? with
  | some (.word name) =>
    match wordsThenDepth? tokens.dropLast with
    | some (words, depth) => ofWords name words depth text
    | none => .error (.malformed text)
  | _ => .error (.malformed text)

/-! ### Callbacks -/

/-- A callback with its arguments still in tokens. -/
structure CallbackHead where
  name : String
  words : List String
  depth : Depth
  inner : List Token
  deriving DecidableEq, Repr

/-- What stands before and after the first `(*`. -/
def cutAtCallback? : List Token → Option (List Token × List Token)
  | [] => none
  | .openParen :: .star :: rest => some ([], rest)
  | t :: rest => (cutAtCallback? rest).map fun (before, after) => (t :: before, after)

/-- The parts of a callback, from what stands before and after its `(*`. What follows the
parenthesis that closes its arguments is not looked at. -/
def CallbackHead.ofParts? (before after : List Token) : Option CallbackHead :=
  match after with
  | .word name :: .closeParen :: .openParen :: rest =>
    (Nesting.close? Token.mark 0 rest).bind fun (inner, _) =>
      (wordsThenDepth? before).map fun (words, depth) => { name, words, depth, inner }
  | _ => none

/-- The result of a callback; a `const` anywhere does not count. -/
def CallbackHead.result (head : CallbackHead) (text : String) : Except ParseError CType := do
  let (ownership, words) ← splitOwnership head.words text
  let words := words.filter fun w => !isTag w && w != "const"
  if words.isEmpty then
    throw (.malformed text)
  return { ownership, base := joinWords words, depth := head.depth }

/-- The tokens of each argument of a callback; empty places between commas do not count. -/
def CallbackHead.groups (head : CallbackHead) : List (List Token) :=
  (Nesting.split Token.mark head.inner).filter (!·.isEmpty)

/-! ### Arguments -/

/-- Reads arguments that have callbacks at most `fuel` deep. -/
def Argument.ofTokensWithin : Nat → List Token → Except ParseError Argument
  | 0, tokens => .error (.malformed (Token.spell tokens))
  | fuel + 1, tokens =>
    let text := Token.spell tokens
    if tokens.contains .ellipsis then .error (.badArgument text)
    else match cutAtCallback? tokens with
      | none => .value <$> ValueArgument.ofTokens tokens
      | some (before, after) =>
        match CallbackHead.ofParts? before after with
        | none => .error (.malformed text)
        | some head => do
          let result ← head.result text
          let args ← head.groups.mapM (ofTokensWithin fuel)
          return .callback head.name result args

/-- Reads an argument. A callback is shorter than the argument it stands in, so the tokens
are more than its depth. -/
def Argument.ofTokens (tokens : List Token) : Except ParseError Argument :=
  ofTokensWithin (tokens.length + 1) tokens

end IslBindings
