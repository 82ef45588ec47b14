import IslBindings.Header.Directive
import IslBindings.Text.Alphanumeric
import IslBindings.Text.Search

/-!
# Function-like macros

A function-like macro, the `#define` line it is read from, and the substitution of
arguments into its body with `##` and `#`.
-/

namespace IslBindings.Header

open Text

structure Macro where
  name : String
  params : List String
  body : List Char
  deriving DecidableEq, Repr

/-! ### Definitions -/

/-- The text with comments replaced by a space; the flag says that a comment is open. One that
is never closed takes the rest of the text. -/
def withoutComments : Bool → List Char → List Char
  | _, [] => []
  | false, '/' :: '*' :: rest => withoutComments true rest
  | false, c :: rest => c :: withoutComments false rest
  | true, '*' :: '/' :: rest => ' ' :: withoutComments false rest
  | true, _ :: rest => withoutComments true rest

/-- Ownership annotations have names of this form and stay words. -/
def isAnnotationName (name : List Char) : Bool :=
  ['_', '_', 'i', 's', 'l', '_'].isPrefixOf name

/-- The text after the word `define` of a directive line. -/
def afterDefine? (line : List Char) : Option (List Char) :=
  (dropStart? ['#'] (trimStart line)).bind fun directive =>
    (dropStart? ['d', 'e', 'f', 'i', 'n', 'e'] (trimStart directive)).bind fun rest =>
      if rest.head?.any isSpaceOrTab then some (trimStart rest) else none

/-- The macro that a line defines: its parameter list starts directly after its name. -/
def Macro.ofLine? (line : List Char) : Option Macro :=
  (afterDefine? line).bind fun text =>
    let name := text.takeWhile isIdentChar
    if name.isEmpty || isAnnotationName name then none
    else (dropStart? ['('] (text.dropWhile isIdentChar)).bind fun rest =>
      (cutAt? [')'] rest).map fun (params, body) =>
        { name := String.ofList name
          params := (((splitAtChar ',' params).map trim).filter (!·.isEmpty)).map String.ofList
          body := trim (withoutComments false body) }

/-- Lines with `\` continuations joined by a space; `start` is what is still open. -/
def joinContinued : List Char → List (List Char) → List (List Char)
  | start, [] => if start.isEmpty then [] else [start]
  | start, line :: rest =>
    if endsInBackslash line then joinContinued (start ++ (trimEnd line).dropLast ++ [' ']) rest
    else (start ++ line) :: joinContinued [] rest

def definedMacros (text : List Char) : List Macro :=
  (joinContinued [] (lines text)).filterMap Macro.ofLine?

/-! ### Substitution -/

def stringLiteral (arg : List Char) : List Char :=
  '"' :: arg.flatMap (fun c => if c = '\\' ∨ c = '"' then ['\\', c] else [c]) ++ ['"']

def isIdentStart (c : Char) : Bool := isAsciiLetter c || c == '_'

/-- The identifier that a text starts with, and what follows it. -/
def identAt? : List Char → Option (List Char × List Char)
  | [] => none
  | c :: rest =>
    if isIdentStart c then some (c :: rest.takeWhile isIdentChar, rest.dropWhile isIdentChar)
    else none

theorem length_lt_of_identAt? {s word rest : List Char} (h : identAt? s = some (word, rest)) :
    rest.length < s.length := by
  cases s with
  | nil => simp [identAt?] at h
  | cons c cs =>
    simp only [identAt?] at h
    split at h
    · simp only [Option.some.injEq, Prod.mk.injEq] at h
      rw [← h.2]
      exact Nat.lt_succ_of_le (List.dropWhile_suffix _).length_le
    · exact absurd h (by simp)

/-- The arguments of an invocation by the names of the parameters. -/
abbrev Bindings := List (List Char × List Char)

/-- The argument that `#` before the text turns into a string literal, and what follows it. -/
def stringized? (bound : Bindings) (s : List Char) : Option (List Char × List Char) :=
  (identAt? (s.dropWhile isAsciiBlank)).bind fun (word, rest) =>
    (bound.lookup word).map fun arg => (arg, rest)

theorem length_lt_of_stringized? {bound : Bindings} {s arg rest : List Char}
    (h : stringized? bound s = some (arg, rest)) : rest.length < s.length := by
  simp only [stringized?, Option.bind_eq_some_iff, Option.map_eq_some_iff] at h
  obtain ⟨⟨word, r⟩, hi, a, -, he⟩ := h
  simp only [Prod.mk.injEq] at he
  rw [← he.2]
  exact Nat.lt_of_lt_of_le (length_lt_of_identAt? hi) (List.dropWhile_suffix _).length_le

/-- Walks a body; `done` is the result so far, last character first. `##` removes the blanks
on both its sides. -/
def substituteOnto (bound : Bindings) (done : List Char) : List Char → List Char
  | [] => done.reverse
  | c :: rest =>
    if c = '#' then
      if rest.head? = some '#' then
        substituteOnto bound (done.dropWhile isBlank) ((rest.drop 1).dropWhile isAsciiBlank)
      else match _h : stringized? bound rest with
        | some (arg, after) => substituteOnto bound ((stringLiteral arg).reverse ++ done) after
        | none => substituteOnto bound ('#' :: done) rest
    else match _h : identAt? (c :: rest) with
      | some (word, after) =>
        substituteOnto bound (((bound.lookup word).getD word).reverse ++ done) after
      | none => substituteOnto bound (c :: done) rest
termination_by s => s.length
decreasing_by
  · exact Nat.lt_succ_of_le (Nat.le_trans (List.dropWhile_suffix _).length_le
      (List.drop_suffix 1 rest).length_le)
  · exact Nat.lt_succ_of_lt (length_lt_of_stringized? ‹_›)
  · exact Nat.lt_succ_self _
  · exact length_lt_of_identAt? ‹_›
  · exact Nat.lt_succ_self _

def Macro.substitute (m : Macro) (args : List (List Char)) : List Char :=
  substituteOnto ((m.params.map String.toList).zip args) [] m.body

/-- The arguments are as many as the parameters; a single empty one counts as none. -/
def Macro.accepts (m : Macro) (args : List (List Char)) : Bool :=
  args.length == m.params.length || (m.params.isEmpty && args == [[]])

end IslBindings.Header
