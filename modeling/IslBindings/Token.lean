import IslBindings.Nesting
import IslBindings.Text.Alphanumeric

/-!
# Tokens of a C declaration

The tokens that a declaration is read from, their spelling, and the lexer. The
main statements say how the lexer goes on from each kind of first character.
-/

namespace IslBindings

inductive Token where
  | word (w : String)
  | star
  | openParen
  | closeParen
  | comma
  | semicolon
  | ellipsis
  /-- Any other character, such as `[` or `=`. -/
  | other (c : Char)
  deriving DecidableEq, Repr

namespace Token

open Text

/-! ### Spelling -/

def text : Token → String
  | .word w => w
  | .star => "*"
  | .openParen => "("
  | .closeParen => ")"
  | .comma => ","
  | .semicolon => ";"
  | .ellipsis => "..."
  | .other c => String.singleton c

/-- The tokens with a single space between neighbours. -/
def spell (tokens : List Token) : String := " ".intercalate (tokens.map text)

/-! ### The lexer -/

/-- The token of a character that is neither blank nor part of a word. -/
def ofMark (c : Char) : Token :=
  if c = '*' then .star
  else if c = '(' then .openParen
  else if c = ')' then .closeParen
  else if c = ',' then .comma
  else if c = ';' then .semicolon
  else .other c

/-- The text after a dot that it may start with. -/
def skipDot : List Char → List Char
  | [] => []
  | c :: rest => if c = '.' then rest else c :: rest

theorem length_skipDot_le (s : List Char) : (skipDot s).length ≤ s.length := by
  cases s with
  | nil => exact Nat.le_refl _
  | cons c rest =>
    simp only [skipDot]
    split
    · exact Nat.le_succ _
    · exact Nat.le_refl _

/-- Words are as long as possible, two or three dots are an ellipsis, blanks separate. -/
def lex : List Char → List Token
  | [] => []
  | c :: rest =>
    if isBlank c then lex rest
    else if isWordChar c then
      .word (String.ofList (c :: rest.takeWhile isWordChar)) :: lex (rest.dropWhile isWordChar)
    else if c = '.' ∧ rest.head? = some '.' then .ellipsis :: lex (skipDot (rest.drop 1))
    else ofMark c :: lex rest
termination_by s => s.length
decreasing_by
  · exact Nat.lt_succ_self _
  · exact Nat.lt_succ_of_le (List.dropWhile_suffix _).length_le
  · exact Nat.lt_succ_of_le
      (Nat.le_trans (length_skipDot_le _) (List.drop_suffix 1 rest).length_le)
  · exact Nat.lt_succ_self _

def ofText (s : String) : List Token := lex s.toList

theorem lex_nil : lex [] = [] := by
  rw [lex]

theorem lex_blank {c : Char} (rest : List Char) (h : isBlank c) : lex (c :: rest) = lex rest := by
  rw [lex, if_pos h]

theorem lex_word {c : Char} (rest : List Char) (h : isWordChar c) :
    lex (c :: rest) =
      .word (String.ofList (c :: rest.takeWhile isWordChar)) ::
        lex (rest.dropWhile isWordChar) := by
  have hb := isBlank_eq_false_of_isWordChar h
  rw [lex]
  simp [hb, h]

theorem lex_dots (rest : List Char) : lex ('.' :: '.' :: rest) = .ellipsis :: lex (skipDot rest) := by
  rw [lex, if_neg (by decide), if_neg (by decide), if_pos (by simp)]
  rfl

theorem lex_mark {c : Char} (rest : List Char) (hb : isBlank c = false)
    (hw : isWordChar c = false) (hdot : c ≠ '.' ∨ rest.head? ≠ some '.') :
    lex (c :: rest) = ofMark c :: lex rest := by
  have hd : ¬(c = '.' ∧ rest.head? = some '.') := fun h => hdot.elim (· h.1) (· h.2)
  rw [lex]
  simp [hb, hw, hd]

/-! ### Nesting -/

def mark : Token → Nesting.Mark
  | .openParen => .opens
  | .closeParen => .closes
  | .comma => .separates
  | _ => .plain

end Token

end IslBindings
