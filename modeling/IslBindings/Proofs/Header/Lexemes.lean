import IslBindings.Header.Macro
import IslBindings.Proofs.Lists

/-!
# Lexemes

The preprocessing tokens of C: names, numbers, literals and punctuators. The next lexeme of a
text is the longest of its beginnings that is one, and a text falls into lexemes, comments and white
space.
-/

namespace IslBindings.Header

open Text

/-! ### Kinds of lexemes -/

/-- The white space of C. -/
def isSpace (c : Char) : Bool := isAsciiBlank c || c == '\x0b'

theorem isBlank_of_isSpace {c : Char} (h : isSpace c = true) : isBlank c = true := by
  rw [isSpace, Bool.or_eq_true, beq_iff_eq] at h
  rcases h with h | rfl
  · exact isBlank_of_isAsciiBlank h
  · decide

theorem isSpace_eq_false_of_isIdentChar {c : Char} (h : isIdentChar c = true) :
    isSpace c = false := by
  have hblank := isBlank_eq_false_of_isWordChar (isWordChar_of_isIdentChar h)
  refine Bool.eq_false_iff.mpr fun hspace => ?_
  rw [isBlank_of_isSpace hspace] at hblank
  cases hblank

theorem isIdentChar_of_isIdentStart {c : Char} (h : isIdentStart c = true) :
    isIdentChar c = true := by
  rw [isIdentStart, Bool.or_eq_true] at h
  rw [isIdentChar, Bool.or_eq_true, Bool.or_eq_true]
  exact h.imp_left .inl

theorem isIdentChar_of_isAsciiDigit {c : Char} (h : isAsciiDigit c = true) :
    isIdentChar c = true := by
  rw [isIdentChar, h, Bool.or_true, Bool.true_or]

def isName (s : List Char) : Bool := s.head?.any isIdentStart && s.all isIdentChar

/-- A sign belongs to a number directly behind the letter of an exponent. -/
def continuesNumber (before c : Char) : Bool :=
  isIdentChar c || c == '.' || ((c == '+' || c == '-') && ['e', 'E', 'p', 'P'].contains before)

/-- The characters of a number behind one of them. -/
def isNumberTail : Char → List Char → Bool
  | _, [] => true
  | before, c :: rest => continuesNumber before c && isNumberTail c rest

def isNumber : List Char → Bool
  | '.' :: d :: rest => isAsciiDigit d && isNumberTail d rest
  | d :: rest => isAsciiDigit d && isNumberTail d rest
  | [] => false

/-- Text behind the opening quote of a literal that has not come to the closing one. The flag says
that the next character is escaped. -/
def staysInLiteral (quote : Char) : Bool → List Char → Bool
  | _, [] => true
  | true, c :: rest => c != '\n' && staysInLiteral quote false rest
  | false, c :: rest => c != quote && c != '\n' && staysInLiteral quote (c == '\\') rest

/-- Text behind the opening quote of a literal that ends with the closing one. -/
def closesLiteral (quote : Char) : Bool → List Char → Bool
  | _, [] => false
  | true, c :: rest => c != '\n' && closesLiteral quote false rest
  | false, c :: rest =>
    if c = quote then rest.isEmpty else c != '\n' && closesLiteral quote (c == '\\') rest

/-- What a literal may start with; the last character is the quote. -/
def literalOpeners : List (List Char) :=
  [['"'], ['L', '"'], ['u', '"'], ['U', '"'], ['u', '8', '"'], ['\''], ['L', '\''], ['u', '\''],
    ['U', '\'']]

def isLiteral (s : List Char) : Bool :=
  literalOpeners.any fun o =>
    o.isPrefixOf s && closesLiteral (o.getLastD '"') false (s.drop o.length)

def punctuators : List (List Char) :=
  ["[", "]", "(", ")", "\x7b", "\x7d", ".", "->", "++", "--", "&", "*", "+", "-", "~", "!", "/", "%",
    "<<", ">>", "<", ">", "<=", ">=", "==", "!=", "^", "|", "&&", "||", "?", ":", ";", "...", "=",
    "*=", "/=", "%=", "+=", "-=", "<<=", ">>=", "&=", "^=", "|=", ",", "#", "##", "<:", ":>", "<%",
    "%>", "%:", "%:%:"].map String.toList

/-- A single character that is not white space is a lexeme if nothing else. -/
def isLexeme (s : List Char) : Bool :=
  isName s || isNumber s || isLiteral s || punctuators.contains s ||
    (s.length == 1 && s.all (!isSpace ·))

/-! ### Beginnings of lexemes -/

/-- The text is a lexeme without some of its last characters. -/
def beginsLexeme (s : List Char) : Bool :=
  isName s || isNumber s || s == ['.'] ||
    (literalOpeners.any fun o => s.isPrefixOf o || (o.isPrefixOf s &&
      (staysInLiteral (o.getLastD '"') false (s.drop o.length) ||
        closesLiteral (o.getLastD '"') false (s.drop o.length)))) ||
    (punctuators.any (s.isPrefixOf ·)) || (s.length == 1 && s.all (!isSpace ·))

theorem isNumber_cons {c : Char} (hc : c ≠ '.') (s : List Char) :
    isNumber (c :: s) = (isAsciiDigit c && isNumberTail c s) := by
  rw [isNumber.eq_def]
  split
  · next heq => exact absurd (List.cons.inj heq).1 hc
  · next heq =>
    obtain ⟨rfl, rfl⟩ := List.cons.inj heq
    rfl
  · next heq => cases heq

theorem isLexeme_iff {s : List Char} : isLexeme s = true ↔
    isName s = true ∨ isNumber s = true ∨ isLiteral s = true ∨ s ∈ punctuators ∨
      ∃ c, s = [c] ∧ isSpace c = false := by
  have hsingle :
      (s.length == 1 && s.all (!isSpace ·)) = true ↔ ∃ c, s = [c] ∧ isSpace c = false := by
    rw [Bool.and_eq_true, beq_iff_eq, List.length_eq_one_iff]
    constructor
    · rintro ⟨⟨c, rfl⟩, h⟩
      exact ⟨c, rfl, by simpa using h⟩
    · rintro ⟨c, rfl, h⟩
      exact ⟨⟨c, rfl⟩, by simpa using h⟩
  rw [isLexeme, Bool.or_eq_true, Bool.or_eq_true, Bool.or_eq_true, Bool.or_eq_true, hsingle,
    List.contains_iff_mem, or_assoc, or_assoc, or_assoc]

theorem exists_cons_of_isName {s : List Char} (h : isName s = true) :
    ∃ c rest, s = c :: rest ∧ isIdentStart c = true := by
  cases s with
  | nil => cases h
  | cons c rest =>
    rw [isName, Bool.and_eq_true] at h
    exact ⟨c, rest, rfl, h.1⟩

theorem exists_cons_of_isNumber {s : List Char} (h : isNumber s = true) :
    ∃ c rest, s = c :: rest ∧ (isAsciiDigit c = true ∨ c = '.') := by
  cases s with
  | nil => cases h
  | cons c rest =>
    refine ⟨c, rest, rfl, ?_⟩
    by_cases hc : c = '.'
    · exact .inr hc
    · rw [isNumber_cons hc, Bool.and_eq_true] at h
      exact .inl h.1

/-- A lexeme does not start with white space, nor as a comment does. -/
theorem exists_cons_of_isLexeme {s : List Char} (h : isLexeme s = true) :
    ∃ c rest, s = c :: rest ∧ isSpace c = false ∧ (c = '/' → rest = [] ∨ rest = ['=']) := by
  have hident : ∀ c, isIdentChar c = true → isSpace c = false ∧ c ≠ '/' := by
    refine fun c hc => ⟨isSpace_eq_false_of_isIdentChar hc, ?_⟩
    rintro rfl
    exact absurd hc (by decide)
  rcases isLexeme_iff.mp h with h | h | h | h | h
  · obtain ⟨c, rest, rfl, hc⟩ := exists_cons_of_isName h
    obtain ⟨hspace, hslash⟩ := hident c (isIdentChar_of_isIdentStart hc)
    exact ⟨c, rest, rfl, hspace, fun he => absurd he hslash⟩
  · obtain ⟨c, rest, rfl, hc⟩ := exists_cons_of_isNumber h
    rcases hc with hc | rfl
    · obtain ⟨hspace, hslash⟩ := hident c (isIdentChar_of_isAsciiDigit hc)
      exact ⟨c, rest, rfl, hspace, fun he => absurd he hslash⟩
    · exact ⟨'.', rest, rfl, by decide, fun he => absurd he (by decide)⟩
  · have hopeners : ∀ o ∈ literalOpeners, o.head?.any (fun c => !isSpace c && c != '/') = true := by
      decide
    obtain ⟨o, ho, h⟩ := List.any_eq_true.mp h
    rw [Bool.and_eq_true, List.isPrefixOf_iff_prefix] at h
    obtain ⟨⟨rest, rfl⟩, -⟩ := h
    have hhead := hopeners o ho
    cases o with
    | nil => cases hhead
    | cons c o =>
      simp only [List.head?_cons, Option.any_some, Bool.and_eq_true, Bool.not_eq_true',
        bne_iff_ne] at hhead
      exact ⟨c, o ++ rest, rfl, hhead.1, fun he => absurd he hhead.2⟩
  · have hpunctuators : ∀ q ∈ punctuators, q.head?.any (!isSpace ·) = true ∧
        (q.head? = some '/' → q.tail = [] ∨ q.tail = ['=']) := by decide +kernel
    obtain ⟨hspace, hslash⟩ := hpunctuators s h
    cases s with
    | nil => cases hspace
    | cons c rest => exact ⟨c, rest, rfl, by simpa using hspace, fun he => hslash (by rw [he]; rfl)⟩
  · obtain ⟨c, rfl, hc⟩ := h
    exact ⟨c, [], rfl, hc, fun _ => .inl rfl⟩

/-! ### The longest lexeme -/

def longestWithin : Nat → List Char → List Char
  | 0, _ => []
  | n + 1, s => if isLexeme (s.take (n + 1)) then s.take (n + 1) else longestWithin n s

def longestLexeme (s : List Char) : List Char := longestWithin s.length s

/-- What a lexeme would be read on with. -/
def runsOn (s : List Char) (c : Char) : Bool :=
  beginsLexeme (s ++ [c]) || (s == ['/'] && (c == '/' || c == '*'))

section Characters

variable {l s : List Char} {d : Char}

end Characters

/-! ### Pieces of a text -/

/-- The comment that a text starts with, and what follows it. A block comment that is not closed
takes the rest of the text. -/
def commentAt? : List Char → Option (List Char × List Char)
  | '/' :: '*' :: rest =>
    match cutAt? ['*', '/'] rest with
    | some (inner, after) => some ('/' :: '*' :: (inner ++ ['*', '/']), after)
    | none => some ('/' :: '*' :: rest, [])
  | '/' :: '/' :: rest =>
    some ('/' :: '/' :: rest.takeWhile (· != '\n'), rest.dropWhile (· != '\n'))
  | _ => none

theorem eq_append_of_commentAt? {s comment after : List Char}
    (h : commentAt? s = some (comment, after)) : comment ≠ [] ∧ s = comment ++ after := by
  rw [commentAt?.eq_def] at h
  split at h
  · next rest =>
    split at h
    · next inner after' hcut =>
      cases h
      refine ⟨by simp, ?_⟩
      rw [eq_append_of_cutAt? hcut]
      simp
    · cases h
      simp
  · cases h
    refine ⟨by simp, ?_⟩
    simp [List.takeWhile_append_dropWhile]
  · cases h

inductive Piece where
  | space (c : Char)
  | comment (s : List Char)
  | lexeme (s : List Char)
  deriving DecidableEq, Repr

namespace Piece

def text : Piece → List Char
  | .space c => [c]
  | .comment s => s
  | .lexeme s => s

def lexeme? : Piece → Option (List Char)
  | .lexeme s => some s
  | _ => none

def isComment : Piece → Bool
  | .comment _ => true
  | _ => false

def textOf (ps : List Piece) : List Char := ps.flatMap text

def lexemesOf (ps : List Piece) : List (List Char) := ps.filterMap lexeme?

end Piece

/-- The text in pieces: comments and lexemes, and each character of white space. -/
def scan : List Char → List Piece
  | [] => []
  | c :: rest =>
    if isSpace c then .space c :: scan rest
    else match _h : commentAt? (c :: rest) with
      | some (comment, after) => .comment comment :: scan after
      | none =>
        .lexeme (longestLexeme (c :: rest)) ::
          scan (rest.drop ((longestLexeme (c :: rest)).length - 1))
termination_by s => s.length
decreasing_by
  · exact Nat.lt_succ_self _
  · obtain ⟨hne, heq⟩ := eq_append_of_commentAt? _h
    rw [heq, List.length_append]
    exact Nat.lt_add_of_pos_left (List.length_pos_iff.mpr hne)
  · exact Nat.lt_succ_of_le (List.drop_suffix _ _).length_le

def lexemes (s : List Char) : List (List Char) := Piece.lexemesOf (scan s)

end IslBindings.Header
