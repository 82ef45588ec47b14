import IslBindings.Proofs.Header.Lexemes

/-!
# Lexemes apart

Lexemes with white space between them are found again in their text, if none of them runs on into
what follows it. Into a blank only an open quote runs on.
-/

namespace IslBindings.Header

open Text

/-! ### Lexemes apart -/

/-- No piece runs on into what follows it. -/
def areApart : List Piece → Bool
  | [] => true
  | .space c :: rest => isSpace c && areApart rest
  | .comment s :: rest =>
    commentAt? (s ++ Piece.textOf rest) == some (s, Piece.textOf rest) && areApart rest
  | .lexeme s :: rest =>
    isLexeme s && (Piece.textOf rest).head?.all (!runsOn s ·) && areApart rest

theorem exists_text_eq_cons {p : Piece} {ps : List Piece} (h : areApart (p :: ps) = true) :
    ∃ c s, p.text = c :: s := by
  cases p with
  | space c => exact ⟨c, [], rfl⟩
  | comment s =>
    rw [areApart, Bool.and_eq_true, beq_iff_eq] at h
    exact List.exists_cons_of_ne_nil (eq_append_of_commentAt? h.1).1
  | lexeme s =>
    rw [areApart, Bool.and_eq_true, Bool.and_eq_true] at h
    obtain ⟨c, rest, hs, -⟩ := exists_cons_of_isLexeme h.1.1
    exact ⟨c, rest, hs⟩

theorem textOf_append (ps qs : List Piece) :
    Piece.textOf (ps ++ qs) = Piece.textOf ps ++ Piece.textOf qs :=
  List.flatMap_append

def isQuote (c : Char) : Bool := c == '"' || c == '\''

/-- What stands between the quotes of a string literal. -/
def escaped (arg : List Char) : List Char :=
  arg.flatMap fun c => if c = '\\' ∨ c = '"' then ['\\', c] else [c]

section StringLiteral

variable {arg : List Char}

end StringLiteral

end IslBindings.Header
