import IslBindings.Proofs.Header.Replacement
import IslBindings.Proofs.Header.Segments
import IslBindings.Proofs.Text.Trimming

/-!
# Substitution by lexemes

What a walk through the text of a macro's body makes of its lexemes. The walk writes the chains of
the rule one behind the other, each behind its white space, and the lexemes of its text are those
of the rule.
-/

namespace IslBindings.Header

open Text

/-! ### The walk through a body -/

section Walk

variable {bound : Bindings} {done l s word after : List Char} {c : Char}

/-- The words that the walk meets. Digits may stand before them. -/
def wordsWithin : List Char → List (List Char)
  | [] => []
  | c :: rest =>
    if isIdentStart c then
      (c :: rest.takeWhile isIdentChar) :: wordsWithin (rest.dropWhile isIdentChar)
    else wordsWithin rest
termination_by s => s.length
decreasing_by
  · exact Nat.lt_succ_of_le (List.dropWhile_suffix _).length_le
  · exact Nat.lt_succ_self _

end Walk

/-! ### Bodies -/

section Bodies

variable {bound : Bindings} {done l s : List Char} {c : Char}

end Bodies

/-! ### Values of operands -/

/-- No blank surrounds what an operand stands for, and next to a `##` there is a lexeme. -/
structure IsValue (isPasted isPastable : Prop) (qs : List Piece) : Prop where
  solid : qs ≠ [] → IsSolid (Piece.textOf qs)
  starts : isPasted → StartsInLexeme qs
  ends : isPastable → EndsInLexeme qs

section Arguments

variable {s : List Char} {p : Piece}

end Arguments

section Values

variable {bound : Bindings} {l s : List Char} {isPasted : Bool} {P Q : Prop}

end Values

/-! ### What the walk has written -/

/-- The chains before the one that the walk is at, that chain, and white space. There is none
behind a `##`, and where a `##` may follow the chain ends in a lexeme. -/
structure Writes (out : List Char) (isPasted : Bool) (isPastable : Prop) (before : List Chain)
    (c : Chain) (gap : List Char) : Prop where
  text : out = Piece.textOf (arrange before) ++
    (Piece.textOf c.spaced ++ if isPasted then [] else gap)
  spaces : ∀ d ∈ gap, isSpace d = true
  solid : c.pieces ≠ [] → IsSolid (Piece.textOf c.pieces)
  ends : isPastable → EndsInLexeme c.pieces

section Writes

variable {out gap : List Char} {isPasted : Bool} {isPastable isPastable' : Prop}
  {before : List Chain} {c : Chain} {qs : List Piece}

theorem Writes.mono (h : Writes out isPasted isPastable before c gap)
    (himp : isPastable' → isPastable) : Writes out isPasted isPastable' before c gap :=
  { h with ends := h.ends ∘ himp }

theorem Writes.space {d : Char} (h : Writes out isPasted isPastable before c gap)
    (hd : isSpace d = true) : Writes (if isPasted then out else out ++ [d]) isPasted isPastable
      before c (gap ++ [d]) := by
  refine ⟨?_, List.forall_mem_append.mpr ⟨h.spaces, List.forall_mem_singleton.mpr hd⟩, h.solid,
    h.ends⟩
  rw [h.text]
  cases isPasted <;> simp

/-- `##` removes the blanks, and leaves those before a chain that is empty so far only where there
are none. -/
theorem Writes.trimEnd (h : Writes out isPasted isPastable before c gap) (hpastable : isPastable)
    (hgap : c.pieces = [] →
      (Piece.textOf (arrange before) ++ c.gap).getLast?.all (!isBlank ·) = true) :
    Writes (trimEnd out) true True before c [] := by
  have hblank : AllBlank (if isPasted then [] else gap) := by
    cases isPasted with
    | true => exact allBlank_nil
    | false => exact fun d hd => isBlank_of_isSpace (h.spaces d hd)
  have hkept : Text.trimEnd (Piece.textOf (arrange before) ++ Piece.textOf c.spaced) =
      Piece.textOf (arrange before) ++ Piece.textOf c.spaced := by
    rw [textOf_spaced, ← List.append_assoc]
    by_cases hnil : c.pieces = []
    · have htext : Piece.textOf c.pieces = [] := by
        rw [hnil]
        rfl
      rw [htext, List.append_nil]
      exact trimEnd_eq_self (hgap hnil)
    · have hsolid := h.solid hnil
      rw [trimEnd_append_of_ne_nil _ (by rw [hsolid.trimEnd]; exact hsolid.ne_nil), hsolid.trimEnd]
  refine ⟨?_, nofun, h.solid, fun _ => h.ends hpastable⟩
  rw [h.text, ← List.append_assoc, trimEnd_append_of_blank _ hblank, hkept, if_pos rfl,
    List.append_nil]

theorem Writes.start {P : Prop} (h : Writes out false isPastable before c gap)
    (hqs : IsValue P isPastable' qs) :
    Writes (out ++ Piece.textOf qs) false isPastable' (before ++ [c]) (.start gap qs) [] := by
  refine ⟨?_, nofun, hqs.solid, hqs.ends⟩
  rw [h.text, textOf_spaced (.start gap qs), arrange_append, textOf_append, arrange_singleton]
  simp [Chain.start]

end Writes

/-! ### The chains in the text -/

section Substitution

variable {bound : Bindings} {done s gap : List Char} {isPasted : Bool} {before total : List Chain}
  {c : Chain}

end Substitution

/-! ### Macros -/

/-- The parameters are names, and the body is made of names, numbers and punctuators. Its blanks
are those of a directive, and a parameter stands in a number only as part of a longer word. -/
structure Macro.IsPlain (m : Macro) : Prop where
  params : ∀ p ∈ m.params, isName p.toList = true
  blanks : ∀ c ∈ m.body, isBlank c = true → isAsciiBlank c = true
  noComment : ∀ p ∈ scan m.body, p.isComment = false
  noQuote : ∀ c ∈ m.body, isQuote c = false
  numbers : ∀ l ∈ lexemes m.body, isNumber l = true →
    ∀ w ∈ wordsWithin l, w ∉ m.params.map String.toList

section Macros

variable {m : Macro} {args : List (List Char)}

end Macros

end IslBindings.Header
