import IslBindings.Header.Directive
import IslBindings.Proofs.Text.Rows

/-!
# Lines of directives

The lines of a directive are the one that starts it and those that it asks for. They come out
empty, all other lines come out as they are, and what is left has no directives, so that nothing
is left to do for a second pass. A text that ends with its last directive can be cut off.
-/

namespace IslBindings.Header

open Text

/-! ### Lines of a directive -/

/-- Behind its blanks the line starts with `#`. -/
def StartsDirective (line : List Char) : Prop :=
  ∃ g rest, AllBlank g ∧ line = g ++ '#' :: rest

/-- Before its blanks the line ends in a backslash. -/
def AsksForMore (line : List Char) : Prop :=
  ∃ front g, AllBlank g ∧ line = front ++ '\\' :: g

/-- The line starts a directive, or it is asked for by the line before, which belongs to one. -/
inductive InDirective (ls : List (List Char)) : Nat → Prop
  | starts {k line} : ls[k]? = some line → StartsDirective line → InDirective ls k
  | continues {k line next} : InDirective ls k → ls[k]? = some line → AsksForMore line →
      ls[k + 1]? = some next → InDirective ls (k + 1)

/-- The last line belongs to a directive and asks for one more. -/
def EndsInDirective (ls : List (List Char)) : Prop :=
  ∃ k line, ls.length = k + 1 ∧ ls[k]? = some line ∧ InDirective ls k ∧ AsksForMore line

theorem startsDirective_iff {line : List Char} :
    startsDirective line = true ↔ StartsDirective line := by
  rw [startsDirective, beq_iff_eq]
  constructor
  · intro h
    obtain ⟨rest, hrest⟩ := List.head?_eq_some_iff.mp h
    obtain ⟨g, hg, hline⟩ := exists_append_trimStart line
    exact ⟨g, rest, hg, hrest ▸ hline⟩
  · rintro ⟨g, rest, hg, rfl⟩
    rw [trimStart_append_of_blank _ hg, trimStart_cons_of_not_blank _ (by decide)]
    rfl

theorem endsInBackslash_iff {line : List Char} :
    endsInBackslash line = true ↔ AsksForMore line := by
  rw [endsInBackslash, beq_iff_eq]
  constructor
  · intro h
    obtain ⟨front, hfront⟩ := List.getLast?_eq_some_iff.mp h
    obtain ⟨g, hg, hline⟩ := exists_trimEnd_append line
    refine ⟨front, g, hg, ?_⟩
    rw [hfront, List.append_assoc] at hline
    exact hline
  · rintro ⟨front, g, hg, rfl⟩
    have hcut : front ++ '\\' :: g = front ++ ['\\'] ++ g := by simp
    rw [hcut, trimEnd_append_of_blank _ hg, trimEnd_concat_of_not_blank _ (by decide),
      List.getLast?_concat]

/-! ### The state between lines -/

/-- The line behind these belongs to a directive, whatever it looks like. -/
def insideAfter (inside : Bool) (ls : List (List Char)) : Bool :=
  ls.foldl (fun inside line => (inside || startsDirective line) && endsInBackslash line) inside

theorem insideAfter_concat (inside : Bool) (ls : List (List Char)) (line : List Char) :
    insideAfter inside (ls ++ [line]) =
      ((insideAfter inside ls || startsDirective line) && endsInBackslash line) := by
  rw [insideAfter, List.foldl_append]
  rfl

theorem emptyDirectives_cons (inside : Bool) (line : List Char) (ls : List (List Char)) :
    emptyDirectives inside (line :: ls) =
      (if inside || startsDirective line then [] else line) ::
        emptyDirectives ((inside || startsDirective line) && endsInBackslash line) ls := by
  rw [emptyDirectives]
  split
  · next h => rw [h, Bool.true_and]
  · next h => rw [Bool.eq_false_iff.mpr h, Bool.false_and]

theorem emptyDirectives_append (inside : Bool) (ls ms : List (List Char)) :
    emptyDirectives inside (ls ++ ms) =
      emptyDirectives inside ls ++ emptyDirectives (insideAfter inside ls) ms := by
  induction ls generalizing inside with
  | nil => rw [emptyDirectives_nil]; rfl
  | cons line ls ih =>
    rw [List.cons_append, emptyDirectives_cons, emptyDirectives_cons, ih, List.cons_append]
    rfl

/-- Each line comes out as the state before it says. -/
theorem getElem?_emptyDirectives {ls : List (List Char)} {k : Nat} {line : List Char}
    (h : ls[k]? = some line) (inside : Bool) :
    (emptyDirectives inside ls)[k]? =
      some (if insideAfter inside (ls.take k) || startsDirective line then [] else line) := by
  induction ls generalizing k inside with
  | nil => simp at h
  | cons l ls ih =>
    rw [emptyDirectives_cons]
    cases k with
    | zero =>
      rw [List.getElem?_cons_zero, Option.some.injEq] at h
      rw [h]
      rfl
    | succ k =>
      rw [List.getElem?_cons_succ] at h ⊢
      exact ih h _

theorem inDirective_iff {ls : List (List Char)} {k : Nat} {line : List Char}
    (h : ls[k]? = some line) :
    InDirective ls k ↔ (insideAfter false (ls.take k) || startsDirective line) = true := by
  induction k generalizing line with
  | zero =>
    rw [List.take_zero]
    constructor
    · intro hin
      cases hin with
      | starts hl hs =>
        cases h.symm.trans hl
        exact startsDirective_iff.mpr hs
    · intro hs
      exact .starts h (startsDirective_iff.mp hs)
  | succ k ih =>
    -- The line before exists, and the state behind it is known from what it belongs to.
    obtain ⟨before, hbefore⟩ : ∃ before, ls[k]? = some before := by
      obtain ⟨hk, -⟩ := List.getElem?_eq_some_iff.mp h
      exact ⟨_, List.getElem?_eq_getElem (Nat.lt_of_succ_lt hk)⟩
    have htake : ls.take (k + 1) = ls.take k ++ [before] := by
      rw [List.take_add_one, hbefore]
      rfl
    rw [htake, insideAfter_concat, Bool.or_eq_true, Bool.and_eq_true, ← ih hbefore,
      endsInBackslash_iff, startsDirective_iff]
    constructor
    · intro hin
      cases hin with
      | starts hl hs =>
        cases h.symm.trans hl
        exact .inr hs
      | continues hin hl hmore _ =>
        cases hbefore.symm.trans hl
        exact .inl ⟨hin, hmore⟩
    · rintro (⟨hin, hmore⟩ | hs)
      · exact .continues hin hbefore hmore h
      · exact .starts h hs

theorem insideAfter_eq_true_iff (ls : List (List Char)) :
    insideAfter false ls = true ↔ EndsInDirective ls := by
  rcases List.eq_nil_or_concat ls with rfl | ⟨front, last, rfl⟩
  · refine iff_of_false (by simp [insideAfter]) ?_
    rintro ⟨k, line, -, hline, -⟩
    simp at hline
  · rw [List.concat_eq_append]
    have hlast : (front ++ [last])[front.length]? = some last := List.getElem?_concat_length
    have hin := inDirective_iff hlast
    rw [List.take_left] at hin
    rw [insideAfter_concat, Bool.and_eq_true, ← hin, endsInBackslash_iff]
    constructor
    · rintro ⟨hin, hmore⟩
      exact ⟨front.length, last, by simp, hlast, hin, hmore⟩
    · rintro ⟨k, line, hk, hline, hin, hmore⟩
      obtain rfl : front.length = k := by simpa using hk
      cases hlast.symm.trans hline
      exact ⟨hin, hmore⟩

theorem mem_emptyDirectives {inside : Bool} {ls : List (List Char)} {line : List Char}
    (h : line ∈ emptyDirectives inside ls) : line = [] ∨ line ∈ ls := by
  induction ls generalizing inside with
  | nil =>
    rw [emptyDirectives_nil] at h
    cases h
  | cons l ls ih =>
    rw [emptyDirectives_cons, List.mem_cons] at h
    rcases h with rfl | h
    · split
      · exact .inl rfl
      · exact .inr (List.mem_cons_self ..)
    · exact (ih h).imp_right (List.mem_cons_of_mem _)

/-! ### Texts -/

/-- What comes out of a text, line by line, and what comes out of it in front of another one. -/
structure EmptiesDirectives (text : List Char) : Prop where
  length : (lines (withoutDirectives text)).length = (lines text).length
  emptied : ∀ k line, (lines text)[k]? = some line → InDirective (lines text) k →
    (lines (withoutDirectives text))[k]? = some []
  kept : ∀ k line, (lines text)[k]? = some line → ¬InDirective (lines text) k →
    (lines (withoutDirectives text))[k]? = some line
  none : ∀ line ∈ lines (withoutDirectives text), ¬StartsDirective line
  idempotent : withoutDirectives (withoutDirectives text) = withoutDirectives text
  append : text.getLast? = some '\n' → ¬EndsInDirective (lines text) →
    ∀ rest, withoutDirectives (text ++ rest) = withoutDirectives text ++ withoutDirectives rest

variable {text : List Char}

theorem lines_withoutDirectives (h : '\r' ∉ text) :
    lines (withoutDirectives text) = emptyDirectives false (lines text) := by
  refine lines_unlines _ fun line hline => ?_
  rcases mem_emptyDirectives hline with rfl | hline
  · simp
  · exact ⟨not_mem_of_mem_lines hline, fun hr => h (mem_of_mem_lines hline hr)⟩

theorem withoutDirectives_append (hend : EndsRow text) (hclosed : ¬EndsInDirective (lines text))
    (rest : List Char) :
    withoutDirectives (text ++ rest) = withoutDirectives text ++ withoutDirectives rest := by
  have hstate : insideAfter false (lines text) = false := by
    rw [Bool.eq_false_iff, ne_eq, insideAfter_eq_true_iff]
    exact hclosed
  rw [withoutDirectives, lines_append hend, emptyDirectives_append, hstate, unlines_append,
    withoutDirectives, withoutDirectives]

/-- Directives are emptied, and nothing else of a text changes. -/
theorem emptiesDirectives_of_no_return (h : '\r' ∉ text) : EmptiesDirectives text := by
  have hlines := lines_withoutDirectives h
  constructor
  case length => rw [hlines, length_emptyDirectives]
  case emptied =>
    intro k line hline hin
    rw [hlines, getElem?_emptyDirectives hline, if_pos ((inDirective_iff hline).mp hin)]
  case kept =>
    intro k line hline hin
    rw [hlines, getElem?_emptyDirectives hline, if_neg fun h => hin ((inDirective_iff hline).mpr h)]
  case none =>
    intro line hline hstarts
    rw [hlines] at hline
    have hfalse := startsDirective_of_mem_emptyDirectives hline
    rw [startsDirective_iff.mpr hstarts] at hfalse
    cases hfalse
  case idempotent =>
    rw [withoutDirectives, hlines, emptyDirectives_emptyDirectives, withoutDirectives]
  case append =>
    intro hend hclosed rest
    exact withoutDirectives_append (.inr hend) hclosed rest

def continuedDefine : List Char := "#define F(x) \\ \n #x\nint f(void);\n #endif".toList

theorem emptiesDirectives_continuedDefine :
    '\r' ∉ continuedDefine ∧ EmptiesDirectives continuedDefine ∧
      withoutDirectives continuedDefine = "\n\nint f(void);\n\n".toList := by
  have hreturn : '\r' ∉ continuedDefine := by decide
  exact ⟨hreturn, emptiesDirectives_of_no_return hreturn, by decide⟩

end IslBindings.Header
