import IslBindings.Proofs.Text.Trimming
import IslBindings.Text.Lines
import IslBindings.Text.Search

/-!
# Rows and occurrences

A text is cut at every line feed, as at any separator, so that it has one row more than line
feeds. Rows differ from lines in a last empty one at most, once both are trimmed, and a text
that is put together with a line feed has the rows of its parts.
-/

namespace IslBindings.Text

/-! ### Occurrences -/

theorem occursIn_cons (p : List Char) (c : Char) (s : List Char) :
    occursIn p (c :: s) = (p.isPrefixOf (c :: s) || occursIn p s) := by
  simp only [occursIn, cutAt?]
  split
  · next h => simp [h]
  · next h => simp [h]

theorem occursIn_iff {p s : List Char} : occursIn p s = true ↔ p <:+: s := by
  induction s with
  | nil =>
    cases p with
    | nil => simp [occursIn, cutAt?]
    | cons c p => simp [occursIn, cutAt?]
  | cons c s ih =>
    rw [occursIn_cons, Bool.or_eq_true, ih, List.infix_cons_iff, List.isPrefixOf_iff_prefix]

theorem occursIn_eq_false_iff {p s : List Char} : occursIn p s = false ↔ ¬p <:+: s := by
  rw [← occursIn_iff, Bool.not_eq_true]

theorem prefix_of_prefix_append_cons {p x y : List Char} {c : Char} (hc : c ∉ p)
    (h : p <+: x ++ c :: y) : p <+: x := by
  induction x generalizing p with
  | nil =>
    rcases List.prefix_cons_iff.mp h with rfl | ⟨t, rfl, -⟩
    · exact List.nil_prefix
    · exact absurd (List.mem_cons_self ..) hc
  | cons d x ih =>
    rcases List.prefix_cons_iff.mp h with rfl | ⟨t, rfl, ht⟩
    · exact List.nil_prefix
    · exact (List.prefix_cons_inj d).mpr (ih (fun hm => hc (List.mem_cons_of_mem _ hm)) ht)

/-- What occurs in a text but lacks one of its characters occurs on one side of it. -/
theorem infix_of_infix_append_cons {p x y : List Char} {c : Char} (hc : c ∉ p)
    (h : p <:+: x ++ c :: y) : p <:+: x ∨ p <:+: y := by
  induction x with
  | nil =>
    rcases List.infix_cons_iff.mp h with h | h
    · have hp : p <+: [] := prefix_of_prefix_append_cons (x := []) hc h
      exact Or.inl hp.isInfix
    · exact Or.inr h
  | cons d x ih =>
    rcases List.infix_cons_iff.mp h with h | h
    · have hp : p <+: d :: x := prefix_of_prefix_append_cons (x := d :: x) hc h
      exact Or.inl hp.isInfix
    · rcases ih h with h | h
      · exact Or.inl (h.trans (List.suffix_cons d x).isInfix)
      · exact Or.inr h

theorem not_infix_append_cons {p x y : List Char} {c : Char} (hc : c ∉ p) (hx : ¬p <:+: x)
    (hy : ¬p <:+: y) : ¬p <:+: x ++ c :: y := by
  intro h
  rcases infix_of_infix_append_cons hc h with h | h
  · exact hx h
  · exact hy h

theorem append_eq_append_cons {α : Type} {x y a b : List α} {c : α} (h : x ++ y = a ++ c :: b) :
    (∃ k, x = a ++ c :: k ∧ b = k ++ y) ∨ ∃ k, a = x ++ k ∧ y = k ++ c :: b := by
  rcases List.append_eq_append_iff.mp h with ⟨k, ha, hy⟩ | ⟨k, hx, hb⟩
  · exact Or.inr ⟨k, ha, hy⟩
  · cases k with
    | nil => exact Or.inr ⟨[], by rw [hx, List.append_nil, List.append_nil], hb.symm⟩
    | cons d k =>
      rw [List.cons_append, List.cons.injEq] at hb
      exact Or.inl ⟨k, by rw [hx, hb.1], hb.2⟩

theorem not_mem_intercalate {α : Type} {c d : α} {ls : List (List α)} (hne : c ≠ d)
    (h : ∀ l ∈ ls, c ∉ l) : c ∉ [d].intercalate ls := by
  induction ls with
  | nil => simp
  | cons l ls ih =>
    have hl := h l (List.mem_cons_self ..)
    cases ls with
    | nil =>
      rw [List.intercalate_singleton]
      exact hl
    | cons m ms =>
      rw [List.intercalate_cons_cons, List.mem_append, List.mem_append, List.mem_singleton, not_or,
        not_or]
      exact ⟨⟨hl, hne⟩, ih fun k hk => h k (List.mem_cons_of_mem _ hk)⟩

/-! ### Pieces -/

section Pieces

variable {sep : Char}

theorem splitAtChar_ne_nil (sep : Char) (s : List Char) : splitAtChar sep s ≠ [] := by
  cases s with
  | nil => simp [splitAtChar]
  | cons c s =>
    simp only [splitAtChar]
    split
    · simp
    · split <;> simp

theorem exists_splitAtChar_eq_cons (sep : Char) (s : List Char) :
    ∃ p ps, splitAtChar sep s = p :: ps := by
  cases h : splitAtChar sep s with
  | nil => exact absurd h (splitAtChar_ne_nil _ s)
  | cons p ps => exact ⟨p, ps, rfl⟩

theorem splitAtChar_self (s : List Char) : splitAtChar sep (sep :: s) = [] :: splitAtChar sep s := by
  simp [splitAtChar]

theorem splitAtChar_cons {c : Char} (hc : c ≠ sep) {s p : List Char} {ps : List (List Char)}
    (h : splitAtChar sep s = p :: ps) : splitAtChar sep (c :: s) = (c :: p) :: ps := by
  simp [splitAtChar, hc, h]

theorem splitAtChar_append (a b : List Char) :
    splitAtChar sep (a ++ sep :: b) = splitAtChar sep a ++ splitAtChar sep b := by
  induction a with
  | nil =>
    rw [List.nil_append, splitAtChar_self]
    rfl
  | cons c a ih =>
    by_cases hc : c = sep
    · subst hc
      rw [List.cons_append, splitAtChar_self, splitAtChar_self, ih, List.cons_append]
    · obtain ⟨p, ps, h⟩ := exists_splitAtChar_eq_cons sep a
      rw [h, List.cons_append] at ih
      rw [List.cons_append, splitAtChar_cons hc ih, splitAtChar_cons hc h, List.cons_append]

theorem splitAtChar_of_not_mem {s : List Char} (h : sep ∉ s) : splitAtChar sep s = [s] := by
  induction s with
  | nil => rfl
  | cons c s ih =>
    rw [List.mem_cons, not_or] at h
    exact splitAtChar_cons (Ne.symm h.1) (ih h.2)

theorem splitAtChar_intercalate {ls : List (List Char)} (hne : ls ≠ []) (h : ∀ l ∈ ls, sep ∉ l) :
    splitAtChar sep ([sep].intercalate ls) = ls := by
  induction ls with
  | nil => exact absurd rfl hne
  | cons l ls ih =>
    have hl := h l (List.mem_cons_self ..)
    cases ls with
    | nil => rw [List.intercalate_singleton, splitAtChar_of_not_mem hl]
    | cons m ms =>
      rw [List.intercalate_cons_cons, List.append_assoc, List.singleton_append,
        splitAtChar_append, splitAtChar_of_not_mem hl,
        ih (by simp) fun k hk => h k (List.mem_cons_of_mem _ hk), List.singleton_append]

end Pieces

/-! ### Rows -/

def rows (s : List Char) : List (List Char) := splitAtChar '\n' s

theorem exists_rows_eq_cons (s : List Char) : ∃ r rs, rows s = r :: rs :=
  exists_splitAtChar_eq_cons _ s

theorem rows_nil : rows [] = [[]] := rfl

theorem rows_line_feed (s : List Char) : rows ('\n' :: s) = [] :: rows s := splitAtChar_self s

theorem rows_cons {c : Char} (hc : c ≠ '\n') {s r : List Char} {rs : List (List Char)}
    (h : rows s = r :: rs) : rows (c :: s) = (c :: r) :: rs :=
  splitAtChar_cons hc h

theorem rows_append {s r : List Char} {rs : List (List Char)} (a : List Char) (ha : '\n' ∉ a)
    (h : rows s = r :: rs) : rows (a ++ s) = (a ++ r) :: rs := by
  induction a with
  | nil => exact h
  | cons c a ih =>
    rw [List.mem_cons, not_or] at ha
    exact rows_cons (Ne.symm ha.1) (ih ha.2)

theorem rows_of_not_mem {a : List Char} (ha : '\n' ∉ a) : rows a = [a] := splitAtChar_of_not_mem ha

theorem rows_append_line_feed (a b : List Char) : rows (a ++ '\n' :: b) = rows a ++ rows b :=
  splitAtChar_append a b

theorem prefix_of_rows_eq_cons {s r : List Char} {rs : List (List Char)} (h : rows s = r :: rs) :
    r <+: s := by
  induction s generalizing r rs with
  | nil =>
    rw [rows_nil, List.cons.injEq] at h
    exact h.1 ▸ List.nil_prefix
  | cons c s ih =>
    by_cases hc : c = '\n'
    · subst hc
      rw [rows_line_feed, List.cons.injEq] at h
      rw [← h.1]
      exact List.nil_prefix
    · obtain ⟨q, qs, hq⟩ := exists_rows_eq_cons s
      rw [rows_cons hc hq, List.cons.injEq] at h
      rw [← h.1]
      exact (List.prefix_cons_inj c).mpr (ih hq)

theorem isInfix_of_mem_rows {s r : List Char} (h : r ∈ rows s) : r <:+: s := by
  induction s with
  | nil =>
    rw [rows_nil, List.mem_singleton] at h
    subst h
    exact List.infix_refl _
  | cons c s ih =>
    have hs : s <:+: c :: s := (List.suffix_cons c s).isInfix
    by_cases hc : c = '\n'
    · subst hc
      rw [rows_line_feed, List.mem_cons] at h
      rcases h with rfl | h
      · exact List.nil_infix
      · exact (ih h).trans hs
    · obtain ⟨q, qs, hq⟩ := exists_rows_eq_cons s
      rw [hq] at ih
      rw [rows_cons hc hq, List.mem_cons] at h
      rcases h with rfl | h
      · exact ((List.prefix_cons_inj c).mpr (prefix_of_rows_eq_cons hq)).isInfix
      · exact (ih (List.mem_cons_of_mem _ h)).trans hs

theorem rows_intercalate {ls : List (List Char)} (hne : ls ≠ []) (h : ∀ l ∈ ls, '\n' ∉ l) :
    rows (['\n'].intercalate ls) = ls :=
  splitAtChar_intercalate hne h

theorem rows_unlines {ls : List (List Char)} (h : ∀ l ∈ ls, '\n' ∉ l) :
    rows (unlines ls) = ls ++ [[]] := by
  induction ls with
  | nil => rfl
  | cons l ls ih =>
    obtain ⟨hl, hls⟩ := List.forall_mem_cons.mp h
    rw [unlines_cons, rows_append_line_feed, rows_of_not_mem hl, ih hls]
    rfl

theorem exists_of_rows_eq_append {s : List Char} {xs ys : List (List Char)}
    (h : rows s = xs ++ ys) (hx : xs ≠ []) (hy : ys ≠ []) :
    ∃ a b, s = a ++ '\n' :: b ∧ rows a = xs ∧ rows b = ys := by
  induction s generalizing xs with
  | nil =>
    cases xs with
    | nil => exact absurd rfl hx
    | cons x xs =>
      rw [rows_nil, List.cons_append, List.cons.injEq] at h
      exact absurd (List.append_eq_nil_iff.mp h.2.symm).2 hy
  | cons c s ih =>
    cases xs with
    | nil => exact absurd rfl hx
    | cons x xs =>
      by_cases hc : c = '\n'
      · subst hc
        rw [rows_line_feed, List.cons_append, List.cons.injEq] at h
        cases xs with
        | nil => exact ⟨[], s, rfl, by rw [rows_nil, h.1], h.2⟩
        | cons z zs =>
          obtain ⟨a, b, rfl, ha, hb⟩ := ih h.2 (by simp)
          exact ⟨'\n' :: a, b, rfl, by rw [rows_line_feed, ha, h.1], hb⟩
      · obtain ⟨r, rs, hr⟩ := exists_rows_eq_cons s
        rw [rows_cons hc hr, List.cons_append, List.cons.injEq] at h
        obtain ⟨a, b, rfl, ha, hb⟩ := @ih (r :: xs) (by rw [hr, h.2]; rfl) (by simp)
        exact ⟨c :: a, b, rfl, by rw [rows_cons hc ha, h.1], hb⟩

/-! ### Rows and lines -/

theorem lines_ne_nil {s : List Char} (h : s ≠ []) : lines s ≠ [] := by
  rw [lines.eq_def]
  split
  · exact absurd rfl h
  · simp
  · simp
  · split <;> simp

theorem lines_cons {c : Char} {s : List Char} (hc : c ≠ '\n')
    (hr : ∀ t, c = '\r' → s = '\n' :: t → False) :
    lines (c :: s) =
      match lines s with
      | [] => [[c]]
      | line :: more => (c :: line) :: more := by
  rw [lines.eq_def]
  split
  · next h => exact absurd h (by simp)
  · next h =>
    rw [List.cons.injEq] at h
    exact absurd h.1 hc
  · next h =>
    rw [List.cons.injEq] at h
    exact (hr _ h.1 h.2).elim
  · next h =>
    rw [List.cons.injEq] at h
    obtain ⟨rfl, rfl⟩ := h
    rfl

/-- Nothing stands on the last row, so that what follows starts a row of its own. -/
def EndsRow (s : List Char) : Prop := s = [] ∨ s.getLast? = some '\n'

theorem EndsRow.of_cons {c : Char} {s : List Char} (h : EndsRow (c :: s)) (hc : c ≠ '\n') :
    EndsRow s ∧ s ≠ [] := by
  have hlast : (c :: s).getLast? = some '\n' := h.resolve_left (by simp)
  cases s with
  | nil =>
    rw [List.getLast?_singleton, Option.some.injEq] at hlast
    exact absurd hlast hc
  | cons d s =>
    rw [List.getLast?_cons_cons] at hlast
    exact ⟨.inr hlast, by simp⟩

theorem endsRow_tail {s : List Char} (h : EndsRow ('\n' :: s)) : EndsRow s := by
  have hlast : ('\n' :: s).getLast? = some '\n' := h.resolve_left (by simp)
  cases s with
  | nil => exact .inl rfl
  | cons d s =>
    rw [List.getLast?_cons_cons] at hlast
    exact .inr hlast

theorem endsRow_unlines (ls : List (List Char)) : EndsRow (unlines ls) := by
  rcases List.eq_nil_or_concat ls with rfl | ⟨init, l, rfl⟩
  · exact .inl rfl
  · refine .inr ?_
    rw [List.concat_eq_append, unlines_append, unlines_cons, unlines_nil, ← List.append_assoc]
    exact List.getLast?_concat

theorem lines_append {s : List Char} (h : EndsRow s) (t : List Char) :
    lines (s ++ t) = lines s ++ lines t := by
  induction s using lines.induct with
  | case1 => rfl
  | case2 rest ih =>
    rw [List.cons_append, lines_line_feed, lines_line_feed, ih (endsRow_tail h), List.cons_append]
  | case3 rest ih =>
    have hrest := endsRow_tail (h.of_cons (by decide)).1
    have hl : lines ('\r' :: '\n' :: rest) = [] :: lines rest := by rw [lines]
    have hlt : lines ('\r' :: '\n' :: rest ++ t) = [] :: lines (rest ++ t) := by
      rw [List.cons_append, List.cons_append, lines]
    rw [hl, hlt, ih hrest, List.cons_append]
  | case4 c rest hc hr hl _ => exact absurd hl (lines_ne_nil (h.of_cons hc).2)
  | case5 c rest hc hr line more hl ih =>
    obtain ⟨hrest, hne⟩ := h.of_cons hc
    -- The text goes on behind the character, so that what follows makes no line end of it.
    have hrt : ∀ u, c = '\r' → rest ++ t = '\n' :: u → False := by
      intro u hcr hu
      obtain ⟨d, rest', rfl⟩ := List.exists_cons_of_ne_nil hne
      rw [List.cons_append, List.cons.injEq] at hu
      exact hr rest' hcr (by rw [hu.1])
    rw [List.cons_append, lines_cons hc hrt, lines_cons hc hr, ih hrest, hl, List.cons_append]
    rfl

theorem mem_of_mem_lines {s l : List Char} {c : Char} (h : l ∈ lines s) (hc : c ∈ l) : c ∈ s := by
  induction s using lines.induct generalizing l with
  | case1 => simp [lines] at h
  | case2 rest ih =>
    rw [lines_line_feed, List.mem_cons] at h
    rcases h with rfl | h
    · simp at hc
    · exact List.mem_cons_of_mem _ (ih h hc)
  | case3 rest ih =>
    rw [lines, List.mem_cons] at h
    rcases h with rfl | h
    · simp at hc
    · exact List.mem_cons_of_mem _ (List.mem_cons_of_mem _ (ih h hc))
  | case4 d rest hd hr hl ih =>
    rw [lines_cons hd hr, hl, List.mem_singleton] at h
    subst h
    rw [List.mem_singleton.mp hc]
    exact List.mem_cons_self ..
  | case5 d rest hd hr line more hl ih =>
    rw [lines_cons hd hr, hl] at h
    rw [hl] at ih
    rcases List.mem_cons.mp h with rfl | h
    · rcases List.mem_cons.mp hc with rfl | hc
      · exact List.mem_cons_self ..
      · exact List.mem_cons_of_mem _ (ih (List.mem_cons_self ..) hc)
    · exact List.mem_cons_of_mem _ (ih (List.mem_cons_of_mem _ h) hc)

theorem not_mem_of_mem_lines {s l : List Char} (h : l ∈ lines s) : '\n' ∉ l := by
  induction s using lines.induct generalizing l with
  | case1 => simp [lines] at h
  | case2 rest ih =>
    rw [lines_line_feed, List.mem_cons] at h
    rcases h with rfl | h
    · simp
    · exact ih h
  | case3 rest ih =>
    rw [lines, List.mem_cons] at h
    rcases h with rfl | h
    · simp
    · exact ih h
  | case4 d rest hd hr hl ih =>
    rw [lines_cons hd hr, hl, List.mem_singleton] at h
    rw [h, List.mem_singleton]
    exact Ne.symm hd
  | case5 d rest hd hr line more hl ih =>
    rw [lines_cons hd hr, hl, List.mem_cons] at h
    rw [hl] at ih
    rcases h with rfl | h
    · rw [List.mem_cons, not_or]
      exact ⟨Ne.symm hd, ih (List.mem_cons_self ..)⟩
    · exact ih (List.mem_cons_of_mem _ h)

/-- A row and a line differ in a carriage return at the end of the row at most, which is a
blank, so that they agree once their ends are trimmed. -/
theorem map_trimEnd_rows (s : List Char) :
    (rows s).map trimEnd = (lines s).map trimEnd ∨
      (rows s).map trimEnd = (lines s).map trimEnd ++ [[]] := by
  induction s using lines.induct with
  | case1 => exact Or.inr rfl
  | case2 rest ih =>
    rw [rows_line_feed, lines_line_feed, List.map_cons, List.map_cons]
    rcases ih with ih | ih
    · exact Or.inl (by rw [ih])
    · exact Or.inr (by rw [ih, List.cons_append])
  | case3 rest ih =>
    have hrow : rows ('\r' :: '\n' :: rest) = ['\r'] :: rows rest :=
      rows_cons (by decide) (rows_line_feed rest)
    have hline : lines ('\r' :: '\n' :: rest) = [] :: lines rest := by rw [lines]
    have htrim : trimEnd ['\r'] = trimEnd [] := by decide
    rw [hrow, hline, List.map_cons, List.map_cons, htrim]
    rcases ih with ih | ih
    · exact Or.inl (by rw [ih])
    · exact Or.inr (by rw [ih, List.cons_append])
  | case4 c rest hc hr hl _ =>
    have hrest : rest = [] := by
      cases rest with
      | nil => rfl
      | cons d rest => exact absurd hl (lines_ne_nil (by simp))
    subst hrest
    rw [rows_cons hc rows_nil, lines_cons hc hr, hl]
    exact Or.inl rfl
  | case5 c rest hc hr line more hl ih =>
    obtain ⟨r, rs, hrow⟩ := exists_rows_eq_cons rest
    have hline : lines (c :: rest) = (c :: line) :: more := by rw [lines_cons hc hr, hl]
    rw [hrow, hl, List.map_cons, List.map_cons, List.cons_append, List.cons.injEq,
      List.cons.injEq] at ih
    rw [rows_cons hc hrow, hline, List.map_cons, List.map_cons]
    rcases ih with ⟨hend, ih⟩ | ⟨hend, ih⟩
    · exact Or.inl (by rw [trimEnd_cons_congr c hend, ih])
    · exact Or.inr (by rw [trimEnd_cons_congr c hend, ih, List.cons_append])

/-- Trimmed, the rows of a text are its lines, with an empty one behind them if there is
nothing behind the last line feed. -/
theorem map_trim_rows (s : List Char) :
    (rows s).map trim = (lines s).map trim ∨ (rows s).map trim = (lines s).map trim ++ [[]] := by
  have hmap : ∀ ls : List (List Char), ls.map trim = (ls.map trimEnd).map trim := by
    intro ls
    rw [List.map_map]
    exact List.map_congr_left fun l _ => (trim_trimEnd l).symm
  rcases map_trimEnd_rows s with h | h
  · exact Or.inl (by rw [hmap (rows s), hmap (lines s), h])
  · exact Or.inr (by rw [hmap (rows s), hmap (lines s), h, List.map_append]; rfl)

end IslBindings.Text
