import IslBindings.Proofs.Header.Noise

/-!
# Prototypes as they are found

However the tokens of a prototype are laid out over rows, the search finds it as a whole,
with its line feeds turned to single spaces. The tokens stay what they were.
-/

namespace IslBindings.Header

open Text Token

/-! ### Rows put together -/

def gathered (s : List Char) : List Char := collected ((rows s).map trim)

/-- The blanks between two tokens of a found prototype: a space for each line feed, and the
blanks themselves if there is none. -/
def spread (g : List Char) : List Char :=
  if '\n' ∈ g then List.replicate (g.count '\n') ' ' else g

def joined (p : Layout) : Layout := p.map fun t => (t.1, spread t.2)

theorem gathered_append_line_feed (a b : List Char) :
    gathered (a ++ '\n' :: b) = gathered a ++ gathered b := by
  rw [gathered, rows_append_line_feed, List.map_append, collected_append]
  rfl

theorem gathered_of_not_mem {s : List Char} (h : '\n' ∉ s) : gathered s = trim s ++ [' '] := by
  rw [gathered, rows_of_not_mem h, List.map_singleton, collected_cons, collected_nil,
    List.append_nil]

theorem gathered_blank_append {g : List Char} (s : List Char) (h : AllBlank g) :
    gathered (g ++ s) = List.replicate (g.count '\n') ' ' ++ gathered s := by
  induction g with
  | nil => rfl
  | cons c g ih =>
    obtain ⟨hc, hg⟩ := h.of_cons
    have ih := ih hg
    by_cases hn : c = '\n'
    · subst hn
      have hcut := gathered_append_line_feed [] (g ++ s)
      have hnil : gathered [] = [' '] := rfl
      rw [List.nil_append, ih, hnil] at hcut
      rw [List.cons_append, hcut, List.count_cons_self, List.replicate_succ]
      rfl
    · obtain ⟨r, rs, hr⟩ := exists_rows_eq_cons (g ++ s)
      have htrim : trim (c :: r) = trim r :=
        trim_append_left_of_blank (g := [c]) r fun d hd => by rw [List.mem_singleton.mp hd]; exact hc
      rw [List.count_cons_of_ne hn, ← ih, List.cons_append, gathered, rows_cons hn hr, List.map_cons,
        htrim, gathered, hr, List.map_cons]

theorem count_gathered {c : Char} (hc : isBlank c = false) (s : List Char) :
    (gathered s).count c = s.count c := by
  have hspace : [' '].count c = 0 := by
    rw [List.count_eq_zero, List.mem_singleton]
    rintro rfl
    exact absurd hc (by decide)
  induction s with
  | nil => exact hspace
  | cons d s ih =>
    by_cases hn : d = '\n'
    · subst hn
      have hne : '\n' ≠ c := by
        rintro rfl
        exact absurd hc (by decide)
      have hcut := gathered_append_line_feed [] s
      have hnil : gathered [] = [' '] := rfl
      rw [List.nil_append] at hcut
      rw [hcut, hnil, List.count_append, hspace, ih, List.count_cons_of_ne hne, Nat.zero_add]
    · obtain ⟨r, rs, hr⟩ := exists_rows_eq_cons s
      rw [gathered, hr, List.map_cons, collected_cons, List.count_append, List.count_append,
        count_trim hc] at ih
      rw [gathered, rows_cons hn hr, List.map_cons, collected_cons, List.count_append,
        List.count_append, count_trim hc, hspace]
      rw [hspace] at ih
      have hr : ([d] ++ r).count c = [d].count c + r.count c := List.count_append
      have hs : ([d] ++ s).count c = [d].count c + s.count c := List.count_append
      rw [List.singleton_append] at hr hs
      omega

theorem gathered_append {t g s : List Char} {c : Char} (ht : IsSolid t) (hn : '\n' ∉ t)
    (hg : AllBlank g) (hc : isBlank c = false) (hs : s.head? = some c) :
    gathered (t ++ (g ++ s)) = t ++ (spread g ++ gathered s) := by
  -- A row ends behind the token and is trimmed there, or the row goes on with the next one.
  by_cases hm : '\n' ∈ g
  · obtain ⟨g₁, g₂, rfl, hfirst⟩ := List.eq_append_cons_of_mem hm
    obtain ⟨hg₁, hg₂⟩ := hg.of_append
    have hrow : '\n' ∉ t ++ g₁ := by
      rw [List.mem_append, not_or]
      exact ⟨hn, hfirst⟩
    have hcount : (g₁ ++ '\n' :: g₂).count '\n' = g₂.count '\n' + 1 := by
      rw [List.count_append, List.count_eq_zero.mpr hfirst, List.count_cons_self, Nat.zero_add]
    have hcut : t ++ (g₁ ++ '\n' :: g₂ ++ s) = (t ++ g₁) ++ '\n' :: (g₂ ++ s) := by simp
    rw [spread, if_pos hm, hcount, hcut, gathered_append_line_feed, gathered_of_not_mem hrow,
      trim_append_right_of_blank t hg₁, ht.trim, gathered_blank_append s hg₂.of_cons.2,
      List.replicate_succ]
    simp
  · cases s with
    | nil => simp at hs
    | cons d s =>
      rw [List.head?_cons, Option.some.injEq] at hs
      subst hs
      have hd : d ≠ '\n' := by
        rintro rfl
        exact absurd hc (by decide)
      obtain ⟨r, rs, hr⟩ := exists_rows_eq_cons s
      have hstart : trimStart (d :: r) = d :: r := trimStart_cons_of_not_blank r hc
      have hne : trim (d :: r) ≠ [] := by
        intro he
        have hhead := head?_trim (d :: r)
        rw [he, hstart] at hhead
        simp at hhead
      have hrow : '\n' ∉ t ++ g := by
        rw [List.mem_append, not_or]
        exact ⟨hn, hm⟩
      have hrows := rows_append (t ++ g) hrow (rows_cons hd hr)
      rw [spread, if_neg hm, ← List.append_assoc, gathered, hrows, List.map_cons, collected_cons,
        ht.trim_append hne g hstart, gathered, rows_cons hd hr, List.map_cons, collected_cons]
      simp

theorem not_mem_text_of_isPlain {t : Token} (h : IsPlain t) : '\n' ∉ t.text.toList := by
  intro hm
  exact absurd (isBlank_eq_false_of_mem_text h hm) (by decide)

theorem head?_text_cons {t : Token} {g : List Char} {p : Layout} (h : IsPlain t) :
    ∃ c, (Layout.text ((t, g) :: p)).head? = some c ∧ isBlank c = false := by
  cases ht : t.text.toList with
  | nil => exact absurd ht (text_ne_nil h)
  | cons c s =>
    refine ⟨c, ?_, ?_⟩
    · rw [Layout.text_cons, ht]
      rfl
    · refine isBlank_eq_false_of_mem_text h (t := t) ?_
      rw [ht]
      exact List.mem_cons_self ..

/-! ### Joined layouts -/

theorem allBlank_spread {g : List Char} (h : AllBlank g) : AllBlank (spread g) := by
  rw [spread]
  split
  · intro c hc
    rw [(List.mem_replicate.mp hc).2]
    decide
  · exact h

theorem spread_eq_nil {g : List Char} (h : spread g = []) : g = [] := by
  rw [spread] at h
  split at h
  · next hm =>
    have hpos := List.count_pos_iff.mpr hm
    have hzero := congrArg List.length h
    rw [List.length_replicate, List.length_nil] at hzero
    omega
  · exact h

theorem tokens_joined (p : Layout) : (joined p).tokens = p.tokens := by
  rw [joined, Layout.tokens, Layout.tokens, List.map_map]
  rfl

theorem isLaidOut_joined {p : Layout} (h : p.IsLaidOut) : (joined p).IsLaidOut := by
  induction p with
  | nil => exact trivial
  | cons tg p ih =>
    obtain ⟨t, g⟩ := tg
    obtain ⟨ht, hg, hsep, hp⟩ := h
    refine ⟨ht, allBlank_spread hg, fun hword hnil => ?_, ih hp⟩
    show ∀ w, (joined p).tokens.head? ≠ some (.word w)
    rw [tokens_joined]
    exact hsep hword (spread_eq_nil hnil)

theorem gathered_text {p : Layout} {t : Token} (h : (p ++ [(t, [])]).IsLaidOut) :
    gathered (Layout.text (p ++ [(t, [])])) = (joined (p ++ [(t, [])])).text ++ [' '] := by
  induction p with
  | nil =>
    have ht := (h.isPlain (List.mem_singleton_self _)).1
    have htext : Layout.text [(t, [])] = t.text.toList := by simp [Layout.text]
    have hjoined : (joined [(t, [])]).text = t.text.toList := by simp [joined, Layout.text, spread]
    rw [List.nil_append, htext, hjoined, gathered_of_not_mem (not_mem_text_of_isPlain ht),
      (isSolid_text ht).trim]
  | cons ug p ih =>
    obtain ⟨u, g⟩ := ug
    obtain ⟨hu, hg, -, hp⟩ := h
    have hhead : ∃ c, (Layout.text (p ++ [(t, [])])).head? = some c ∧ isBlank c = false := by
      cases p with
      | nil => exact head?_text_cons hp.1
      | cons vk p => exact head?_text_cons hp.1
    obtain ⟨c, hc, hblank⟩ := hhead
    have hjoined : joined ((u, g) :: p ++ [(t, [])]) = (u, spread g) :: joined (p ++ [(t, [])]) := rfl
    rw [hjoined, Layout.text_cons, List.cons_append, Layout.text_cons,
      gathered_append (isSolid_text hu) (not_mem_text_of_isPlain hu) hg hblank hc, ih hp]
    simp

end IslBindings.Header
