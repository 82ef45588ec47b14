import IslBindings.Text.Alphanumeric

/-!
# Laws of trimming

Blanks at either end of a text do not count, and what starts and ends with another
character stays whole.
-/

namespace IslBindings.Text

def AllBlank (g : List Char) : Prop := ∀ c ∈ g, isBlank c = true

/-- Not empty, and no blank at either end. -/
def IsSolid (s : List Char) : Prop :=
  s ≠ [] ∧ s.head?.all (!isBlank ·) = true ∧ s.getLast?.all (!isBlank ·) = true

instance (s : List Char) : Decidable (IsSolid s) := inferInstanceAs (Decidable (_ ∧ _ ∧ _))

/-! ### Blanks in front -/

theorem allBlank_nil : AllBlank [] := by
  intro c hc
  simp at hc

theorem allBlank_space : AllBlank [' '] := by
  intro c hc
  rw [List.mem_singleton.mp hc]
  decide

theorem AllBlank.of_cons {c : Char} {g : List Char} (h : AllBlank (c :: g)) :
    isBlank c = true ∧ AllBlank g :=
  ⟨h c (List.mem_cons_self ..), fun d hd => h d (List.mem_cons_of_mem _ hd)⟩

theorem AllBlank.append {g k : List Char} (hg : AllBlank g) (hk : AllBlank k) :
    AllBlank (g ++ k) := by
  intro c hc
  rcases List.mem_append.mp hc with h | h
  · exact hg c h
  · exact hk c h

theorem AllBlank.of_append {g k : List Char} (h : AllBlank (g ++ k)) : AllBlank g ∧ AllBlank k :=
  ⟨fun c hc => h c (List.mem_append_left _ hc), fun c hc => h c (List.mem_append_right _ hc)⟩

theorem trimStart_append_of_blank {g : List Char} (s : List Char) (h : AllBlank g) :
    trimStart (g ++ s) = trimStart s :=
  List.dropWhile_append_of_pos h

theorem trimStart_of_blank {g : List Char} (h : AllBlank g) : trimStart g = [] := by
  have hg := trimStart_append_of_blank [] h
  rwa [List.append_nil] at hg

theorem trim_append_left_of_blank {g : List Char} (s : List Char) (h : AllBlank g) :
    trim (g ++ s) = trim s := by
  simp only [trim, trimStart_append_of_blank s h]

/-! ### Blanks behind -/

theorem trimEnd_append_of_blank (s : List Char) {g : List Char} (h : AllBlank g) :
    trimEnd (s ++ g) = trimEnd s := by
  have hr : ∀ c ∈ g.reverse, isBlank c = true := by
    intro c hc
    exact h c (List.mem_reverse.mp hc)
  simp only [trimEnd, List.reverse_append]
  rw [List.dropWhile_append_of_pos hr]

theorem trimStart_append_of_ne_nil {s : List Char} (g : List Char) (h : trimStart s ≠ []) :
    trimStart (s ++ g) = trimStart s ++ g := by
  have hs : (s.dropWhile isBlank).isEmpty = false := by
    rw [List.isEmpty_eq_false_iff]
    exact h
  simp only [trimStart, List.dropWhile_append, hs, Bool.false_eq_true, if_false]

theorem trimEnd_append_of_ne_nil (a : List Char) {b : List Char} (h : trimEnd b ≠ []) :
    trimEnd (a ++ b) = a ++ trimEnd b := by
  have hb : (b.reverse.dropWhile isBlank).isEmpty = false := by
    rw [List.isEmpty_eq_false_iff]
    intro he
    exact h (by rw [trimEnd, he]; rfl)
  simp only [trimEnd, List.reverse_append, List.dropWhile_append, hb, Bool.false_eq_true, if_false,
    List.reverse_reverse]

theorem allBlank_of_trimStart_eq_nil {s : List Char} (h : trimStart s = []) : AllBlank s := by
  intro c hc
  induction s with
  | nil => simp at hc
  | cons d s ih =>
    by_cases hd : isBlank d = true
    · rw [trimStart_cons_of_blank s hd] at h
      rcases List.mem_cons.mp hc with rfl | hc
      · exact hd
      · exact ih h hc
    · rw [trimStart_cons_of_not_blank s (by simpa using hd)] at h
      simp at h

theorem allBlank_of_trimEnd_eq_nil {s : List Char} (h : trimEnd s = []) : AllBlank s := by
  have hr : trimStart s.reverse = [] := List.reverse_eq_nil_iff.mp h
  intro c hc
  exact allBlank_of_trimStart_eq_nil hr c (List.mem_reverse.mpr hc)

theorem trim_append_right_of_blank (s : List Char) {g : List Char} (h : AllBlank g) :
    trim (s ++ g) = trim s := by
  by_cases hs : trimStart s = []
  · have hb : AllBlank (s ++ g) := (allBlank_of_trimStart_eq_nil hs).append h
    simp only [trim, trimStart_of_blank hb, hs]
  · simp only [trim, trimStart_append_of_ne_nil g hs, trimEnd_append_of_blank _ h]

theorem trimEnd_cons_congr (c : Char) {s t : List Char} (h : trimEnd s = trimEnd t) :
    trimEnd (c :: s) = trimEnd (c :: t) := by
  by_cases ht : trimEnd t = []
  · have hs := h.trans ht
    show trimEnd ([c] ++ s) = trimEnd ([c] ++ t)
    rw [trimEnd_append_of_blank [c] (allBlank_of_trimEnd_eq_nil hs),
      trimEnd_append_of_blank [c] (allBlank_of_trimEnd_eq_nil ht)]
  · have hs : trimEnd s ≠ [] := by rwa [h]
    show trimEnd ([c] ++ s) = trimEnd ([c] ++ t)
    rw [trimEnd_append_of_ne_nil [c] hs, trimEnd_append_of_ne_nil [c] ht, h]

theorem trim_of_blank {g : List Char} (h : AllBlank g) : trim g = [] := by
  simp only [trim, trimStart_of_blank h]
  rfl

/-! ### Texts that no blank surrounds -/

theorem isSolid_singleton {c : Char} (h : isBlank c = false) : IsSolid [c] := by
  simp [IsSolid, h]

theorem IsSolid.ne_nil {s : List Char} (h : IsSolid s) : s ≠ [] := h.1

theorem IsSolid.trimStart {s : List Char} (h : IsSolid s) (t : List Char) :
    trimStart (s ++ t) = s ++ t := by
  obtain ⟨hne, hhead, -⟩ := h
  cases s with
  | nil => exact absurd rfl hne
  | cons c s =>
    have hc : isBlank c = false := by simpa using hhead
    exact trimStart_cons_of_not_blank (s ++ t) hc

theorem trimEnd_eq_self {s : List Char} (h : s.getLast?.all (!isBlank ·) = true) :
    trimEnd s = s := by
  by_cases hne : s = []
  · rw [hne]
    rfl
  · have hs : s = s.dropLast ++ [s.getLast hne] := (List.dropLast_concat_getLast hne).symm
    have hc : isBlank (s.getLast hne) = false := by
      rw [List.getLast?_eq_some_getLast hne] at h
      simpa using h
    rw [hs]
    exact trimEnd_concat_of_not_blank _ hc

theorem IsSolid.trimEnd {s : List Char} (h : IsSolid s) : trimEnd s = s := trimEnd_eq_self h.2.2

theorem IsSolid.trim {s : List Char} (h : IsSolid s) : trim s = s := by
  have hs := h.trimStart []
  rw [List.append_nil] at hs
  rw [Text.trim, hs, h.trimEnd]

theorem IsSolid.append {s t : List Char} (hs : IsSolid s) (ht : IsSolid t) : IsSolid (s ++ t) := by
  refine ⟨List.append_ne_nil_of_left_ne_nil hs.ne_nil t, ?_, ?_⟩
  · rw [List.head?_append, Option.or_of_isSome (List.isSome_head?.mpr hs.ne_nil)]
    exact hs.2.1
  · rw [List.getLast?_append, Option.or_of_isSome (List.getLast?_isSome.mpr ht.ne_nil)]
    exact ht.2.2

theorem IsSolid.trim_append {s t : List Char} (h : IsSolid s) (ht : Text.trim t ≠ []) (g : List Char)
    (hsolid : Text.trimStart t = t) : Text.trim (s ++ g ++ t) = s ++ g ++ Text.trim t := by
  have hne : Text.trimEnd t ≠ [] := by rwa [Text.trim, hsolid] at ht
  rw [Text.trim, List.append_assoc, h.trimStart, ← List.append_assoc,
    trimEnd_append_of_ne_nil _ hne, Text.trim, hsolid]

/-! ### What trimming leaves -/

theorem trim_isInfix (s : List Char) : trim s <:+: s :=
  (trimEnd_isPrefix _).isInfix.trans (trimStart_isSuffix s).isInfix

theorem exists_append_trimStart (s : List Char) : ∃ g, AllBlank g ∧ s = g ++ trimStart s :=
  ⟨s.takeWhile isBlank, List.all_eq_true.mp List.all_takeWhile,
    List.takeWhile_append_dropWhile.symm⟩

theorem exists_trimEnd_append (s : List Char) : ∃ k, AllBlank k ∧ s = trimEnd s ++ k := by
  obtain ⟨g, hg, hs⟩ := exists_append_trimStart s.reverse
  refine ⟨g.reverse, fun c hc => hg c (List.mem_reverse.mp hc), ?_⟩
  have h := congrArg List.reverse hs
  rwa [List.reverse_append, List.reverse_reverse] at h

theorem exists_trim_append (s : List Char) :
    ∃ g k, AllBlank g ∧ AllBlank k ∧ s = g ++ trim s ++ k := by
  obtain ⟨g, hg, hs⟩ := exists_append_trimStart s
  obtain ⟨k, hk, hstart⟩ := exists_trimEnd_append (trimStart s)
  exact ⟨g, k, hg, hk, by rw [trim, List.append_assoc, ← hstart, ← hs]⟩

theorem trim_trimEnd (s : List Char) : trim (trimEnd s) = trim s := by
  obtain ⟨k, hk, hs⟩ := exists_trimEnd_append s
  have h := trim_append_right_of_blank (trimEnd s) hk
  rw [← hs] at h
  exact h.symm

theorem isBlank_of_head?_trimStart {s : List Char} {c : Char} (h : (trimStart s).head? = some c) :
    isBlank c = false := by
  have hs := List.head?_dropWhile_not isBlank s
  rw [show s.dropWhile isBlank = trimStart s from rfl, h] at hs
  exact hs

theorem head?_trim (s : List Char) : (trim s).head? = (trimStart s).head? := by
  obtain ⟨k, hk, hs⟩ := exists_trimEnd_append (trimStart s)
  have hs : trimStart s = trim s ++ k := hs
  cases ht : trim s with
  | cons c t => rw [hs, ht, List.cons_append, List.head?_cons, List.head?_cons]
  | nil =>
    rw [ht, List.nil_append] at hs
    cases k with
    | nil => rw [hs]
    | cons d k =>
      have hd := isBlank_of_head?_trimStart (s := s) (by rw [hs]; rfl)
      rw [hk.of_cons.1] at hd
      exact absurd hd (by simp)

theorem isSolid_trim {s : List Char} (h : trim s ≠ []) : IsSolid (trim s) := by
  refine ⟨h, ?_, ?_⟩
  · rw [head?_trim]
    cases hs : (trimStart s).head? with
    | none => rfl
    | some c => simpa using isBlank_of_head?_trimStart hs
  · have hend := List.head?_dropWhile_not isBlank (trimStart s).reverse
    rw [trim, trimEnd, List.getLast?_reverse]
    cases hs : ((trimStart s).reverse.dropWhile isBlank).head? with
    | none => rfl
    | some c =>
      rw [hs] at hend
      simpa using hend

theorem trim_trim (s : List Char) : trim (trim s) = trim s := by
  by_cases h : trim s = []
  · rw [h, trim_nil]
  · exact (isSolid_trim h).trim

theorem trimStart_trim (s : List Char) : trimStart (trim s) = trim s := by
  by_cases h : trim s = []
  · rw [h, trimStart_nil]
  · have hs := (isSolid_trim h).trimStart []
    rwa [List.append_nil] at hs

theorem count_of_allBlank {c : Char} (hc : isBlank c = false) {g : List Char} (h : AllBlank g) :
    g.count c = 0 := by
  refine List.count_eq_zero.mpr fun hm => ?_
  rw [h c hm] at hc
  simp at hc

theorem count_trim {c : Char} (hc : isBlank c = false) (s : List Char) :
    (trim s).count c = s.count c := by
  obtain ⟨g, k, hg, hk, hs⟩ := exists_trim_append s
  have hcount := congrArg (List.count c) hs
  rw [List.count_append, List.count_append, count_of_allBlank hc hg, count_of_allBlank hc hk] at hcount
  omega

theorem IsSolid.infix_trim {t s : List Char} (ht : IsSolid t) (h : t <:+: s) : t <:+: Text.trim s := by
  obtain ⟨a, b, rfl⟩ := h
  have hend : ∀ p, p ++ t <:+: Text.trimEnd (p ++ t ++ b) := by
    intro p
    by_cases hb : Text.trimEnd b = []
    · have hpt : Text.trimEnd (p ++ t ++ b) = p ++ t := by
        rw [trimEnd_append_of_blank _ (allBlank_of_trimEnd_eq_nil hb),
          trimEnd_append_of_ne_nil p (by rw [ht.trimEnd]; exact ht.ne_nil), ht.trimEnd]
      exact hpt.symm ▸ List.infix_refl _
    · rw [trimEnd_append_of_ne_nil _ hb]
      exact List.infix_append_left
  by_cases ha : Text.trimStart a = []
  · rw [Text.trim, List.append_assoc,
      trimStart_append_of_blank _ (allBlank_of_trimStart_eq_nil ha), ht.trimStart]
    exact hend []
  · rw [Text.trim, List.append_assoc, trimStart_append_of_ne_nil _ ha, ← List.append_assoc]
    exact List.infix_append_right.trans (hend _)

end IslBindings.Text
