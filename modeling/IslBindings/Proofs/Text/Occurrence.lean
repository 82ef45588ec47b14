import Mathlib.Data.List.Infix

/-!
# Texts that occur in a text

A text that is put together of parts may hold a mark that is in none of them. It does not if no
part holds or ends in what the mark starts with.
-/

namespace IslBindings.Text

def OccursIn (s t : String) : Prop := ∃ before after, t = before ++ s ++ after

namespace OccursIn

theorem trans {s t u : String} (hst : OccursIn s t) (htu : OccursIn t u) : OccursIn s u := by
  obtain ⟨a, b, rfl⟩ := hst
  obtain ⟨c, d, rfl⟩ := htu
  exact ⟨c ++ a, b ++ d, by simp only [String.append_assoc]⟩

theorem append_left {s t : String} (h : OccursIn s t) (u : String) : OccursIn s (u ++ t) := by
  obtain ⟨a, b, rfl⟩ := h
  exact ⟨u ++ a, b, by simp only [String.append_assoc]⟩

theorem of_mem {s : String} {l : List String} (h : s ∈ l) : OccursIn s (String.join l) := by
  obtain ⟨before, after, rfl⟩ := List.append_of_mem h
  refine ⟨String.join before, String.join after, ?_⟩
  rw [String.join_append, String.join_cons, String.append_assoc]

end OccursIn

/-! ### Texts that start no mark -/

/-- The text holds none of the starts, and ends in no part of one. -/
@[irreducible]
def Avoids (starts : List (List Char)) (s : String) : Prop :=
  ∀ rest ∈ s.toList.tails, rest ≠ [] → ∀ start ∈ starts, ¬start <+: rest ∧ ¬rest <+: start

variable {starts : List (List Char)} {s t : String}

theorem Avoids.not_occursIn (h : Avoids starts s) {start : List Char} (hstart : start ∈ starts)
    {mark : String} (hmark : start <+: mark.toList) (hne : mark ≠ "") : ¬OccursIn mark s := by
  rintro ⟨before, after, rfl⟩
  have hchars : mark.toList ≠ [] := fun hnil => hne (String.toList_inj.mp hnil)
  have hrest : mark.toList ++ after.toList <:+ (before ++ mark ++ after).toList := by
    rw [String.toList_append, String.toList_append, List.append_assoc]
    exact List.suffix_append ..
  rw [Avoids] at h
  exact (h _ ((List.mem_tails _ _).mpr hrest) (List.append_ne_nil_of_left_ne_nil hchars _) start
    hstart).1 (hmark.trans (List.prefix_append ..))

theorem Avoids.mono {fewer : List (List Char)} (h : Avoids starts s) (hsub : fewer ⊆ starts) :
    Avoids fewer s := by
  rw [Avoids] at h ⊢
  exact fun rest hrest hne start hstart => h rest hrest hne start (hsub hstart)

/-- Behind a text that starts no mark the rest decides. -/
theorem avoids_append_iff (hs : Avoids starts s) : Avoids starts (s ++ t) ↔ Avoids starts t := by
  rw [Avoids] at hs
  rw [Avoids, Avoids, String.toList_append]
  generalize s.toList = l at hs ⊢
  induction l with
  | nil => rfl
  | cons c l ih =>
    rw [List.tails, List.forall_mem_cons] at hs
    rw [List.cons_append, List.tails, List.forall_mem_cons, ih hs.2, and_iff_right_iff_imp]
    -- What agrees with the longer rest as far as it goes agrees with the shorter one.
    intro _ _ start hstart
    obtain ⟨hholds, hends⟩ := hs.1 (List.cons_ne_nil c l) start hstart
    rw [← List.cons_append]
    refine ⟨fun h => ?_, fun h => hends ((List.prefix_append ..).trans h)⟩
    rcases List.prefix_or_prefix_of_prefix h (List.prefix_append (c :: l) t.toList) with h | h
    · exact hholds h
    · exact hends h

theorem Avoids.append (hs : Avoids starts s) (ht : Avoids starts t) : Avoids starts (s ++ t) :=
  (avoids_append_iff hs).mpr ht

theorem avoids_intercalate {l : List String} (hs : Avoids starts s)
    (hl : ∀ t ∈ l, Avoids starts t) : Avoids starts (s.intercalate l) := by
  induction l with
  | nil =>
    rw [Avoids]
    intro rest hrest hne
    rw [String.intercalate_nil, String.toList_empty, List.tails, List.mem_singleton] at hrest
    exact absurd hrest hne
  | cons t l ih =>
    obtain ⟨ht, hl⟩ := List.forall_mem_cons.mp hl
    cases l with
    | nil => rwa [String.intercalate_singleton]
    | cons u l =>
      rw [String.intercalate_cons_cons]
      exact (ht.append hs).append (ih hl)

/-- A text without the first characters of marks starts none. -/
theorem avoids_of_not_mem (h : ∀ start ∈ starts, ∃ c, start.head? = some c ∧ c ∉ s.toList) :
    Avoids starts s := by
  rw [Avoids]
  intro rest hrest hne start hstart
  obtain ⟨c, hc, hnot⟩ := h start hstart
  obtain ⟨behind, rfl⟩ := List.head?_eq_some_iff.mp hc
  cases rest with
  | nil => exact absurd rfl hne
  | cons d rest =>
    have hmem : d ∈ s.toList := ((List.mem_tails _ _).mp hrest).mem (List.mem_cons_self ..)
    rw [List.cons_prefix_cons, List.cons_prefix_cons]
    exact ⟨fun hholds => hnot (hholds.1 ▸ hmem), fun hends => hnot (hends.1 ▸ hmem)⟩

/-- The test of a text that is given by its characters. -/
def avoids (starts : List (List Char)) : List Char → Bool
  | [] => true
  | c :: l =>
    starts.all (fun start => !start.isPrefixOf (c :: l) && !(c :: l).isPrefixOf start) &&
      avoids starts l

theorem avoids_ofList {l : List Char} (h : avoids starts l = true) :
    Avoids starts (String.ofList l) := by
  rw [Avoids, String.toList_ofList]
  induction l with
  | nil =>
    intro rest hrest hne
    exact absurd (List.mem_singleton.mp hrest) hne
  | cons c l ih =>
    rw [avoids, Bool.and_eq_true, List.all_eq_true] at h
    rw [List.tails, List.forall_mem_cons]
    refine ⟨fun _ start hstart => ?_, ih h.2⟩
    simpa [← List.isPrefixOf_iff_prefix] using h.1 start hstart

end IslBindings.Text
