/-!
# Lists

Runs through lists that may stop with an error, which of them end well, where the beginning of
a list ends, and lists whose members have keys.
-/

namespace IslBindings

/-! ### Runs through lists -/

theorem eq_ok_of_toOption {ε α : Type} {x : Except ε α} {a : α} (h : x.toOption = some a) :
    x = .ok a := by
  cases x with
  | error e => cases h
  | ok b =>
    cases h
    rfl

theorem eq_of_map_toOption {ε α β : Type} (f : α → β) {x : Except ε α} {a : α} {b : β}
    (hx : x = .ok a) (h : x.toOption.map f = some b) : f a = b := by
  rw [hx] at h
  exact Option.some.inj h

theorem exists_of_map_ok {ε α β : Type} {f : α → β} {x : Except ε α} {b : β} (h : f <$> x = .ok b) :
    ∃ a, x = .ok a ∧ b = f a := by
  cases x with
  | error e => cases h
  | ok a =>
    cases h
    exact ⟨a, rfl, rfl⟩

theorem exists_of_bind_ok {ε α β : Type} {x : Except ε α} {f : α → Except ε β} {b : β}
    (h : x >>= f = .ok b) : ∃ a, x = .ok a ∧ f a = .ok b := by
  cases x with
  | error e => cases h
  | ok a => exact ⟨a, rfl, h⟩

theorem exists_of_mapM_cons {ε α β : Type} {f : α → Except ε β} {a : α} {l : List α} {bs : List β}
    (h : (a :: l).mapM f = .ok bs) : ∃ b cs, f a = .ok b ∧ l.mapM f = .ok cs ∧ bs = b :: cs := by
  rw [List.mapM_cons] at h
  obtain ⟨b, hb, h⟩ := exists_of_bind_ok h
  obtain ⟨cs, hcs, h⟩ := exists_of_bind_ok h
  cases h
  exact ⟨b, cs, hb, hcs, rfl⟩

theorem map_of_mapM {ε α β γ : Type} {f : α → Except ε β} {g : α → γ} {k : β → γ} {l : List α}
    {bs : List β} (hf : ∀ a ∈ l, ∀ b, f a = .ok b → k b = g a) (h : l.mapM f = .ok bs) :
    bs.map k = l.map g := by
  induction l generalizing bs with
  | nil =>
    cases h
    rfl
  | cons a l ih =>
    obtain ⟨b, cs, hb, hcs, rfl⟩ := exists_of_mapM_cons h
    rw [List.map_cons, List.map_cons, hf a (List.mem_cons_self ..) b hb,
      ih (fun c hc => hf c (List.mem_cons_of_mem _ hc)) hcs]

theorem exists_of_mem_mapM {ε α β : Type} {f : α → Except ε β} {l : List α} {bs : List β}
    (h : l.mapM f = .ok bs) {b : β} (hb : b ∈ bs) : ∃ a ∈ l, f a = .ok b := by
  induction l generalizing bs with
  | nil =>
    cases h
    simp at hb
  | cons a l ih =>
    obtain ⟨c, cs, hc, hcs, rfl⟩ := exists_of_mapM_cons h
    rcases List.mem_cons.mp hb with rfl | hb
    · exact ⟨a, List.mem_cons_self .., hc⟩
    · obtain ⟨d, hd, hf⟩ := ih hcs hb
      exact ⟨d, List.mem_cons_of_mem _ hd, hf⟩

theorem exists_mem_of_mapM {ε α β : Type} {f : α → Except ε β} {l : List α} {bs : List β}
    (h : l.mapM f = .ok bs) {a : α} (ha : a ∈ l) : ∃ b ∈ bs, f a = .ok b := by
  induction l generalizing bs with
  | nil => simp at ha
  | cons c l ih =>
    obtain ⟨b, cs, hb, hcs, rfl⟩ := exists_of_mapM_cons h
    rcases List.mem_cons.mp ha with rfl | ha
    · exact ⟨b, List.mem_cons_self .., hb⟩
    · obtain ⟨d, hd, hf⟩ := ih hcs ha
      exact ⟨d, List.mem_cons_of_mem _ hd, hf⟩

/-! ### Runs that end well -/

def Succeeds {ε α : Type} (x : Except ε α) : Prop := ∃ a, x = .ok a

section Succeeds

variable {ε α β : Type}

instance (x : Except ε α) : Decidable (Succeeds x) :=
  match x with
  | .ok a => .isTrue ⟨a, rfl⟩
  | .error _ => .isFalse fun ⟨_, h⟩ => by cases h

theorem succeeds_ok (a : α) : Succeeds (.ok a : Except ε α) := ⟨a, rfl⟩

theorem not_succeeds_error (e : ε) : ¬Succeeds (.error e : Except ε α) := fun ⟨_, h⟩ => by cases h

theorem succeeds_bind_iff {x : Except ε α} {f : α → Except ε β} :
    Succeeds (x >>= f) ↔ ∃ a, x = .ok a ∧ Succeeds (f a) := by
  constructor
  · rintro ⟨b, h⟩
    obtain ⟨a, ha, hb⟩ := exists_of_bind_ok h
    exact ⟨a, ha, b, hb⟩
  · rintro ⟨a, ha, hf⟩
    rw [ha]
    exact hf

theorem succeeds_map_iff {f : α → β} {x : Except ε α} : Succeeds (f <$> x) ↔ Succeeds x := by
  constructor
  · rintro ⟨b, h⟩
    obtain ⟨a, ha, -⟩ := exists_of_map_ok h
    exact ⟨a, ha⟩
  · rintro ⟨a, rfl⟩
    exact succeeds_ok (f a)

theorem succeeds_mapM_iff {f : α → Except ε β} {l : List α} :
    Succeeds (l.mapM f) ↔ ∀ a ∈ l, Succeeds (f a) := by
  constructor
  · rintro ⟨bs, h⟩ a ha
    obtain ⟨b, -, hb⟩ := exists_mem_of_mapM h ha
    exact ⟨b, hb⟩
  · intro h
    induction l with
    | nil => exact succeeds_ok []
    | cons a l ih =>
      obtain ⟨ha, hl⟩ := List.forall_mem_cons.mp h
      obtain ⟨b, hb⟩ := ha
      obtain ⟨bs, hbs⟩ := ih hl
      rw [List.mapM_cons, succeeds_bind_iff]
      exact ⟨b, hb, succeeds_bind_iff.mpr ⟨bs, hbs, succeeds_ok (b :: bs)⟩⟩

theorem succeeds_ite_iff {p : Prop} [Decidable p] {a : α} {e : ε} :
    Succeeds (if p then .ok a else .error e : Except ε α) ↔ p := by
  split
  · next h => exact ⟨fun _ => h, fun _ => succeeds_ok a⟩
  · next h => exact ⟨fun hs => absurd hs (not_succeeds_error e), fun hp => absurd hp h⟩

end Succeeds

/-! ### Beginnings -/

theorem takeWhile_append_of_stop {α : Type} {p : α → Bool} {w s : List α} (hw : ∀ a ∈ w, p a = true)
    (hs : ∀ a, s.head? = some a → p a = false) :
    (w ++ s).takeWhile p = w ∧ (w ++ s).dropWhile p = s := by
  have hstop : s.takeWhile p = [] ∧ s.dropWhile p = s := by
    cases s with
    | nil => exact ⟨rfl, rfl⟩
    | cons a s => simp [hs a rfl]
  rw [List.takeWhile_append_of_pos hw, List.dropWhile_append_of_pos hw, hstop.1, hstop.2,
    List.append_nil]
  exact ⟨rfl, rfl⟩

theorem forall_prefix_cons {α : Type} {P : List α → Prop} {a : α} {s : List α} :
    (∀ p, p <+: a :: s → P p) ↔ P [] ∧ ∀ p, p <+: s → P (a :: p) := by
  constructor
  · intro h
    exact ⟨h [] List.nil_prefix, fun p hp => h _ ((List.prefix_cons_inj a).mpr hp)⟩
  · rintro ⟨hnil, hcons⟩ p hp
    rcases List.prefix_cons_iff.mp hp with rfl | ⟨q, rfl, hq⟩
    · exact hnil
    · exact hcons q hq

theorem exists_append_cons {α : Type} {a : α} {s : List α} {i : Nat} (h : s[i]? = some a) :
    ∃ front rest, s = front ++ a :: rest ∧ front.length = i := by
  obtain ⟨hlt, rfl⟩ := List.getElem?_eq_some_iff.mp h
  refine ⟨s.take i, s.drop (i + 1), ?_, List.length_take_of_le (Nat.le_of_lt hlt)⟩
  rw [← List.drop_eq_getElem_cons hlt, List.take_append_drop]

/-! ### Choices -/

theorem filterMap_cons_toList {α β : Type} (f : α → Option β) (a : α) (l : List α) :
    (a :: l).filterMap f = (f a).toList ++ l.filterMap f := by
  rw [List.filterMap_cons]
  cases f a <;> rfl

theorem filterMap_eq_flatMap_toList {α β : Type} (f : α → Option β) (l : List α) :
    l.filterMap f = l.flatMap fun a => (f a).toList := by
  induction l with
  | nil => rfl
  | cons a l ih => rw [filterMap_cons_toList, List.flatMap_cons, ih]

theorem flatMap_congr {α β : Type} {f g : α → List β} {l : List α} (h : ∀ a ∈ l, f a = g a) :
    l.flatMap f = l.flatMap g := by
  rw [List.flatMap_def, List.flatMap_def, List.map_congr_left h]

/-- An item that stands in a list of items as often as something is chosen there. -/
theorem count_flatMap_of_count {α β γ : Type} [DecidableEq β] [DecidableEq γ] {f : α → List β}
    {g : α → Option γ} {b : β} {c : γ} {l : List α}
    (h : ∀ a ∈ l, (f a).count b = (g a).toList.count c) :
    (l.flatMap f).count b = (l.filterMap g).count c := by
  rw [filterMap_eq_flatMap_toList, List.count_flatMap, List.count_flatMap]
  exact congrArg List.sum (List.map_congr_left h)

theorem count_filter_mem {α : Type} [DecidableEq α] {l kept : List α} (a : α) :
    (l.filter (· ∈ kept)).count a = if a ∈ kept then l.count a else 0 := by
  split
  · next hmem => exact List.count_filter (by simpa using hmem)
  · next hmem =>
    rw [List.count_eq_zero]
    intro h
    exact hmem (by simpa using (List.mem_filter.mp h).2)

/-! ### Keys -/

theorem countP_key {α κ : Type} [DecidableEq κ] {f : α → κ} {l : List α} (h : (l.map f).Nodup) {a : α}
    (ha : a ∈ l) : l.countP (f · == f a) = 1 := by
  have hcount : (l.map f).count (f a) = 1 := by
    rw [h.count, if_pos (List.mem_map_of_mem ha)]
  rw [List.count, List.countP_map] at hcount
  exact hcount

theorem eq_of_key {α κ : Type} {f : α → κ} {l : List α} (h : (l.map f).Nodup) {a b : α}
    (ha : a ∈ l) (hb : b ∈ l) (hab : f a = f b) : a = b := by
  induction l with
  | nil => simp at ha
  | cons c l ih =>
    rw [List.map_cons, List.nodup_cons] at h
    rcases List.mem_cons.mp ha with hac | hal
    · rcases List.mem_cons.mp hb with hbc | hbl
      · rw [hac, hbc]
      · rw [← hac, hab] at h
        exact absurd (List.mem_map_of_mem hbl) h.1
    · rcases List.mem_cons.mp hb with hbc | hbl
      · rw [← hbc, ← hab] at h
        exact absurd (List.mem_map_of_mem hal) h.1
      · exact ih h.2 hal hbl

/-- Members that are found by some of their keys stand in the order of the list. -/
theorem filterMap_map_sublist {α β κ : Type} {f : α → Option β} {g : β → κ} {k : α → κ} {l : List α}
    (h : ∀ a ∈ l, ∀ b, f a = some b → g b = k a) : ((l.filterMap f).map g).Sublist (l.map k) := by
  induction l with
  | nil => exact List.Sublist.slnil
  | cons a l ih =>
    have hl := ih fun b hb => h b (List.mem_cons_of_mem _ hb)
    rw [List.map_cons, List.filterMap_cons]
    cases hf : f a with
    | none => exact hl.cons _
    | some b =>
      show (g b :: (l.filterMap f).map g).Sublist _
      rw [h a (List.mem_cons_self ..) b hf]
      exact hl.cons_cons _

/-- A choice that takes no more than another one takes. -/
theorem filterMap_sublist_filterMap {α β : Type} {f g : α → Option β} {l : List α}
    (h : ∀ a ∈ l, ∀ b, f a = some b → g a = some b) : (l.filterMap f).Sublist (l.filterMap g) := by
  induction l with
  | nil => exact List.Sublist.slnil
  | cons a l ih =>
    have hl := ih fun b hb => h b (List.mem_cons_of_mem _ hb)
    rw [filterMap_cons_toList, filterMap_cons_toList]
    cases hf : f a with
    | none => exact hl.trans (List.sublist_append_right ..)
    | some b =>
      rw [h a (List.mem_cons_self ..) b hf]
      exact hl.append_left _

/-! ### Fibers -/

theorem filter_or_perm {α : Type} {p q : α → Bool} {l : List α}
    (h : ∀ a ∈ l, q a = true → p a = false) :
    (l.filter fun a => p a || q a).Perm (l.filter p ++ l.filter q) := by
  have hp : (l.filter fun a => p a || q a).filter p = l.filter p := by
    rw [List.filter_filter]
    refine List.filter_congr fun a _ => ?_
    cases p a <;> simp
  have hq : (l.filter fun a => p a || q a).filter (fun a => !p a) = l.filter q := by
    rw [List.filter_filter]
    refine List.filter_congr fun a ha => ?_
    have ha := h a ha
    cases hqa : q a with
    | true => simp [ha hqa]
    | false => cases p a <;> simp
  have hperm := List.filter_append_perm p (l.filter fun a => p a || q a)
  rw [hp, hq] at hperm
  exact hperm.symm

theorem flatMap_fibers_perm {α κ : Type} [DecidableEq κ] {f : α → κ} {l : List α} {keys : List κ}
    (h : keys.Nodup) :
    (keys.flatMap fun k => l.filter (f · == k)).Perm (l.filter (keys.contains <| f ·)) := by
  induction keys with
  | nil =>
    rw [List.flatMap_nil, List.filter_eq_nil_iff.mpr (by simp)]
  | cons k keys ih =>
    rw [List.nodup_cons] at h
    have hexcl : ∀ a ∈ l, keys.contains (f a) = true → (f a == k) = false := by
      intro a _ hmem
      rw [beq_eq_false_iff_ne]
      rintro rfl
      exact h.1 (List.contains_iff_mem.mp hmem)
    have hcons : (l.filter fun a => (k :: keys).contains (f a)) =
        l.filter fun a => f a == k || keys.contains (f a) := by
      refine List.filter_congr fun a _ => ?_
      rw [List.contains_cons]
    rw [List.flatMap_cons, hcons]
    exact ((ih h.2).append_left _).trans (filter_or_perm hexcl).symm

/-- Of members that stand under their keys, those of one key stand in one place. -/
theorem filter_flatMap_key {α κ : Type} [DecidableEq κ] {key : α → κ} {f : κ → List α} {k : κ}
    {keys : List κ} (h : keys.Nodup) (hf : ∀ c, ∀ a ∈ f c, key a = c) :
    (keys.flatMap f).filter (key · == k) = if k ∈ keys then f k else [] := by
  induction keys with
  | nil => rfl
  | cons c keys ih =>
    rw [List.nodup_cons] at h
    rw [List.flatMap_cons, List.filter_append, ih h.2]
    by_cases hc : c = k
    · subst hc
      have hall : (f c).filter (key · == c) = f c :=
        List.filter_eq_self.mpr fun a ha => beq_iff_eq.mpr (hf c a ha)
      rw [hall, if_neg h.1, if_pos (List.mem_cons_self ..), List.append_nil]
    · have hnone : (f c).filter (key · == k) = [] := by
        rw [List.filter_eq_nil_iff]
        intro a ha heq
        exact hc ((hf c a ha).symm.trans (beq_iff_eq.mp heq))
      have hmem : k ∈ c :: keys ↔ k ∈ keys :=
        List.mem_cons.trans (or_iff_right fun heq => hc heq.symm)
      simp only [hnone, hmem, List.nil_append]

/-! ### First occurrences -/

section EraseDups

variable {α : Type} [BEq α] [LawfulBEq α]

theorem eraseDups_concat (l : List α) (a : α) :
    (l ++ [a]).eraseDups = if l.contains a then l.eraseDups else l.eraseDups ++ [a] := by
  rw [List.eraseDups_append]
  split
  · next h => simp [List.removeAll, List.contains_iff_mem.mp h]
  · next h =>
    have hmem : a ∉ l := fun hmem => h (List.contains_iff_mem.mpr hmem)
    simp [List.removeAll, hmem, List.eraseDups_cons]

theorem nodup_eraseDups (l : List α) : l.eraseDups.Nodup := by
  induction h : l.length using Nat.strongRecOn generalizing l with
  | ind n ih =>
    cases l with
    | nil => exact List.nodup_nil
    | cons a l =>
      rw [List.eraseDups_cons, List.nodup_cons, List.mem_eraseDups]
      have hlt : (l.filter fun b => !b == a).length < n := by
        have hle := List.length_filter_le (fun b => !b == a) l
        rw [List.length_cons] at h
        omega
      exact ⟨by simp, ih _ hlt _ rfl⟩

end EraseDups

section FirstsBy

variable {α κ : Type} [BEq κ] {f : α → κ}

/-- The members of a list whose keys have not occurred before. -/
def firstsBy (f : α → κ) : List α → List α
  | [] => []
  | a :: l => a :: (firstsBy f l).filter fun b => f b != f a

theorem firstsBy_sublist (f : α → κ) (l : List α) : (firstsBy f l).Sublist l := by
  induction l with
  | nil => exact .slnil
  | cons a l ih => exact (List.filter_sublist.trans ih).cons_cons a

variable [LawfulBEq κ]

theorem firstsBy_of_nodup {l : List α} (h : (l.map f).Nodup) : firstsBy f l = l := by
  induction l with
  | nil => rfl
  | cons a l ih =>
    rw [List.map_cons, List.nodup_cons] at h
    rw [firstsBy, ih h.2, List.filter_eq_self.mpr]
    intro b hb
    rw [bne_iff_ne]
    rintro heq
    exact h.1 (heq ▸ List.mem_map_of_mem hb)

theorem mem_map_firstsBy {l : List α} {k : κ} : k ∈ (firstsBy f l).map f ↔ k ∈ l.map f := by
  induction l with
  | nil => rfl
  | cons a l ih =>
    rw [firstsBy, List.map_cons, List.map_cons, List.mem_cons, List.mem_cons, ← ih]
    by_cases hk : k = f a
    · simp [hk]
    · have hfilter : k ∈ ((firstsBy f l).filter fun b => f b != f a).map f ↔
          k ∈ (firstsBy f l).map f := by
        simp only [List.mem_map, List.mem_filter, bne_iff_ne]
        constructor
        · intro h
          obtain ⟨b, hb, hbk⟩ := h
          exact ⟨b, hb.1, hbk⟩
        · intro h
          obtain ⟨b, hb, hbk⟩ := h
          exact ⟨b, ⟨hb, hbk ▸ hk⟩, hbk⟩
      rw [hfilter]

theorem firstsBy_concat (l : List α) (a : α) :
    firstsBy f (l ++ [a]) =
      if (l.map f).contains (f a) then firstsBy f l else firstsBy f l ++ [a] := by
  induction l with
  | nil => rfl
  | cons b l ih =>
    rw [List.cons_append, firstsBy, firstsBy, ih, List.map_cons, List.contains_cons]
    cases hmem : (l.map f).contains (f a) with
    | true => simp
    | false =>
      rw [Bool.or_false, if_neg Bool.false_ne_true, List.filter_append]
      by_cases hab : f a = f b
      · simp [hab]
      · simp [hab]

/-- Members of one key share a property, so it does not matter whether they are told apart by the
property or by their keys first. -/
theorem filter_firstsBy {p : α → Bool} {l : List α}
    (h : ∀ a ∈ l, ∀ b ∈ l, f a = f b → p a = p b) :
    (firstsBy f l).filter p = firstsBy f (l.filter p) := by
  induction l with
  | nil => rfl
  | cons a l ih =>
    have hl := ih fun b hb c hc => h b (List.mem_cons_of_mem _ hb) c (List.mem_cons_of_mem _ hc)
    rw [firstsBy]
    cases hp : p a with
    | true =>
      rw [List.filter_cons_of_pos hp, List.filter_cons_of_pos hp, firstsBy, ← hl]
      congr 1
      rw [List.filter_filter, List.filter_filter]
      exact List.filter_congr fun b _ => Bool.and_comm _ _
    | false =>
      have hp' : ¬p a = true := by rw [hp]; exact Bool.false_ne_true
      rw [List.filter_cons_of_neg hp', List.filter_cons_of_neg hp', ← hl, List.filter_filter]
      refine List.filter_congr fun b hb => ?_
      have hmem : b ∈ a :: l := List.mem_cons_of_mem _ ((firstsBy_sublist f l).mem hb)
      -- A member with the property has another key than the head, which lacks it.
      cases hpb : p b with
      | false => rfl
      | true =>
        have hne : f b ≠ f a := by
          intro heq
          have hsame := h b hmem a (List.mem_cons_self ..) heq
          rw [hpb, hp] at hsame
          cases hsame
        simp [hne]

end FirstsBy

end IslBindings
