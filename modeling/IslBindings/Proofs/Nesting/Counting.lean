import IslBindings.Proofs.Lists
import IslBindings.Proofs.Nesting
import Mathlib.Order.Bounds.Basic

/-!
# Parentheses by their numbers

Which sequences are balanced, where a parenthesis is closed and which separators stand outside
all parentheses, told from how many parentheses of either kind stand before a place. The main
statements: a parenthesis is closed at the first place up to which both kinds are as many, and
the pieces of a balanced sequence are the one way to cut it at its outer separators.
-/

namespace IslBindings.Nesting

variable {α : Type} {mark : α → Mark} {s t : List α} {a o sep : α} {depth : Nat}

/-! ### Numbers of parentheses -/

def opened (mark : α → Mark) (s : List α) : Nat := s.countP (mark · = .opens)

def closed (mark : α → Mark) (s : List α) : Nat := s.countP (mark · = .closes)

@[simp]
theorem opened_nil : opened mark ([] : List α) = 0 := rfl

@[simp]
theorem closed_nil : closed mark ([] : List α) = 0 := rfl

@[simp]
theorem opened_append : opened mark (s ++ t) = opened mark s + opened mark t :=
  List.countP_append

@[simp]
theorem closed_append : closed mark (s ++ t) = closed mark s + closed mark t :=
  List.countP_append

theorem counts_opens (ha : mark a = .opens) :
    opened mark (a :: s) = opened mark s + 1 ∧ closed mark (a :: s) = closed mark s := by
  simp [opened, closed, ha]

theorem counts_closes (ha : mark a = .closes) :
    opened mark (a :: s) = opened mark s ∧ closed mark (a :: s) = closed mark s + 1 := by
  simp [opened, closed, ha]

theorem counts_other (ha : mark a = .separates ∨ mark a = .plain) :
    opened mark (a :: s) = opened mark s ∧ closed mark (a :: s) = closed mark s := by
  rcases ha with ha | ha
  · simp [opened, closed, ha]
  · simp [opened, closed, ha]

/-- No beginning closes more than it opens, and the whole opens as many as it closes. -/
structure IsBalanced (mark : α → Mark) (s : List α) : Prop where
  closed_le : ∀ p, p <+: s → closed mark p ≤ opened mark p
  opened_eq : opened mark s = closed mark s

/-! ### Balance -/

/-- `depth` more parentheses are closed than opened, and in no beginning more than that. -/
structure ClosesMore (mark : α → Mark) (depth : Nat) (s : List α) : Prop where
  closed_le : ∀ p, p <+: s → closed mark p ≤ opened mark p + depth
  closed_eq : closed mark s = opened mark s + depth

theorem isBalanced_iff_closesMore : IsBalanced mark s ↔ ClosesMore mark 0 s :=
  ⟨fun h => ⟨h.closed_le, h.opened_eq.symm⟩, fun h => ⟨h.closed_le, h.closed_eq.symm⟩⟩

theorem closesMore_nil : ClosesMore mark 0 ([] : List α) where
  closed_le p hp := by simp [List.prefix_nil.mp hp]
  closed_eq := rfl

theorem closesMore_cons_iff {d : Nat} (x y : Nat)
    (hcounts : ∀ p, opened mark (a :: p) = opened mark p + x ∧
      closed mark (a :: p) = closed mark p + y)
    (hdepth : d + y = depth + x) : ClosesMore mark depth (a :: s) ↔ ClosesMore mark d s := by
  constructor
  · rintro ⟨hle, heq⟩
    have hrest := (forall_prefix_cons.mp hle).2
    simp only [hcounts] at hrest heq
    exact ⟨fun p hp => by have hp' := hrest p hp; omega, by omega⟩
  · rintro ⟨hle, heq⟩
    refine ⟨forall_prefix_cons.mpr ⟨by simp, fun p hp => ?_⟩, ?_⟩
    · have hp' := hle p hp
      simp only [hcounts]
      omega
    · simp only [hcounts]
      omega

theorem closesMore_opens (ha : mark a = .opens) :
    ClosesMore mark depth (a :: s) ↔ ClosesMore mark (depth + 1) s :=
  closesMore_cons_iff 1 0 (fun _ => counts_opens ha) rfl

theorem closesMore_other (ha : mark a = .separates ∨ mark a = .plain) :
    ClosesMore mark depth (a :: s) ↔ ClosesMore mark depth s :=
  closesMore_cons_iff 0 0 (fun _ => counts_other ha) rfl

theorem closesMore_closes (ha : mark a = .closes) :
    ClosesMore mark depth (a :: s) ↔ ∃ d, depth = d + 1 ∧ ClosesMore mark d s := by
  constructor
  · intro h
    have hfirst := h.closed_le [a] (List.prefix_cons_inj a |>.mpr List.nil_prefix)
    simp only [counts_closes ha, closed_nil, opened_nil] at hfirst
    obtain ⟨d, rfl⟩ := Nat.exists_eq_succ_of_ne_zero (n := depth) (by omega)
    exact ⟨d, rfl, (closesMore_cons_iff 0 1 (fun _ => counts_closes ha) rfl).mp h⟩
  · rintro ⟨d, rfl, h⟩
    exact (closesMore_cons_iff 0 1 (fun _ => counts_closes ha) rfl).mpr h

theorem Balanced.closesMore_append {outside : Bool} (hs : Balanced mark outside s)
    (ht : ClosesMore mark depth t) : ClosesMore mark depth (s ++ t) := by
  induction hs generalizing depth t with
  | nil => exact ht
  | plain ha _ ih => exact (closesMore_other (.inr ha)).mpr (ih ht)
  | separator ha _ ih => exact (closesMore_other (.inl ha)).mpr (ih ht)
  | group ho _ hc _ ihinner ih =>
    rw [List.cons_append, List.append_assoc, List.cons_append, closesMore_opens ho]
    exact ihinner ((closesMore_closes hc).mpr ⟨_, rfl, ih ht⟩)

theorem closesOff_iff : ClosesOff mark depth s ↔ ClosesMore mark depth s := by
  constructor
  · intro h
    induction depth generalizing s with
    | zero => simpa using Balanced.closesMore_append h closesMore_nil
    | succ depth ih =>
      obtain ⟨first, c, rest, rfl, hfirst, hc, hrest⟩ := h
      exact hfirst.closesMore_append ((closesMore_closes hc).mpr ⟨depth, rfl, ih hrest⟩)
  · intro h
    induction s generalizing depth with
    | nil =>
      obtain rfl : depth = 0 := by simpa using h.closed_eq.symm
      exact .nil
    | cons a s ih =>
      cases ha : mark a with
      | opens =>
        -- The group that `a` opens ends at the first of the `depth + 1` closing parentheses.
        obtain ⟨first, c, rest, rfl, hfirst, hc, hrest⟩ := ih ((closesMore_opens ha).mp h)
        have hgroup : Balanced mark true (a :: (first ++ [c])) := .group ha hfirst hc .nil
        simpa using hrest.prepend hgroup
      | closes =>
        obtain ⟨d, rfl, hrest⟩ := (closesMore_closes ha).mp h
        exact ⟨[], a, s, rfl, .nil, ha, ih hrest⟩
      | separates =>
        have hrest := ih ((closesMore_other (.inl ha)).mp h)
        exact hrest.prepend (.separator ha .nil : Balanced mark true [a])
      | plain =>
        have hrest := ih ((closesMore_other (.inr ha)).mp h)
        exact hrest.prepend (.plain ha .nil : Balanced mark true [a])

theorem balanced_iff : Balanced mark true s ↔ IsBalanced mark s :=
  (closesOff_iff : ClosesOff mark 0 s ↔ ClosesMore mark 0 s).trans isBalanced_iff_closesMore.symm

theorem IsBalanced.of_append {g k : List α} (h : IsBalanced mark (g ++ s ++ k))
    (hg : ∀ a ∈ g, mark a = .plain) (hk : ∀ a ∈ k, mark a = .plain) : IsBalanced mark s := by
  have hcounts : ∀ t : List α, (∀ a ∈ t, mark a = .plain) → opened mark t = 0 ∧ closed mark t = 0 :=
    fun t ht => ⟨List.countP_eq_zero.mpr fun a ha => by simp [ht a ha],
      List.countP_eq_zero.mpr fun a ha => by simp [ht a ha]⟩
  obtain ⟨hgo, hgc⟩ := hcounts g hg
  obtain ⟨hko, hkc⟩ := hcounts k hk
  constructor
  · intro p hp
    have hle := h.closed_le (g ++ p)
      (((List.prefix_append_right_inj g).mpr hp).trans (List.prefix_append ..))
    simpa [hgo, hgc] using hle
  · simpa [hgo, hgc, hko, hkc] using h.opened_eq

/-! ### The closing parenthesis -/

/-- From `start` to `stop`, both included, as many parentheses are opened as closed. -/
def EvensOut (mark : α → Mark) (s : List α) (start stop : Nat) : Prop :=
  start < stop ∧ stop < s.length ∧
    opened mark ((s.take (stop + 1)).drop start) = closed mark ((s.take (stop + 1)).drop start)

theorem closed_le_of_close?_eq_none (h : close? mark depth s = none) :
    ∀ p, p <+: s → closed mark p ≤ opened mark p + depth := by
  induction s generalizing depth with
  | nil =>
    intro p hp
    simp [List.prefix_nil.mp hp]
  | cons a s ih =>
    refine forall_prefix_cons.mpr ⟨by simp, fun p hp => ?_⟩
    cases ha : mark a with
    | opens =>
      rw [close?_opens ha, Option.map_eq_none_iff] at h
      have hrest := ih h p hp
      simp only [counts_opens ha]
      omega
    | closes =>
      cases depth with
      | zero => simp [close?_closes_zero ha] at h
      | succ d =>
        rw [close?_closes_succ ha, Option.map_eq_none_iff] at h
        have hrest := ih h p hp
        simp only [counts_closes ha]
        omega
    | separates =>
      rw [close?_other (.inl ha), Option.map_eq_none_iff] at h
      simpa only [counts_other (.inl ha)] using ih h p hp
    | plain =>
      rw [close?_other (.inr ha), Option.map_eq_none_iff] at h
      simpa only [counts_other (.inr ha)] using ih h p hp

/-- Behind an opening parenthesis, places are told by how much of the rest they take in. -/
theorem evensOut_iff (ho : mark o = .opens) {stop : Nat} :
    EvensOut mark (t ++ o :: s) t.length stop ↔
      ∃ n, stop = t.length + 1 + n ∧ n < s.length ∧
        closed mark (s.take (n + 1)) = opened mark (s.take (n + 1)) + 1 := by
  have hslice : ∀ n, ((t ++ o :: s).take (t.length + 1 + n + 1)).drop t.length =
      o :: s.take (n + 1) := by
    intro n
    rw [show t.length + 1 + n + 1 = t.length + (n + 1 + 1) by omega, List.take_length_add_append,
      List.take_succ_cons, List.drop_left]
  constructor
  · rintro ⟨hlt, hlen, heven⟩
    obtain ⟨n, rfl⟩ := Nat.exists_eq_add_of_lt hlt
    refine ⟨n, by omega, by simp at hlen; omega, ?_⟩
    rw [show t.length + n + 1 + 1 = t.length + 1 + n + 1 by omega, hslice] at heven
    simp only [counts_opens ho] at heven
    exact heven.symm
  · rintro ⟨n, rfl, hn, heven⟩
    refine ⟨by omega, by simp; omega, ?_⟩
    rw [hslice]
    simp only [counts_opens ho]
    exact heven.symm

/-- A parenthesis is closed at the first place up to which both kinds are as many. -/
theorem isLeast_of_close? (ho : mark o = .opens) {inner after : List α}
    (h : close? mark 0 s = some (inner, after)) :
    IsLeast {i | EvensOut mark (t ++ o :: s) t.length i} (t.length + 1 + inner.length) := by
  obtain ⟨c, hc, rfl⟩ := exists_append_of_close? mark h
  have hinner := closesOff_iff.mp (closesOff_of_close? h)
  constructor
  · refine (evensOut_iff ho).mpr ⟨inner.length, rfl, by simp, ?_⟩
    have hcounts := counts_closes (s := []) hc
    have htotal := hinner.closed_eq
    rw [List.take_length_add_append, List.take_succ_cons, List.take_zero]
    simp only [closed_append, opened_append, hcounts, closed_nil, opened_nil]
    omega
  · rintro i hi
    obtain ⟨n, rfl, -, heven⟩ := (evensOut_iff ho).mp hi
    -- A place before the closing parenthesis takes in a beginning of `inner` only.
    by_contra hlt
    rw [List.take_append_of_le_length (by omega)] at heven
    have hinside := hinner.closed_le _ (List.take_prefix (n + 1) inner)
    omega

theorem isLeast_iff_close? (ho : mark o = .opens) {stop : Nat} :
    IsLeast {i | EvensOut mark (t ++ o :: s) t.length i} stop ↔
      ((close? mark 0 s).map fun (inner, _) => t.length + 1 + inner.length) = some stop := by
  constructor
  · intro h
    cases hclose : close? mark 0 s with
    | none =>
      obtain ⟨n, -, -, heven⟩ := (evensOut_iff ho).mp h.1
      have hopen := closed_le_of_close?_eq_none hclose _ (List.take_prefix (n + 1) s)
      omega
    | some parts => exact congrArg some ((isLeast_of_close? ho hclose).unique h)
  · intro h
    obtain ⟨parts, hclose, rfl⟩ := Option.map_eq_some_iff.mp h
    exact isLeast_of_close? ho hclose

theorem close?_eq_none_iff (ho : mark o = .opens) :
    close? mark 0 s = none ↔ ∀ i, ¬EvensOut mark (t ++ o :: s) t.length i := by
  constructor
  · intro h i hi
    obtain ⟨n, -, -, heven⟩ := (evensOut_iff ho).mp hi
    have hopen := closed_le_of_close?_eq_none h _ (List.take_prefix (n + 1) s)
    omega
  · intro h
    by_contra hclose
    obtain ⟨parts, hparts⟩ := Option.ne_none_iff_exists'.mp hclose
    exact h _ (isLeast_of_close? ho hparts).1

/-! ### Separators outside all parentheses -/

/-- The places of the separators before which as many parentheses are closed as opened. -/
def outer (mark : α → Mark) (s : List α) : List Nat :=
  (List.range s.length).filter fun i =>
    s[i]?.map mark = some .separates ∧ opened mark (s.take i) = closed mark (s.take i)

theorem outer_append (hs : opened mark s = closed mark s) :
    outer mark (s ++ t) = outer mark s ++ (outer mark t).map (s.length + ·) := by
  rw [outer, List.length_append, List.range_add, List.filter_append, List.filter_map]
  congr 1
  · refine List.filter_congr fun i hi => ?_
    have hlt := List.mem_range.mp hi
    rw [List.getElem?_append_left hlt, List.take_append_of_le_length (Nat.le_of_lt hlt)]
  · refine congrArg _ (List.filter_congr fun i _ => ?_)
    rw [Function.comp_apply, List.getElem?_append_right (Nat.le_add_right ..),
      List.take_length_add_append, Nat.add_sub_cancel_left, opened_append, closed_append, hs]
    exact decide_eq_decide.mpr (and_congr_right fun _ => Nat.add_left_cancel_iff)

theorem outer_plain (ha : mark a = .plain) :
    outer mark (a :: s) = (outer mark s).map (1 + ·) := by
  have hcounts : opened mark [a] = 0 ∧ closed mark [a] = 0 := counts_other (.inr ha)
  rw [← List.singleton_append, outer_append (hcounts.1.trans hcounts.2.symm)]
  simp [outer, ha, List.range_succ]

theorem outer_separates (ha : mark a = .separates) :
    outer mark (a :: s) = 0 :: (outer mark s).map (1 + ·) := by
  have hcounts : opened mark [a] = 0 ∧ closed mark [a] = 0 := counts_other (.inl ha)
  rw [← List.singleton_append, outer_append (hcounts.1.trans hcounts.2.symm)]
  simp [outer, ha, List.range_succ]

/-- Inside a group more parentheses are opened than closed. -/
theorem outer_group {c : α} (ho : mark o = .opens) (hs : IsBalanced mark s)
    (hc : mark c = .closes) : outer mark (o :: (s ++ [c])) = [] := by
  refine List.filter_eq_nil_iff.mpr fun i hi => ?_
  rw [decide_eq_true_iff]
  rintro ⟨hmark, hcounts⟩
  cases i with
  | zero => simp [ho] at hmark
  | succ n =>
    rw [List.getElem?_cons_succ] at hmark
    have hle : n ≤ s.length := Nat.le_of_lt_succ (by simpa using hi)
    rcases Nat.lt_or_eq_of_le hle with hlt | rfl
    · rw [List.take_succ_cons, List.take_append_of_le_length hle] at hcounts
      simp only [counts_opens ho] at hcounts
      have hinside := hs.closed_le _ (List.take_prefix n s)
      omega
    · simp [hc] at hmark

theorem Balanced.outer_eq_nil (h : Balanced mark false s) : outer mark s = [] := by
  generalize houtside : false = outside at h
  induction h with
  | nil => rfl
  | plain ha _ ih => rw [outer_plain ha, ih houtside, List.map_nil]
  | separator _ _ _ => cases houtside
  | @group _ o inner c s ho hinner hc _ _ ih =>
    have hgroup : Balanced mark true (o :: (inner ++ [c])) := .group ho hinner hc .nil
    have hcut : o :: (inner ++ c :: s) = o :: (inner ++ [c]) ++ s := by simp
    rw [hcut, outer_append (balanced_iff.mp hgroup).opened_eq,
      outer_group ho (balanced_iff.mp hinner) hc, ih houtside]
    rfl

theorem length_outer_intercalate (hsep : mark sep = .separates) {groups : List (List α)}
    (hne : groups ≠ []) (h : ∀ g ∈ groups, Balanced mark false g) :
    groups.length = (outer mark ([sep].intercalate groups)).length + 1 := by
  induction groups with
  | nil => exact absurd rfl hne
  | cons g groups ih =>
    obtain ⟨hg, hgroups⟩ := List.forall_mem_cons.mp h
    cases groups with
    | nil => rw [List.intercalate_singleton, hg.outer_eq_nil]; rfl
    | cons k ks =>
      rw [List.intercalate_cons_cons, List.append_assoc, List.singleton_append,
        outer_append (balanced_iff.mp hg.outside).opened_eq, hg.outer_eq_nil, outer_separates hsep,
        List.length_cons, ih (by simp) hgroups]
      simp

/-! ### Pieces -/

/-- A sequence cut at its separators outside all parentheses, and at no other. -/
structure IsCut (mark : α → Mark) (sep : α) (s : List α) (pieces : List (List α)) : Prop where
  joined : [sep].intercalate pieces = s
  ne_nil : pieces ≠ []
  balanced : ∀ g ∈ pieces, IsBalanced mark g
  outer_eq_nil : ∀ g ∈ pieces, outer mark g = []

theorem intercalate_glue (pieces : List (List α)) (hne : pieces ≠ []) :
    [sep].intercalate (glue a pieces) = a :: [sep].intercalate pieces := by
  cases pieces with
  | nil => exact absurd rfl hne
  | cons g pieces => cases pieces <;> simp [glue]

/-- Whether or not the parentheses match, the pieces with separators between them are the
sequence again. -/
theorem intercalate_splitFrom (hsep : ∀ a, mark a = .separates → a = sep) (depth : Nat)
    (s : List α) : [sep].intercalate (splitFrom mark depth s) = s := by
  induction s generalizing depth with
  | nil => rfl
  | cons a s ih =>
    have hkept : ∀ d, [sep].intercalate (glue a (splitFrom mark d s)) = a :: s := fun d => by
      rw [intercalate_glue _ (splitFrom_ne_nil mark d s), ih]
    cases ha : mark a with
    | opens => rw [splitFrom_opens ha, hkept]
    | closes => simp only [splitFrom, ha, hkept]
    | plain => rw [splitFrom_plain ha, hkept]
    | separates =>
      cases depth with
      | succ d => rw [splitFrom_separates_succ ha, hkept]
      | zero =>
        obtain ⟨g, gs, hgs⟩ := List.exists_cons_of_ne_nil (splitFrom_ne_nil mark 0 s)
        rw [splitFrom_separates_zero ha, hsep a ha, hgs, List.intercalate_cons_cons, ← hgs, ih]
        rfl

variable (hsep : ∀ a, mark a = .separates ↔ a = sep)

include hsep

theorem balanced_false_iff :
    Balanced mark false s ↔ IsBalanced mark s ∧ outer mark s = [] := by
  constructor
  · exact fun h => ⟨balanced_iff.mp h.outside, h.outer_eq_nil⟩
  · rintro ⟨hs, houter⟩
    obtain ⟨g, gs, rfl, hgroups⟩ := (balanced_iff.mpr hs).exists_groups fun a => (hsep a).mp
    have hlength := length_outer_intercalate ((hsep sep).mpr rfl) (by simp) hgroups
    rw [houter, List.length_cons, List.length_nil, Nat.add_right_cancel_iff,
      List.length_eq_zero_iff] at hlength
    subst hlength
    rw [List.intercalate_singleton]
    exact hgroups g (List.mem_cons_self ..)

theorem IsCut.balanced_false {pieces : List (List α)} (h : IsCut mark sep s pieces) :
    ∀ g ∈ pieces, Balanced mark false g := fun g hg =>
  (balanced_false_iff hsep).mpr ⟨h.balanced g hg, h.outer_eq_nil g hg⟩

theorem isCut_iff {pieces : List (List α)} :
    IsCut mark sep s pieces ↔ IsBalanced mark s ∧ pieces = split mark s := by
  have hseparates := (hsep sep).mpr rfl
  constructor
  · intro h
    have hpieces := h.balanced_false hsep
    rw [← h.joined]
    exact ⟨balanced_iff.mp (balanced_intercalate hseparates hpieces),
      (split_intercalate hseparates h.ne_nil hpieces).symm⟩
  · rintro ⟨hs, rfl⟩
    obtain ⟨g, gs, rfl, hgroups⟩ := (balanced_iff.mpr hs).exists_groups fun a => (hsep a).mp
    have hsplit := split_intercalate hseparates (by simp) hgroups
    rw [hsplit]
    exact ⟨rfl, by simp, fun k hk => balanced_iff.mp (hgroups k hk).outside,
      fun k hk => (hgroups k hk).outer_eq_nil⟩

theorem IsCut.length_eq {pieces : List (List α)} (h : IsCut mark sep s pieces) :
    pieces.length = (outer mark s).length + 1 := by
  rw [length_outer_intercalate ((hsep sep).mpr rfl) h.ne_nil (h.balanced_false hsep), h.joined]

end IslBindings.Nesting
