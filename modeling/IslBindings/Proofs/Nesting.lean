import IslBindings.Nesting

/-!
# Balanced sequences

What the walk through a sequence makes of a part whose parentheses are balanced: such a
part is passed over as a whole, whatever the depth, and separators inside it do not count.
-/

namespace IslBindings.Nesting

variable {α : Type} {mark : α → Mark}

/-- Every parenthesis is closed behind the place where it is opened. The flag says whether
separators may stand outside all parentheses. -/
inductive Balanced (mark : α → Mark) : Bool → List α → Prop
  | nil {outside} : Balanced mark outside []
  | plain {outside a s} : mark a = .plain → Balanced mark outside s → Balanced mark outside (a :: s)
  | separator {a s} : mark a = .separates → Balanced mark true s → Balanced mark true (a :: s)
  | group {outside o inner c s} : mark o = .opens → Balanced mark true inner → mark c = .closes →
      Balanced mark outside s → Balanced mark outside (o :: (inner ++ c :: s))

theorem Balanced.outside {outside : Bool} {s : List α} (h : Balanced mark outside s) :
    Balanced mark true s := by
  induction h with
  | nil => exact .nil
  | plain ha _ ih => exact .plain ha ih
  | separator ha _ ih => exact .separator ha ih
  | group ho hinner hc _ _ ih => exact .group ho hinner hc ih

theorem Balanced.append {outside : Bool} {s t : List α} (hs : Balanced mark outside s)
    (ht : Balanced mark outside t) : Balanced mark outside (s ++ t) := by
  induction hs with
  | nil => exact ht
  | plain ha _ ih => exact .plain ha (ih ht)
  | separator ha _ ih => exact .separator ha (ih ht)
  | @group outside o inner c s ho hinner hc _ _ ih =>
    rw [List.cons_append, List.append_assoc, List.cons_append]
    exact .group ho hinner hc (ih ht)

theorem balanced_of_forall_plain {outside : Bool} {s : List α} (h : ∀ a ∈ s, mark a = .plain) :
    Balanced mark outside s := by
  induction s with
  | nil => exact .nil
  | cons a s ih =>
    exact .plain (h a (List.mem_cons_self ..)) (ih fun b hb => h b (List.mem_cons_of_mem _ hb))

theorem balanced_intercalate {sep : α} (hsep : mark sep = .separates) {groups : List (List α)}
    (h : ∀ g ∈ groups, Balanced mark false g) : Balanced mark true ([sep].intercalate groups) := by
  induction groups with
  | nil => exact .nil
  | cons g groups ih =>
    have hg := (h g (List.mem_cons_self ..)).outside
    have hrest := ih fun k hk => h k (List.mem_cons_of_mem _ hk)
    cases groups with
    | nil =>
      rw [List.intercalate_singleton]
      exact hg
    | cons k ks =>
      rw [List.intercalate_cons_cons, List.append_assoc, List.singleton_append]
      exact hg.append (.separator hsep hrest)

/-- Only one separator separates: a balanced sequence is made of balanced pieces between them. -/
theorem Balanced.exists_groups {sep : α} (hsep : ∀ a, mark a = .separates → a = sep)
    {outside : Bool} {s : List α} (h : Balanced mark outside s) :
    ∃ g gs, s = [sep].intercalate (g :: gs) ∧ ∀ k ∈ g :: gs, Balanced mark false k := by
  induction h with
  | nil => exact ⟨[], [], rfl, List.forall_mem_singleton.mpr .nil⟩
  | @plain outside a s ha _ ih =>
    obtain ⟨g, gs, rfl, hgs⟩ := ih
    obtain ⟨hg, hgs⟩ := List.forall_mem_cons.mp hgs
    refine ⟨a :: g, gs, ?_, List.forall_mem_cons.mpr ⟨.plain ha hg, hgs⟩⟩
    cases gs <;> simp
  | @separator a s ha _ ih =>
    obtain ⟨g, gs, rfl, hgs⟩ := ih
    obtain rfl := hsep a ha
    exact ⟨[], g :: gs, by simp, List.forall_mem_cons.mpr ⟨.nil, hgs⟩⟩
  | @group outside o inner c s ho hinner hc _ _ ih =>
    obtain ⟨g, gs, rfl, hgs⟩ := ih
    obtain ⟨hg, hgs⟩ := List.forall_mem_cons.mp hgs
    refine ⟨o :: (inner ++ c :: g), gs, ?_,
      List.forall_mem_cons.mpr ⟨.group ho hinner hc hg, hgs⟩⟩
    cases gs <;> simp

/-! ### The closing parenthesis -/

theorem close?_opens {a : α} (ha : mark a = .opens) (depth : Nat) (s : List α) :
    close? mark depth (a :: s) =
      (close? mark (depth + 1) s).map fun (inner, after) => (a :: inner, after) := by
  cases depth <;> simp only [close?, ha]

theorem close?_closes_zero {a : α} (ha : mark a = .closes) (s : List α) :
    close? mark 0 (a :: s) = some ([], s) := by
  simp only [close?, ha]

theorem close?_closes_succ {a : α} (ha : mark a = .closes) (depth : Nat) (s : List α) :
    close? mark (depth + 1) (a :: s) =
      (close? mark depth s).map fun (inner, after) => (a :: inner, after) := by
  simp only [close?, ha]

theorem close?_other {a : α} (ha : mark a = .separates ∨ mark a = .plain) (depth : Nat)
    (s : List α) :
    close? mark depth (a :: s) =
      (close? mark depth s).map fun (inner, after) => (a :: inner, after) := by
  rcases ha with ha | ha
  · cases depth <;> simp only [close?, ha]
  · cases depth <;> simp only [close?, ha]

theorem close?_append {outside : Bool} {s : List α} (h : Balanced mark outside s) (depth : Nat)
    (t : List α) :
    close? mark depth (s ++ t) =
      (close? mark depth t).map fun (inner, after) => (s ++ inner, after) := by
  induction h generalizing depth t with
  | nil =>
    rw [List.nil_append]
    exact (Option.map_id' ..).symm
  | plain ha _ ih =>
    rw [List.cons_append, close?_other (Or.inr ha), ih, Option.map_map]
    rfl
  | separator ha _ ih =>
    rw [List.cons_append, close?_other (Or.inl ha), ih, Option.map_map]
    rfl
  | @group outside o inner c s ho _ hc _ ihinner ih =>
    rw [List.cons_append, List.append_assoc, List.cons_append, close?_opens ho, ihinner,
      close?_closes_succ hc, ih, Option.map_map, Option.map_map, Option.map_map]
    refine congrArg (Option.map · _) (funext fun (i, r) => ?_)
    simp

theorem close?_balanced {outside : Bool} {s : List α} (h : Balanced mark outside s) {c : α}
    (hc : mark c = .closes) (t : List α) : close? mark 0 (s ++ c :: t) = some (s, t) := by
  rw [close?_append h, close?_closes_zero hc, Option.map_some]
  simp

/-- Balanced sequences with closing parentheses between them, one for each level that was open. -/
def ClosesOff (mark : α → Mark) : Nat → List α → Prop
  | 0, s => Balanced mark true s
  | depth + 1, s => ∃ first c rest, s = first ++ c :: rest ∧ Balanced mark true first ∧
      mark c = .closes ∧ ClosesOff mark depth rest

theorem ClosesOff.prepend {depth : Nat} {s t : List α} (hs : Balanced mark true s)
    (ht : ClosesOff mark depth t) : ClosesOff mark depth (s ++ t) := by
  cases depth with
  | zero => exact Balanced.append hs ht
  | succ depth =>
    obtain ⟨first, c, rest, rfl, hfirst, hc, hrest⟩ := ht
    exact ⟨s ++ first, c, rest, (List.append_assoc ..).symm, hs.append hfirst, hc, hrest⟩

theorem closesOff_of_close? {depth : Nat} {s inner after : List α}
    (h : close? mark depth s = some (inner, after)) : ClosesOff mark depth inner := by
  induction s generalizing depth inner with
  | nil => cases h
  | cons a s ih =>
    -- Every character but the closing parenthesis of the outermost group is kept.
    have hkept : ∀ d, ((close? mark d s).map fun (i, r) => (a :: i, r)) = some (inner, after) →
        ∃ i, inner = a :: i ∧ ClosesOff mark d i := by
      intro d hd
      obtain ⟨⟨i, r⟩, hr, heq⟩ := Option.map_eq_some_iff.mp hd
      cases heq
      exact ⟨i, rfl, ih hr⟩
    cases ha : mark a with
    | opens =>
      rw [close?_opens ha] at h
      obtain ⟨i, rfl, first, c, rest, rfl, hfirst, hc, hrest⟩ := hkept _ h
      have hgroup : Balanced mark true (a :: (first ++ [c])) := .group ha hfirst hc .nil
      have happend := hrest.prepend hgroup
      simpa using happend
    | closes =>
      cases depth with
      | zero =>
        rw [close?_closes_zero ha] at h
        cases h
        exact .nil
      | succ depth =>
        rw [close?_closes_succ ha] at h
        obtain ⟨i, rfl, hi⟩ := hkept _ h
        exact ⟨[], a, i, rfl, .nil, ha, hi⟩
    | separates =>
      rw [close?_other (.inl ha)] at h
      obtain ⟨i, rfl, hi⟩ := hkept _ h
      exact hi.prepend (.separator ha .nil : Balanced mark true [a])
    | plain =>
      rw [close?_other (.inr ha)] at h
      obtain ⟨i, rfl, hi⟩ := hkept _ h
      exact hi.prepend (.plain ha .nil : Balanced mark true [a])

theorem balanced_of_close? {s inner after : List α} (h : close? mark 0 s = some (inner, after)) :
    Balanced mark true inner :=
  closesOff_of_close? h

/-! ### Pieces between separators -/

theorem splitFrom_opens {a : α} (ha : mark a = .opens) (depth : Nat) (s : List α) :
    splitFrom mark depth (a :: s) = glue a (splitFrom mark (depth + 1) s) := by
  cases depth <;> simp only [splitFrom, ha]

theorem splitFrom_closes {a : α} (ha : mark a = .closes) (depth : Nat) (s : List α) :
    splitFrom mark (depth + 1) (a :: s) = glue a (splitFrom mark depth s) := by
  simp only [splitFrom, ha, Nat.add_sub_cancel]

theorem splitFrom_plain {a : α} (ha : mark a = .plain) (depth : Nat) (s : List α) :
    splitFrom mark depth (a :: s) = glue a (splitFrom mark depth s) := by
  cases depth <;> simp only [splitFrom, ha]

theorem splitFrom_separates_zero {a : α} (ha : mark a = .separates) (s : List α) :
    splitFrom mark 0 (a :: s) = [] :: splitFrom mark 0 s := by
  simp only [splitFrom, ha]

theorem splitFrom_separates_succ {a : α} (ha : mark a = .separates) (depth : Nat) (s : List α) :
    splitFrom mark (depth + 1) (a :: s) = glue a (splitFrom mark (depth + 1) s) := by
  simp only [splitFrom, ha]

theorem splitFrom_append {outside : Bool} {s : List α} (h : Balanced mark outside s) {depth : Nat}
    (hdepth : outside = false ∨ 0 < depth) {t piece : List α} {more : List (List α)}
    (ht : splitFrom mark depth t = piece :: more) :
    splitFrom mark depth (s ++ t) = (s ++ piece) :: more := by
  induction h generalizing depth t piece more with
  | nil => exact ht
  | plain ha _ ih =>
    rw [List.cons_append, splitFrom_plain ha, ih hdepth ht]
    rfl
  | separator ha _ ih =>
    cases depth with
    | zero => exact absurd hdepth (by simp)
    | succ depth =>
      rw [List.cons_append, splitFrom_separates_succ ha, ih hdepth ht]
      rfl
  | @group outside o inner c s ho _ hc _ ihinner ih =>
    -- The inner part is passed over one level deeper, with the rest behind it.
    have hbehind : splitFrom mark (depth + 1) (c :: (s ++ t)) = (c :: (s ++ piece)) :: more := by
      rw [splitFrom_closes hc, ih hdepth ht]
      rfl
    rw [List.cons_append, List.append_assoc, List.cons_append, splitFrom_opens ho,
      ihinner (Or.inr (Nat.succ_pos depth)) hbehind]
    simp [glue]

theorem split_intercalate {sep : α} (hsep : mark sep = .separates) {groups : List (List α)}
    (hne : groups ≠ []) (h : ∀ g ∈ groups, Balanced mark false g) :
    split mark ([sep].intercalate groups) = groups := by
  induction groups with
  | nil => exact absurd rfl hne
  | cons g groups ih =>
    have hg := h g (List.mem_cons_self ..)
    cases groups with
    | nil =>
      have hnil : splitFrom mark 0 ([] : List α) = [] :: [] := by rw [splitFrom]
      have hcut := splitFrom_append hg (Or.inl rfl) hnil
      rw [List.append_nil] at hcut
      rw [List.intercalate_singleton, split, hcut]
    | cons k ks =>
      have hrest := ih (by simp) fun l hl => h l (List.mem_cons_of_mem _ hl)
      have hcut : splitFrom mark 0 (sep :: [sep].intercalate (k :: ks)) = [] :: k :: ks := by
        rw [splitFrom_separates_zero hsep]
        exact congrArg _ hrest
      rw [List.intercalate_cons_cons, List.append_assoc, List.singleton_append, split,
        splitFrom_append hg (Or.inl rfl) hcut, List.append_nil]

end IslBindings.Nesting
