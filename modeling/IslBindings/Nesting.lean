/-!
# Parentheses

The parenthesis that closes a group, and the pieces of a sequence between its
separators outside all parentheses, for any alphabet whose members are told apart
by a `Mark`. The main statements: the closing parenthesis splits the sequence
without loss, and each piece is a part of the sequence, in its order.
-/

namespace IslBindings.Nesting

inductive Mark where
  | opens
  | closes
  | separates
  | plain
  deriving DecidableEq, Repr

variable {α : Type} (mark : α → Mark)

/-! ### The closing parenthesis -/

/-- Inside `depth + 1` open groups: what stands before the parenthesis that closes the
outermost of them, and what follows it. -/
def close? : Nat → List α → Option (List α × List α)
  | _, [] => none
  | depth, a :: rest =>
    match mark a, depth with
    | .opens, _ => (close? (depth + 1) rest).map fun (inner, after) => (a :: inner, after)
    | .closes, 0 => some ([], rest)
    | .closes, d + 1 => (close? d rest).map fun (inner, after) => (a :: inner, after)
    | _, _ => (close? depth rest).map fun (inner, after) => (a :: inner, after)

theorem exists_append_of_close? {depth : Nat} {s inner after : List α}
    (h : close? mark depth s = some (inner, after)) :
    ∃ a, mark a = .closes ∧ s = inner ++ a :: after := by
  induction s generalizing depth inner after with
  | nil => simp [close?] at h
  | cons x rest ih =>
    have step : ∀ d, ((close? mark d rest).map fun (i, r) => (x :: i, r)) = some (inner, after) →
        ∃ a, mark a = .closes ∧ x :: rest = inner ++ a :: after := by
      intro d hd
      rcases hr : close? mark d rest with - | ⟨i, r⟩
      · simp [hr] at hd
      · simp only [hr, Option.map_some, Option.some.injEq, Prod.mk.injEq] at hd
        obtain ⟨a, ha, hs⟩ := ih hr
        exact ⟨a, ha, by rw [← hd.1, ← hd.2, List.cons_append, ← hs]⟩
    rcases hm : mark x with - | - | - | -
    · simp only [close?, hm] at h
      exact step _ h
    · cases depth with
      | zero =>
        simp only [close?, hm, Option.some.injEq, Prod.mk.injEq] at h
        exact ⟨x, hm, by rw [← h.1, ← h.2, List.nil_append]⟩
      | succ d =>
        simp only [close?, hm] at h
        exact step _ h
    · simp only [close?, hm] at h
      exact step _ h
    · simp only [close?, hm] at h
      exact step _ h

theorem length_lt_of_close? {depth : Nat} {s inner after : List α}
    (h : close? mark depth s = some (inner, after)) :
    inner.length + after.length < s.length := by
  obtain ⟨a, -, rfl⟩ := exists_append_of_close? mark h
  simp only [List.length_append, List.length_cons]
  omega

/-! ### Pieces between separators -/

def glue (a : α) : List (List α) → List (List α)
  | [] => [[a]]
  | piece :: more => (a :: piece) :: more

/-- The pieces of a sequence that starts `depth` groups deep. -/
def splitFrom : Nat → List α → List (List α)
  | _, [] => [[]]
  | depth, a :: rest =>
    match mark a, depth with
    | .separates, 0 => [] :: splitFrom 0 rest
    | .opens, _ => glue a (splitFrom (depth + 1) rest)
    | .closes, _ => glue a (splitFrom (depth - 1) rest)
    | _, _ => glue a (splitFrom depth rest)

/-- The pieces between the separators outside all parentheses. -/
def split (s : List α) : List (List α) := splitFrom mark 0 s

theorem splitFrom_ne_nil (depth : Nat) (s : List α) : splitFrom mark depth s ≠ [] := by
  cases s with
  | nil => simp [splitFrom]
  | cons a rest =>
    have hg : ∀ ps : List (List α), glue a ps ≠ [] := fun ps => by cases ps <;> simp [glue]
    rcases hm : mark a with - | - | - | -
    · simp only [splitFrom, hm]
      exact hg _
    · simp only [splitFrom, hm]
      exact hg _
    · cases depth with
      | zero => simp [splitFrom, hm]
      | succ d =>
        simp only [splitFrom, hm]
        exact hg _
    · simp only [splitFrom, hm]
      exact hg _

theorem sublist_of_mem_splitFrom {depth : Nat} {s piece : List α}
    (h : piece ∈ splitFrom mark depth s) : piece.Sublist s := by
  induction s generalizing depth piece with
  | nil =>
    simp only [splitFrom, List.mem_singleton] at h
    subst h
    exact List.nil_sublist _
  | cons a rest ih =>
    have step : ∀ d, piece ∈ glue a (splitFrom mark d rest) → piece.Sublist (a :: rest) := by
      intro d hd
      rcases hs : splitFrom mark d rest with - | ⟨q, qs⟩
      · exact absurd hs (splitFrom_ne_nil mark d rest)
      · simp only [hs, glue, List.mem_cons] at hd
        rcases hd with rfl | hd
        · have hq := @ih d q (by rw [hs]; exact List.mem_cons_self ..)
          exact hq.cons_cons a
        · have hq := @ih d piece (by rw [hs]; exact List.mem_cons_of_mem _ hd)
          exact hq.cons a
    rcases hm : mark a with - | - | - | -
    · simp only [splitFrom, hm] at h
      exact step _ h
    · simp only [splitFrom, hm] at h
      exact step _ h
    · cases depth with
      | zero =>
        simp only [splitFrom, hm, List.mem_cons] at h
        rcases h with rfl | h
        · exact List.nil_sublist _
        · exact (ih h).cons a
      | succ d =>
        simp only [splitFrom, hm] at h
        exact step _ h
    · simp only [splitFrom, hm] at h
      exact step _ h

theorem sublist_of_mem_split {s piece : List α} (h : piece ∈ split mark s) : piece.Sublist s :=
  sublist_of_mem_splitFrom mark h

end IslBindings.Nesting
