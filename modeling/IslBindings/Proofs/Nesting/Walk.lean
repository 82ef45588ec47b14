import IslBindings.Proofs.Nesting.Counting
import IslBindings.Token

/-!
# Walks with a counter

The walk from an opening parenthesis to the one that closes it, with the number of open ones in
a counter that cannot be negative. The main statement, for tokens: the counter is never taken
below zero, the walk ends at the first place up to which both kinds of parentheses are as many,
and the pieces between commas are exact.
-/

namespace IslBindings.Nesting

/-- What a walk can fail at. -/
inductive Fault where
  /-- A parenthesis is closed while the counter is zero. -/
  | underflow
  /-- A slice of the text has its ends in the wrong order, or one of them inside a character. -/
  | offBoundary
  deriving DecidableEq, Repr

/-- The counter after a closing parenthesis. -/
def leave : Nat → Except Fault Nat
  | 0 => .error .underflow
  | depth + 1 => .ok depth

variable {α : Type}

/-- The place at which the counter is back at zero; `index` is the place of what comes next. -/
def walkToClose (mark : α → Mark) : Nat → Nat → List α → Except Fault (Option Nat)
  | _, _, [] => .ok none
  | depth, index, a :: rest =>
    match mark a with
    | .opens => walkToClose mark (depth + 1) (index + 1) rest
    | .closes => (leave depth).bind fun left =>
        if left = 0 then .ok (some index) else walkToClose mark left (index + 1) rest
    | _ => walkToClose mark depth (index + 1) rest

variable {mark : α → Mark} {a : α}

theorem walkToClose_opens (ha : mark a = .opens) (depth index : Nat) (s : List α) :
    walkToClose mark depth index (a :: s) = walkToClose mark (depth + 1) (index + 1) s := by
  simp only [walkToClose, ha]

/-- Inside a group the counter is one ahead of the depth below it, so it is not zero. -/
theorem walkToClose_succ (depth index : Nat) (s : List α) :
    walkToClose mark (depth + 1) index s =
      .ok ((close? mark depth s).map fun (inner, _) => index + inner.length) := by
  induction s generalizing depth index with
  | nil => rfl
  | cons a s ih =>
    -- What is walked over counts one place.
    have hkept : ∀ d, walkToClose mark (d + 1) (index + 1) s =
        .ok (((close? mark d s).map fun (inner, after) => (a :: inner, after)).map
          fun (inner, _) => index + inner.length) := by
      intro d
      rw [ih, Option.map_map]
      refine congrArg _ (congrArg (Option.map · _) (funext fun (inner, _) => ?_))
      simp only [Function.comp_apply, List.length_cons]
      omega
    cases ha : mark a with
    | opens => rw [walkToClose_opens ha, close?_opens ha, hkept]
    | closes =>
      cases depth with
      | zero => simp [walkToClose, ha, close?_closes_zero ha, leave, Except.bind]
      | succ d =>
        rw [close?_closes_succ ha, ← hkept]
        simp [walkToClose, ha, leave, Except.bind]
    | separates =>
      rw [close?_other (.inl ha), ← hkept]
      simp only [walkToClose, ha]
    | plain =>
      rw [close?_other (.inr ha), ← hkept]
      simp only [walkToClose, ha]

/-- From an opening parenthesis the walk comes to an end without a fault. -/
theorem walkToClose_zero (ha : mark a = .opens) (index : Nat) (s : List α) :
    walkToClose mark 0 index (a :: s) =
      .ok ((close? mark 0 s).map fun (inner, _) => index + 1 + inner.length) := by
  rw [walkToClose_opens ha, walkToClose_succ]

/-- A walk that starts at another place can run out of open parentheses. -/
example : walkToClose Token.mark 0 0 [.word "a", .closeParen] = .error .underflow := rfl

/-- What stands inside the parentheses and behind them, by the places of the two. -/
theorem close?_eq_map_length {t s : List α} :
    close? mark 0 s =
      ((close? mark 0 s).map fun (inner, _) => t.length + 1 + inner.length).map fun stop =>
        (((t ++ a :: s).take stop).drop (t.length + 1), (t ++ a :: s).drop (stop + 1)) := by
  cases hclose : close? mark 0 s with
  | none => rfl
  | some parts =>
    obtain ⟨inner, after⟩ := parts
    obtain ⟨c, -, rfl⟩ := exists_append_of_close? mark hclose
    have hcut : t ++ a :: (inner ++ c :: after) = (t ++ [a]) ++ (inner ++ c :: after) := by simp
    have hlength : t.length + 1 = (t ++ [a]).length := by simp
    rw [Option.map_some, Option.map_some, hcut, hlength, List.take_length_add_append,
      List.drop_left, List.take_left, Nat.add_assoc, List.drop_length_add_append,
      List.drop_length_add_append]
    rfl

end IslBindings.Nesting

namespace IslBindings.Token

open Nesting

theorem mark_eq_separates_iff (t : Token) : t.mark = .separates ↔ t = .comma := by
  cases t <;> simp [mark]

/-- At an opening parenthesis the counter never falls below zero and the walk finds the first
place that evens out the parentheses, or there is none. The groups between commas joined again
are the tokens, and if these are balanced, each group is balanced with no comma outside its
parentheses, and there is one more of them than such commas. -/
theorem nesting_by_counts (tokens : List Token) :
    (∀ start, tokens[start]? = some .openParen →
      ∃ found, walkToClose mark 0 start (tokens.drop start) = .ok found ∧
        (∀ stop, found = some stop ↔ IsLeast {i | EvensOut mark tokens start i} stop) ∧
        (found = none ↔ ∀ i, ¬EvensOut mark tokens start i) ∧
        close? mark 0 (tokens.drop (start + 1)) = found.map fun stop =>
          ((tokens.take stop).drop (start + 1), tokens.drop (stop + 1))) ∧
    [Token.comma].intercalate (split mark tokens) = tokens ∧
    (IsBalanced mark tokens →
      (∀ g ∈ split mark tokens, IsBalanced mark g ∧ outer mark g = []) ∧
        (split mark tokens).length = (outer mark tokens).length + 1) := by
  refine ⟨fun start hstart => ?_, ?_, fun hbalanced => ?_⟩
  · obtain ⟨front, rest, rfl, rfl⟩ := exists_append_cons hstart
    have hopens : mark .openParen = .opens := rfl
    have hdrop : (front ++ .openParen :: rest).drop (front.length + 1) = rest := by
      rw [List.drop_length_add_append, List.drop_succ_cons, List.drop_zero]
    refine ⟨_, by rw [List.drop_left, walkToClose_zero hopens],
      fun stop => (isLeast_iff_close? hopens).symm, ?_, ?_⟩
    · rw [Option.map_eq_none_iff]
      exact close?_eq_none_iff hopens
    · rw [hdrop]
      exact close?_eq_map_length
  · exact intercalate_splitFrom (fun t => (mark_eq_separates_iff t).mp) 0 tokens
  · have hcut := (isCut_iff mark_eq_separates_iff).mpr ⟨hbalanced, rfl⟩
    exact ⟨fun g hg => ⟨hcut.balanced g hg, hcut.outer_eq_nil g hg⟩,
      hcut.length_eq mark_eq_separates_iff⟩

/-- The tokens of `f(a, (b, c)), d`. -/
def sampleCall : List Token := [.word "f", .openParen, .word "a", .comma, .openParen, .word "b",
  .comma, .word "c", .closeParen, .closeParen, .comma, .word "d"]

theorem nesting_by_counts_sampleCall :
    sampleCall[1]? = some .openParen ∧ IsLeast {i | EvensOut mark sampleCall 1 i} 9 ∧
      IsBalanced mark sampleCall ∧
      (∀ g ∈ split mark sampleCall, IsBalanced mark g ∧ outer mark g = []) ∧
      (split mark sampleCall).length = (outer mark sampleCall).length + 1 := by
  obtain ⟨hparentheses, -, hgroups⟩ := nesting_by_counts sampleCall
  have hopens : sampleCall[1]? = some .openParen := rfl
  have hbalanced : IsBalanced mark sampleCall :=
    balanced_iff.mp (.plain rfl (.group rfl
      (.plain rfl (.separator rfl (.group rfl (.plain rfl (.separator rfl (.plain rfl .nil)))
        rfl .nil))) rfl (.separator rfl (.plain rfl .nil))))
  obtain ⟨found, hwalk, hfound, -, -⟩ := hparentheses 1 hopens
  have hnine : found = some 9 := (Except.ok.inj hwalk).symm
  exact ⟨hopens, (hfound 9).mp hnine, hbalanced, hgroups hbalanced⟩

end IslBindings.Token
