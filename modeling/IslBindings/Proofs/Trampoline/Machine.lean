import IslBindings.Trampoline
import Mathlib.Data.List.Induction

/-!
# Runs of trampolines

What the statements of a trampoline do to its pointers to the wrapped objects. To let go of an
object through a null pointer is a fault, and so is to hand over an object that is not wrapped or
no longer valid. Statements in a good order run without a fault, and their text says what the
pointers are then.
-/

namespace IslBindings

namespace CallbackAct

def wrappedName? : CallbackAct → Option String
  | .wrap o => some o.name
  | _ => none

def releasedName? : CallbackAct → Option String
  | .release o => some o.name
  | _ => none

def calledNames? : CallbackAct → Option (List String)
  | .call objects => some (objects.map (·.name))
  | _ => none

end CallbackAct

namespace Trampoline

open CallbackAct

/-! ### The machine -/

inductive Ending where
  /-- The host result has been converted. -/
  | converted
  | failed (value : String)
  deriving DecidableEq, Repr

/-- Objects and pointers are known by the names of the arguments. -/
structure Memory where
  /-- The pointers that are not null. -/
  held : List String
  wrapped : List String
  released : List String
  /-- What the host callable has been handed. -/
  calls : List (List String)
  ending : Option Ending
  deriving DecidableEq, Repr

namespace Memory

def start : Memory := { held := [], wrapped := [], released := [], calls := [], ending := none }

/-- `none` for a fault. Nothing happens after a return. -/
def step (s : Memory) (a : CallbackAct) : Option Memory :=
  if s.ending.isSome then some s
  else match a with
    | .declare o => some { s with held := s.held.filter (· ≠ o.name) }
    | .wrap o => some { s with held := o.name :: s.held, wrapped := s.wrapped ++ [o.name] }
    | .call objects =>
      if ∀ o ∈ objects, o.name ∈ s.held then
        some { s with calls := s.calls ++ [objects.map (·.name)] }
      else none
    | .release o =>
      if o.name ∈ s.held then
        some { s with
          held := s.held.filter (· ≠ o.name)
          released := s.released ++ [o.name] }
      else none
    | .releaseIfHeld o =>
      some (if o.name ∈ s.held then { s with released := s.released ++ [o.name] } else s)
    | .convert _ => some { s with ending := some .converted }
    | .fail r => some { s with ending := some (.failed r.errorValue) }
    | .recover | .warnException | .clearException | .warnError => some s

def run (s : Memory) (acts : List CallbackAct) : Option Memory := acts.foldlM step s

variable {s u : Memory} {acts more : List CallbackAct}

theorem run_append (h : s.run acts = some u) : s.run (acts ++ more) = u.run more := by
  rw [run, List.foldlM_append, ← run, h]
  rfl

theorem run_cons (a : CallbackAct) : s.run (a :: acts) = (s.step a).bind (·.run acts) := rfl

theorem run_singleton (a : CallbackAct) : s.run [a] = s.step a := by
  rw [run_cons]
  exact Option.bind_fun_some _

/-- The pointers stay what they were. -/
theorem run_releaseIfHeld (objects : List CallbackObject) (hs : s.ending = none) :
    s.run (objects.map .releaseIfHeld) = some { s with
      released := s.released ++ (objects.map (·.name)).filter (· ∈ s.held) } := by
  induction objects generalizing s with
  | nil => simp [run]
  | cons o objects ih =>
    rw [List.map_cons, run_cons]
    by_cases ho : o.name ∈ s.held
    · have hstep : s.step (.releaseIfHeld o) =
          some { s with released := s.released ++ [o.name] } := by simp [step, hs, ho]
      have hrest := ih (s := { s with released := s.released ++ [o.name] }) hs
      rw [hstep, Option.bind_some, hrest, List.map_cons,
        List.filter_cons_of_pos (by simpa using ho), List.append_assoc, List.singleton_append]
    · have hstep : s.step (.releaseIfHeld o) = some s := by simp [step, hs, ho]
      rw [hstep, Option.bind_some, ih hs, List.map_cons,
        List.filter_cons_of_neg (by simpa using ho)]

theorem run_declare (objects : List CallbackObject) :
    start.run (objects.map .declare) = some start := by
  induction objects with
  | nil => rfl
  | cons o objects ih =>
    rw [List.map_cons, run_cons]
    exact ih

end Memory

/-! ### Statements in a good order -/

/-- Objects are wrapped, handed over and let go of, each once and in this order. -/
structure IsOrdered (acts : List CallbackAct) : Prop where
  wrapped : (acts.filterMap wrappedName?).Nodup
  released : (acts.filterMap releasedName?).Nodup
  release : ∀ before o after, acts = before ++ .release o :: after →
    o.name ∈ before.filterMap wrappedName?
  call : ∀ before objects after, acts = before ++ .call objects :: after → ∀ o ∈ objects,
    o.name ∈ before.filterMap wrappedName? ∧ o.name ∉ before.filterMap releasedName?
  kinds : ∀ a ∈ acts, (∃ o, a = .wrap o) ∨ (∃ objects, a = .call objects) ∨ ∃ o, a = .release o

/-- What the statements that have been run say about the memory. -/
structure Memory.Follows (s : Memory) (done : List CallbackAct) : Prop where
  wrapped : s.wrapped = done.filterMap wrappedName?
  released : s.released = done.filterMap releasedName?
  calls : s.calls = done.filterMap calledNames?
  held : ∀ name, name ∈ s.held ↔
    name ∈ done.filterMap wrappedName? ∧ name ∉ done.filterMap releasedName?
  ending : s.ending = none

namespace IsOrdered

variable {acts more : List CallbackAct}

theorem of_append (h : IsOrdered (acts ++ more)) : IsOrdered acts where
  wrapped := by
    have hwrapped := h.wrapped
    rw [List.filterMap_append] at hwrapped
    exact (List.nodup_append.mp hwrapped).1
  released := by
    have hreleased := h.released
    rw [List.filterMap_append] at hreleased
    exact (List.nodup_append.mp hreleased).1
  release := by
    intro before o after hcut
    exact h.release before o (after ++ more) (by rw [hcut, List.append_assoc, List.cons_append])
  call := by
    intro before objects after hcut
    exact h.call before objects (after ++ more)
      (by rw [hcut, List.append_assoc, List.cons_append])
  kinds a ha := h.kinds a (List.mem_append_left _ ha)

theorem mem_wrapped_of_mem_released (h : IsOrdered acts) {name : String}
    (hname : name ∈ acts.filterMap releasedName?) : name ∈ acts.filterMap wrappedName? := by
  obtain ⟨a, ha, hreleased⟩ := List.mem_filterMap.mp hname
  obtain ⟨before, after, hcut⟩ := List.append_of_mem ha
  rcases h.kinds a ha with ⟨o, rfl⟩ | ⟨objects, rfl⟩ | ⟨o, rfl⟩
  · cases hreleased
  · cases hreleased
  · cases hreleased
    rw [hcut, List.filterMap_append]
    exact List.mem_append_left _ (h.release before o after hcut)

end IsOrdered

namespace Memory.Follows

variable {s : Memory} {done : List CallbackAct}

theorem wrap {o : CallbackObject} (h : s.Follows done) (ha : IsOrdered (done ++ [.wrap o])) :
    ∃ u, s.step (.wrap o) = some u ∧ u.Follows (done ++ [.wrap o]) := by
  have hwrapped := ha.wrapped
  rw [List.filterMap_append] at hwrapped
  have hnew : o.name ∉ done.filterMap wrappedName? := fun hmem =>
    (List.nodup_append.mp hwrapped).2.2 _ hmem _ (List.mem_singleton_self _) rfl
  -- What has been let go of was wrapped before, and this object was not.
  have hkept : o.name ∉ done.filterMap releasedName? := fun hmem =>
    hnew (ha.of_append.mem_wrapped_of_mem_released hmem)
  refine ⟨{ s with held := o.name :: s.held, wrapped := s.wrapped ++ [o.name] }, ?_, ?_⟩
  · simp [step, h.ending]
  · constructor
    case wrapped => simp [h.wrapped, wrappedName?]
    case released => simp [h.released, releasedName?]
    case calls => simp [h.calls, calledNames?]
    case held =>
      intro name
      simp only [List.mem_cons, h.held, List.filterMap_append, List.mem_append]
      have hone : name ∈ [CallbackAct.wrap o].filterMap wrappedName? ↔ name = o.name :=
        List.mem_singleton
      have hnone : name ∉ [CallbackAct.wrap o].filterMap releasedName? := List.not_mem_nil
      grind
    case ending => exact h.ending

theorem call {objects : List CallbackObject} (h : s.Follows done)
    (ha : IsOrdered (done ++ [.call objects])) :
    ∃ u, s.step (.call objects) = some u ∧ u.Follows (done ++ [.call objects]) := by
  have hheld : ∀ o ∈ objects, o.name ∈ s.held := by
    intro o ho
    rw [h.held]
    exact ha.call done objects [] rfl o ho
  refine ⟨{ s with calls := s.calls ++ [objects.map (·.name)] }, ?_, ?_⟩
  · simp only [step, h.ending]
    exact if_pos hheld
  · constructor
    case wrapped => simp [h.wrapped, wrappedName?]
    case released => simp [h.released, releasedName?]
    case calls => simp [h.calls, calledNames?]
    case held => simpa [wrappedName?, releasedName?] using h.held
    case ending => exact h.ending

theorem release {o : CallbackObject} (h : s.Follows done) (ha : IsOrdered (done ++ [.release o])) :
    ∃ u, s.step (.release o) = some u ∧ u.Follows (done ++ [.release o]) := by
  have hreleased := ha.released
  rw [List.filterMap_append] at hreleased
  have hkept : o.name ∉ done.filterMap releasedName? := fun hmem =>
    (List.nodup_append.mp hreleased).2.2 _ hmem _ (List.mem_singleton_self _) rfl
  have hheld : o.name ∈ s.held := (h.held _).mpr ⟨ha.release done o [] rfl, hkept⟩
  refine ⟨{ s with
    held := s.held.filter (· ≠ o.name)
    released := s.released ++ [o.name] }, ?_, ?_⟩
  · simp only [step, h.ending]
    exact if_pos hheld
  · constructor
    case wrapped => simp [h.wrapped, wrappedName?]
    case released => simp [h.released, releasedName?]
    case calls => simp [h.calls, calledNames?]
    case held =>
      intro name
      simp only [List.mem_filter, h.held, List.filterMap_append, List.mem_append,
        decide_eq_true_iff]
      have hone : name ∈ [CallbackAct.release o].filterMap releasedName? ↔ name = o.name :=
        List.mem_singleton
      have hnone : name ∉ [CallbackAct.release o].filterMap wrappedName? := List.not_mem_nil
      grind
    case ending => exact h.ending

theorem step {a : CallbackAct} (h : s.Follows done) (ha : IsOrdered (done ++ [a])) :
    ∃ u, s.step a = some u ∧ u.Follows (done ++ [a]) := by
  rcases ha.kinds a (by simp) with ⟨o, rfl⟩ | ⟨objects, rfl⟩ | ⟨o, rfl⟩
  · exact h.wrap ha
  · exact h.call ha
  · exact h.release ha

end Memory.Follows

theorem exists_run {acts : List CallbackAct} (h : IsOrdered acts) :
    ∃ s, Memory.start.run acts = some s ∧ s.Follows acts := by
  induction acts using List.reverseRecOn with
  | nil => exact ⟨_, rfl, rfl, rfl, rfl, fun name => by simp [Memory.start], rfl⟩
  | append_singleton done a ih =>
    obtain ⟨s, hs, hfollows⟩ := ih h.of_append
    obtain ⟨u, hu, hnext⟩ := hfollows.step h
    refine ⟨u, ?_, hnext⟩
    rw [Memory.run_append hs, Memory.run_singleton, hu]

end Trampoline

end IslBindings
