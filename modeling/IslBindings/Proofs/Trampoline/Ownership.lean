import IslBindings.Proofs.Text.Rows
import IslBindings.Proofs.Trampoline.Machine
import IslBindings.Proofs.Trampoline.Release
import IslBindings.Proofs.Wrapper.WellShaped
import Mathlib.Data.List.Forall2

/-!
# Borrowed objects

A callback is handed some objects and lent others. The trampoline wraps them all, hands them to
the host callable, and lets go of the borrowed ones: after the call, or in the handler of an
exception if it has come to wrap them. It never lets go of an object that the callback owns.
-/

namespace IslBindings

/-! ### Objects and results of a callback -/

/-- The object is the value, and borrowed if isl keeps it. -/
structure CallbackObject.IsFor (o : CallbackObject) (arg : ValueArgument) : Prop where
  name : o.name = arg.name
  depth : arg.type.depth = .pointer
  base : arg.type.base = "isl_" ++ o.cls
  ownership : arg.type.ownership = some (if o.isBorrowed then .keep else .take)

theorem CallbackObject.exists_isFor {a : Argument} {o : CallbackObject} (h : ofArgument a = .ok o) :
    ∃ arg, a = .value arg ∧ o.IsFor arg := by
  cases a with
  | callback name result args => cases h
  | value arg =>
    refine ⟨arg, rfl, ?_⟩
    simp only [ofArgument] at h
    split at h
    · next cls hcls hdepth =>
      have hbase := ValueArgument.islClass?_eq_some_iff.mp hcls
      split at h
      · next htake =>
        cases h
        exact ⟨rfl, hdepth, hbase, htake⟩
      · next hkeep =>
        cases h
        exact ⟨rfl, hdepth, hbase, hkeep⟩
      · cases h
    · cases h

/-- What a callback returns to tell isl of an error. -/
inductive CType.HasErrorValue (t : CType) : String → Prop where
  | status : t.depth = .value → t.base = "isl_stat" → HasErrorValue t "isl_stat_error"
  | bool : t.depth = .value → t.base = "isl_bool" → HasErrorValue t "isl_bool_error"
  | scalar : t.depth = .value → t.base ≠ "isl_stat" → t.base ≠ "isl_bool" →
      HasErrorValue t ("static_cast<" ++ t.base ++ ">(-1)")
  | object : t.depth = .pointer → HasErrorValue t "nullptr"

theorem CallbackResult.hasErrorValue_of_ofType {t : CType} {r : CallbackResult}
    (h : ofType t = .ok r) : t.HasErrorValue r.errorValue := by
  simp only [ofType] at h
  split at h
  · next hdepth =>
    split at h
    · next hstatus =>
      cases h
      exact .status hdepth hstatus
    · next hstatus =>
      split at h
      · next hbool =>
        cases h
        exact .bool hdepth hbool
      · next hbool =>
        split at h
        · cases h
          exact .scalar hdepth hstatus hbool
        · cases h
  · next hdepth =>
    split at h
    · cases h
      exact .object hdepth
    all_goals cases h
  · cases h

theorem CallbackObject.forall₂_of_mapM {l : List Argument} {os : List CallbackObject}
    (h : l.mapM ofArgument = .ok os) :
    ∃ args, l = args.map .value ∧ List.Forall₂ IsFor os args := by
  induction l generalizing os with
  | nil =>
    cases h
    exact ⟨[], rfl, .nil⟩
  | cons a l ih =>
    obtain ⟨o, os, ho, hos, rfl⟩ := exists_of_mapM_cons h
    obtain ⟨arg, rfl, harg⟩ := exists_isFor ho
    obtain ⟨args, rfl, hargs⟩ := ih hos
    exact ⟨arg :: args, rfl, .cons harg hargs⟩

theorem CallbackObject.map_name_of_forall₂ {os : List CallbackObject} {args : List ValueArgument}
    (h : List.Forall₂ IsFor os args) : os.map (·.name) = args.map (·.name) := by
  induction h with
  | nil => rfl
  | cons ho _ ih => rw [List.map_cons, List.map_cons, ho.name, ih]

namespace Trampoline

open CallbackAct

variable {t : Trampoline}

theorem parts_of_ofCallback {name : String} {c : Callback} (h : ofCallback name c = .ok t) :
    (∃ args user, c.args = args.map .value ++ [.value user] ∧ user.name = "user" ∧
      List.Forall₂ CallbackObject.IsFor t.objects args) ∧
    c.result.HasErrorValue t.conversion.errorValue := by
  rw [ofCallback] at h
  split at h
  · cases h
  · next hnone =>
    rw [Bool.not_eq_true, Option.isNone_eq_false_iff] at hnone
    obtain ⟨inner, user, hargs, hname⟩ := Callback.user?_isSome_iff.mp hnone
    obtain ⟨objects, hobjects, h⟩ := exists_of_bind_ok h
    obtain ⟨conversion, hconversion, h⟩ := exists_of_bind_ok h
    cases h
    rw [Callback.visible_of_user hargs hname] at hobjects
    obtain ⟨args, hinner, hfor⟩ := CallbackObject.forall₂_of_mapM hobjects
    exact ⟨⟨args, user, hinner ▸ hargs, hname, hfor⟩,
      CallbackResult.hasErrorValue_of_ofType hconversion⟩

/-! ### The working statements -/

/-- The statements before the conversion. -/
def working (t : Trampoline) : List CallbackAct :=
  t.objects.map .wrap ++ .call t.objects :: t.borrowed.map .release

theorem onReturn_eq (t : Trampoline) : t.onReturn = t.working ++ [.convert t.conversion] := by
  simp [onReturn, working]

theorem wrapped_map_wrap (os : List CallbackObject) :
    (os.map .wrap).filterMap wrappedName? = os.map (·.name) := by
  simp [List.filterMap_map, Function.comp_def, wrappedName?]

theorem released_map_wrap (os : List CallbackObject) :
    (os.map .wrap).filterMap releasedName? = [] := by
  simp [List.filterMap_map, Function.comp_def, releasedName?]

theorem wrapped_working (t : Trampoline) :
    t.working.filterMap wrappedName? = t.objects.map (·.name) := by
  simp [working, List.filterMap_cons, List.filterMap_map, Function.comp_def, wrappedName?]

theorem released_working (t : Trampoline) :
    t.working.filterMap releasedName? = t.borrowed.map (·.name) := by
  simp [working, List.filterMap_cons, List.filterMap_map, Function.comp_def, releasedName?]

theorem calls_working (t : Trampoline) :
    t.working.filterMap calledNames? = [t.objects.map (·.name)] := by
  simp [working, List.filterMap_map, Function.comp_def, calledNames?]

/-- Behind the wrapping there are the call and the releases. -/
theorem cut_working {before after : List CallbackAct} {a : CallbackAct}
    (h : t.working = before ++ a :: after) (ha : ∀ o, a ≠ .wrap o) :
    (before = t.objects.map .wrap ∧ a = .call t.objects) ∨
      ∃ k, before = t.objects.map .wrap ++ .call t.objects :: k ∧
        t.borrowed.map .release = k ++ a :: after := by
  rcases Text.append_eq_append_cons h with ⟨k, hwraps, -⟩ | ⟨k, hbefore, hrest⟩
  · have hmem : a ∈ t.objects.map .wrap := by simp [hwraps]
    obtain ⟨o, -, rfl⟩ := List.mem_map.mp hmem
    exact absurd rfl (ha o)
  · cases k with
    | nil =>
      rw [List.nil_append, List.cons.injEq] at hrest
      exact .inl ⟨by rw [hbefore, List.append_nil], hrest.1.symm⟩
    | cons b k =>
      rw [List.cons_append, List.cons.injEq] at hrest
      exact .inr ⟨k, by rw [hbefore, hrest.1], hrest.2⟩

theorem mem_borrowed_of_cut {k after : List CallbackAct} {a : CallbackAct}
    (h : t.borrowed.map .release = k ++ a :: after) : ∃ o ∈ t.borrowed, a = .release o := by
  have hmem : a ∈ t.borrowed.map .release := by simp [h]
  obtain ⟨o, ho, rfl⟩ := List.mem_map.mp hmem
  exact ⟨o, ho, rfl⟩

theorem isOrdered_working (h : (t.objects.map (·.name)).Nodup) : IsOrdered t.working where
  wrapped := by rwa [wrapped_working]
  released := by
    rw [released_working]
    exact (List.filter_sublist.map _).nodup h
  release := by
    intro before o after hcut
    rcases cut_working hcut (by simp) with ⟨-, ha⟩ | ⟨k, rfl, hk⟩
    · cases ha
    · obtain ⟨p, hp, heq⟩ := mem_borrowed_of_cut hk
      cases heq
      rw [List.filterMap_append, wrapped_map_wrap]
      exact List.mem_append_left _ (List.mem_map_of_mem (List.mem_of_mem_filter hp))
  call := by
    intro before objects after hcut o ho
    rcases cut_working hcut (by simp) with ⟨rfl, ha⟩ | ⟨k, rfl, hk⟩
    · cases ha
      rw [wrapped_map_wrap, released_map_wrap]
      exact ⟨List.mem_map_of_mem ho, List.not_mem_nil⟩
    · obtain ⟨p, hp, heq⟩ := mem_borrowed_of_cut hk
      cases heq
  kinds := by
    intro a ha
    simp only [working, List.mem_append, List.mem_cons, List.mem_map] at ha
    rcases ha with ⟨o, -, rfl⟩ | rfl | ⟨o, -, rfl⟩
    · exact .inl ⟨o, rfl⟩
    · exact .inr (.inl ⟨_, rfl⟩)
    · exact .inr (.inr ⟨o, rfl⟩)

/-! ### The handlers -/

/-- The ways out by an exception. -/
def handlers (t : Trampoline) : List (List CallbackAct) := [t.onException, t.onError]

/-- The statements that report an exception. -/
def reports : List CallbackAct := [.warnException, .warnError, .clearException]

theorem exists_of_mem_handlers {acts : List CallbackAct} (h : acts ∈ t.handlers) :
    ∃ before, acts = before ++ [.fail t.conversion] ∧
      ∀ a ∈ before, a ∈ reports ∨ ∃ o ∈ t.borrowed, a = .releaseIfHeld o := by
  simp only [handlers, List.mem_cons, List.not_mem_nil, or_false] at h
  rcases h with rfl | rfl
  · refine ⟨[.warnException] ++ t.borrowed.map .releaseIfHeld ++ [.clearException], ?_, ?_⟩
    · simp [onException]
    · simp only [List.forall_mem_append, List.forall_mem_singleton, List.forall_mem_map]
      exact ⟨⟨.inl (by decide), fun o ho => .inr ⟨o, ho, rfl⟩⟩, .inl (by decide)⟩
  · refine ⟨[.warnError] ++ t.borrowed.map .releaseIfHeld, ?_, ?_⟩
    · simp [onError]
    · simp only [List.forall_mem_append, List.forall_mem_singleton, List.forall_mem_map]
      exact ⟨.inl (by decide), fun o ho => .inr ⟨o, ho, rfl⟩⟩

/-! ### Runs -/

theorem run_setup (t : Trampoline) : Memory.start.run t.setup = some Memory.start := by
  rw [setup, Memory.run_cons]
  exact Memory.run_declare t.objects

theorem run_handler {handler : List CallbackAct} (h : handler ∈ t.handlers) {s : Memory}
    (hs : s.ending = none) :
    s.run handler = some { s with
      released := s.released ++ (t.borrowed.map (·.name)).filter (· ∈ s.held)
      ending := some (.failed t.conversion.errorValue) } := by
  have hreleases := Memory.run_releaseIfHeld t.borrowed hs
  simp only [handlers, List.mem_cons, List.not_mem_nil, or_false] at h
  rcases h with rfl | rfl
  · have hwarn : s.run [.warnException] = some s := by simp [Memory.run, Memory.step, hs]
    rw [onException, List.append_assoc, Memory.run_append hwarn, Memory.run_append hreleases]
    simp [Memory.run, Memory.step, hs]
  · have hwarn : s.run [.warnError] = some s := by simp [Memory.run, Memory.step, hs]
    rw [onError, List.append_assoc, Memory.run_append hwarn, Memory.run_append hreleases]
    simp [Memory.run, Memory.step, hs]

theorem count_borrowed (h : (t.objects.map (·.name)).Nodup) {o : CallbackObject}
    (ho : o ∈ t.objects) :
    (t.borrowed.map (·.name)).count o.name = if o.isBorrowed then 1 else 0 := by
  have hnodup : (t.borrowed.map (·.name)).Nodup := (List.filter_sublist.map _).nodup h
  have hmem : o.name ∈ t.borrowed.map (·.name) ↔ o.isBorrowed = true := by
    rw [List.mem_map]
    constructor
    · rintro ⟨p, hp, hname⟩
      obtain ⟨hp, hborrowed⟩ := List.mem_filter.mp hp
      rw [← eq_of_key h hp ho hname]
      exact hborrowed
    · intro hborrowed
      exact ⟨o, List.mem_filter.mpr ⟨ho, hborrowed⟩, rfl⟩
  rw [hnodup.count]
  simp only [hmem]

/-- A run that the host result ends. -/
structure Returns (t : Trampoline) (s : Memory) : Prop where
  run : Memory.start.run (t.setup ++ t.onReturn) = some s
  ending : s.ending = some .converted
  wrapped : s.wrapped = t.objects.map (·.name)
  calls : s.calls = [t.objects.map (·.name)]
  released : ∀ o ∈ t.objects, s.released.count o.name = if o.isBorrowed then 1 else 0
  held : ∀ o ∈ t.objects, o.name ∈ s.held ↔ o.isBorrowed = false

theorem exists_returns (h : (t.objects.map (·.name)).Nodup) : ∃ s, t.Returns s := by
  obtain ⟨s, hs, hfollows⟩ := exists_run (isOrdered_working h)
  have hwrapped := hfollows.wrapped
  have hreleased := hfollows.released
  have hcalls := hfollows.calls
  rw [wrapped_working] at hwrapped
  rw [released_working] at hreleased
  rw [calls_working] at hcalls
  refine ⟨{ s with ending := some .converted }, ?_, rfl, hwrapped, hcalls, ?_, ?_⟩
  · rw [Memory.run_append t.run_setup, onReturn_eq, Memory.run_append hs, Memory.run_singleton]
    simp [Memory.step, hfollows.ending]
  · intro o ho
    rw [hreleased]
    exact count_borrowed h ho
  · intro o ho
    have hcount := count_borrowed h ho
    rw [hfollows.held, wrapped_working, released_working, ← List.count_eq_zero, hcount]
    have hmem : o.name ∈ t.objects.map (·.name) := List.mem_map_of_mem ho
    cases o.isBorrowed <;> simp [hmem]

/-- A run that an exception takes to a handler, behind some of the statements. An exception within
a statement leaves the pointers as they are before the statement or behind it. -/
structure Fails (t : Trampoline) (done handler : List CallbackAct) (s : Memory) : Prop where
  run : Memory.start.run (t.setup ++ done ++ handler) = some s
  ending : s.ending = some (.failed t.conversion.errorValue)
  wrapped : s.wrapped = done.filterMap wrappedName? ∧ s.wrapped.Nodup
  released : ∀ o ∈ t.objects,
    s.released.count o.name = if o.isBorrowed then s.wrapped.count o.name else 0

theorem exists_fails (h : (t.objects.map (·.name)).Nodup) {done rest handler : List CallbackAct}
    (hcut : t.onReturn = done ++ rest) (hrest : rest ≠ []) (hhandler : handler ∈ t.handlers) :
    ∃ s, t.Fails done handler s := by
  obtain ⟨more, hmore⟩ : ∃ more, t.working = done ++ more := by
    rw [onReturn_eq, ← List.dropLast_concat_getLast hrest, ← List.append_assoc] at hcut
    exact ⟨rest.dropLast, (List.append_inj' hcut rfl).1⟩
  have hordered := isOrdered_working h
  rw [hmore] at hordered
  obtain ⟨s, hs, hfollows⟩ := exists_run hordered.of_append
  have hnodup := hordered.of_append.wrapped
  rw [← hfollows.wrapped] at hnodup
  refine ⟨{ s with
    released := s.released ++ (t.borrowed.map (·.name)).filter (· ∈ s.held)
    ending := some (.failed t.conversion.errorValue) }, ?_, rfl, ⟨hfollows.wrapped, hnodup⟩, ?_⟩
  · rw [Memory.run_append (by rw [Memory.run_append t.run_setup, hs]),
      run_handler hhandler hfollows.ending]
  · intro o ho
    have hborrowed := count_borrowed h ho
    have hsplit : (t.borrowed.map (·.name)).count o.name =
        s.released.count o.name + (more.filterMap releasedName?).count o.name := by
      rw [← released_working, hmore, List.filterMap_append, List.count_append, hfollows.released]
    have hheld := hfollows.held o.name
    rw [← hfollows.wrapped, ← hfollows.released] at hheld
    have hsub : o.name ∈ s.released → o.name ∈ s.wrapped := by
      rw [hfollows.wrapped, hfollows.released]
      exact hordered.of_append.mem_wrapped_of_mem_released
    show (s.released ++ _).count o.name = if o.isBorrowed then s.wrapped.count o.name else 0
    rw [List.count_append, count_filter_mem, hborrowed, hnodup.count]
    rw [hborrowed] at hsplit
    by_cases hreleased : o.name ∈ s.released
    · have hone : 0 < s.released.count o.name := List.count_pos_iff.mpr hreleased
      have hnull : o.name ∉ s.held := fun hmem => (hheld.mp hmem).2 hreleased
      rw [if_neg hnull, if_pos (hsub hreleased)]
      split at hsplit
      · next hb =>
        rw [if_pos hb]
        omega
      · omega
    · have hzero : s.released.count o.name = 0 := List.count_eq_zero.mpr hreleased
      have hiff : o.name ∈ s.held ↔ o.name ∈ s.wrapped :=
        hheld.trans (and_iff_left hreleased)
      rw [hzero]
      simp only [hiff]
      split <;> simp

/-! ### Ownership -/

theorem invalidatedName?_of_mem_reports {a : CallbackAct} (h : a ∈ reports) :
    a.invalidatedName? = none := by
  have hall : ∀ b ∈ reports, b.invalidatedName? = none := by decide
  exact hall a h

theorem head?_of_mem_reports {a : CallbackAct} (h : a ∈ reports) :
    ∀ line ∈ a.lines, line.toList.head? ≠ some 'i' := by
  have hall : ∀ b ∈ reports, ∀ line ∈ b.lines, line.toList.head? ≠ some 'i' := by decide
  exact hall a h

theorem invalidated_map_release (os : List CallbackObject) :
    (os.map .release).filterMap invalidatedName? = os.map (·.name) := by
  simp [List.filterMap_map, Function.comp_def, invalidatedName?]

theorem invalidated_onReturn (t : Trampoline) :
    t.onReturn.filterMap invalidatedName? = t.borrowed.map (·.name) := by
  simp [onReturn, List.filterMap_cons, List.filterMap_map, Function.comp_def, invalidatedName?]

theorem invalidated_handler {acts : List CallbackAct} (h : acts ∈ t.handlers) :
    acts.filterMap invalidatedName? = t.borrowed.map (·.name) := by
  simp only [handlers, List.mem_cons, List.not_mem_nil, or_false] at h
  rcases h with rfl | rfl
  · simp [onException, List.filterMap_cons, List.filterMap_map, Function.comp_def, invalidatedName?]
  · simp [onError, List.filterMap_cons, List.filterMap_map, Function.comp_def, invalidatedName?]

/-- What a trampoline does to the objects of its callback. -/
structure RespectsOwnership (t : Trampoline) (name : String) (c : Callback) : Prop where
  parameters : ∃ args user, c.args = args.map .value ++ [.value user] ∧ user.name = "user" ∧
    List.Forall₂ CallbackObject.IsFor t.objects args
  code : t.code = Code.functionText ("static " ++ t.result.spelling) name t.inputText
    (bodyLines (t.setup.flatMap lines) (t.onReturn.flatMap lines) (t.onException.flatMap lines)
      (t.onError.flatMap lines))
  setupLines : t.setup.flatMap lines =
    "py::object py_cb = py::borrow<py::object>((PyObject *) c_arg_user);" ::
      t.objects.map (·.declaration)
  /-- All objects are wrapped, handed over, and let go of if they are borrowed. -/
  returnLines : t.onReturn.flatMap lines =
    t.objects.flatMap (fun o => [o.wrapping, o.handle]) ++ CallbackObject.hostCall t.objects ::
      ((t.objects.filter (·.isBorrowed)).flatMap (fun o => [o.invalidation, o.reset]) ++
        (CallbackAct.convert t.conversion).lines)
  exceptionLines : t.onException.flatMap lines =
    ["std::cout << \"[islpy warning] A Python exception occurred in \"",
      "  \"a call back function, ignoring:\" << std::endl;"] ++
    (t.objects.filter (·.isBorrowed)).map (·.guardedInvalidation) ++
    ["err.restore();", "PyErr_Print();", "PyErr_Clear();",
      "return " ++ t.conversion.errorValue ++ ";"]
  errorLines : t.onError.flatMap lines =
    ["std::cerr << \"[islpy] An exception occurred in \"",
      "  \"a Python callback query:\" << std::endl", "  << e.what() << std::endl;"] ++
    (t.objects.filter (·.isBorrowed)).map (·.guardedInvalidation) ++
    ["return " ++ t.conversion.errorValue ++ ";"]
  setup : t.setup.filterMap invalidatedName? = []
  wraps : ∀ o ∈ t.objects, (t.onReturn.filterMap wrappedName?).count o.name = 1
  passes : ∃ after, t.onReturn = t.objects.map .wrap ++ .call t.objects :: after ∧
    (∀ objects, .call objects ∉ after) ∧
    ∀ o ∈ t.objects,
      (after.flatMap lines).count o.invalidation = (if o.isBorrowed then 1 else 0) ∧
        (o.isBorrowed = true → [o.invalidation, o.reset] <:+: after.flatMap lines)
  /-- Each way out lets go of a borrowed object in one place, and of no other object. -/
  exits : ∀ acts ∈ t.onReturn :: t.handlers, ∀ o ∈ t.objects,
    (acts.filterMap invalidatedName?).count o.name = if o.isBorrowed then 1 else 0
  released : ∀ before a after, t.onReturn = before ++ a :: after → a.invalidatedName?.isSome →
    (∃ o, a = .release o) ∧ .call t.objects ∈ before ∧ .convert t.conversion ∈ after
  guarded : ∀ acts ∈ t.handlers, ∀ before a after, acts = before ++ a :: after →
    a.invalidatedName?.isSome → (∃ o, a = .releaseIfHeld o) ∧ .fail t.conversion ∈ after
  guardedLines : ∀ acts ∈ t.handlers, ∀ o ∈ t.objects,
    (acts.flatMap lines).count o.guardedInvalidation = if o.isBorrowed then 1 else 0
  errorValue : c.result.HasErrorValue t.conversion.errorValue
  errors : ∀ acts ∈ t.handlers, ∃ before, acts = before ++ [.fail t.conversion] ∧
    (∀ a ∈ before, ∀ r, a ≠ .fail r ∧ a ≠ .convert r) ∧
      acts.flatMap lines = before.flatMap lines ++ ["return " ++ t.conversion.errorValue ++ ";"]
  returns : ∃ s, t.Returns s
  fails : ∀ done rest, t.onReturn = done ++ rest → rest ≠ [] → ∀ acts ∈ t.handlers,
    ∃ s, t.Fails done acts s

theorem lines_map_releaseIfHeld (os : List CallbackObject) :
    (os.map CallbackAct.releaseIfHeld).flatMap lines = os.map (·.guardedInvalidation) := by
  rw [List.flatMap_map, List.map_eq_flatMap]
  rfl

theorem setup_lines (t : Trampoline) : t.setup.flatMap lines =
    "py::object py_cb = py::borrow<py::object>((PyObject *) c_arg_user);" ::
      t.objects.map (·.declaration) := by
  rw [setup, List.flatMap_cons, List.flatMap_map, List.map_eq_flatMap]
  rfl

theorem onReturn_lines (t : Trampoline) : t.onReturn.flatMap lines =
    t.objects.flatMap (fun o => [o.wrapping, o.handle]) ++ CallbackObject.hostCall t.objects ::
      (t.borrowed.flatMap (fun o => [o.invalidation, o.reset]) ++
        (CallbackAct.convert t.conversion).lines) := by
  simp only [onReturn, List.flatMap_append, List.flatMap_map, List.flatMap_singleton,
    List.append_assoc]
  rfl

theorem onException_lines (t : Trampoline) : t.onException.flatMap lines =
    ["std::cout << \"[islpy warning] A Python exception occurred in \"",
      "  \"a call back function, ignoring:\" << std::endl;"] ++
    t.borrowed.map (·.guardedInvalidation) ++
    ["err.restore();", "PyErr_Print();", "PyErr_Clear();",
      "return " ++ t.conversion.errorValue ++ ";"] := by
  rw [onException, List.flatMap_append, List.flatMap_append, lines_map_releaseIfHeld]
  rfl

theorem onError_lines (t : Trampoline) : t.onError.flatMap lines =
    ["std::cerr << \"[islpy] An exception occurred in \"",
      "  \"a Python callback query:\" << std::endl", "  << e.what() << std::endl;"] ++
    t.borrowed.map (·.guardedInvalidation) ++
    ["return " ++ t.conversion.errorValue ++ ";"] := by
  rw [onError, List.flatMap_append, List.flatMap_append, lines_map_releaseIfHeld]
  rfl

theorem invalidated_setup (t : Trampoline) : t.setup.filterMap invalidatedName? = [] := by
  simp [setup, List.filterMap_cons, List.filterMap_map, Function.comp_def, invalidatedName?]

theorem passes_onReturn (h : (t.objects.map (·.name)).Nodup) :
    ∃ after, t.onReturn = t.objects.map .wrap ++ .call t.objects :: after ∧
      (∀ objects, .call objects ∉ after) ∧
      ∀ o ∈ t.objects,
        (after.flatMap lines).count o.invalidation = (if o.isBorrowed then 1 else 0) ∧
          (o.isBorrowed = true → [o.invalidation, o.reset] <:+: after.flatMap lines) := by
  refine ⟨t.borrowed.map .release ++ [.convert t.conversion], by simp [onReturn], by simp, ?_⟩
  intro o ho
  constructor
  · have hlines : ∀ a ∈ t.borrowed.map CallbackAct.release ++ [.convert t.conversion],
        a.lines.count o.invalidation = a.invalidatedName?.toList.count o.name := by
      simp only [List.forall_mem_append, List.forall_mem_singleton, List.forall_mem_map]
      exact ⟨fun p _ => count_invalidation_release p o, count_invalidation_convert _ o⟩
    have hnone : [CallbackAct.convert t.conversion].filterMap invalidatedName? = [] := rfl
    rw [count_flatMap_of_count hlines, List.filterMap_append, invalidated_map_release, hnone,
      List.append_nil, count_borrowed h ho]
  · intro hborrowed
    have hmem : o ∈ t.borrowed := List.mem_filter.mpr ⟨ho, hborrowed⟩
    obtain ⟨front, back, hcut⟩ := List.append_of_mem hmem
    rw [hcut, List.map_append, List.map_cons, List.append_assoc, List.flatMap_append,
      List.cons_append, List.flatMap_cons]
    exact ⟨_, _, List.append_assoc ..⟩

theorem released_onReturn {before after : List CallbackAct} {a : CallbackAct}
    (hcut : t.onReturn = before ++ a :: after) (ha : a.invalidatedName?.isSome) :
    (∃ o, a = .release o) ∧ .call t.objects ∈ before ∧ .convert t.conversion ∈ after := by
  rw [onReturn_eq] at hcut
  rcases Text.append_eq_append_cons hcut with ⟨k, hworking, rfl⟩ | ⟨k, -, hlast⟩
  · rcases cut_working hworking (by rintro o rfl; cases ha) with ⟨-, rfl⟩ | ⟨k', rfl, hk⟩
    · cases ha
    · obtain ⟨o, -, rfl⟩ := mem_borrowed_of_cut hk
      exact ⟨⟨o, rfl⟩, by simp, by simp⟩
  · have hmem : a ∈ [CallbackAct.convert t.conversion] := by simp [hlast]
    rw [List.mem_singleton.mp hmem] at ha
    cases ha

theorem guarded_handler {acts before after : List CallbackAct} {a : CallbackAct}
    (h : acts ∈ t.handlers) (hcut : acts = before ++ a :: after) (ha : a.invalidatedName?.isSome) :
    (∃ o, a = .releaseIfHeld o) ∧ .fail t.conversion ∈ after := by
  obtain ⟨body, rfl, hbody⟩ := exists_of_mem_handlers h
  rcases Text.append_eq_append_cons hcut with ⟨k, rfl, rfl⟩ | ⟨k, -, hlast⟩
  · refine ⟨?_, by simp⟩
    rcases hbody a (by simp) with hreport | ⟨o, -, heq⟩
    · rw [invalidatedName?_of_mem_reports hreport] at ha
      cases ha
    · exact ⟨o, heq⟩
  · have hmem : a ∈ [CallbackAct.fail t.conversion] := by simp [hlast]
    rw [List.mem_singleton.mp hmem] at ha
    cases ha

theorem count_guarded_handler {acts : List CallbackAct} (h : acts ∈ t.handlers)
    (hnames : (t.objects.map (·.name)).Nodup) {o : CallbackObject} (ho : o ∈ t.objects) :
    (acts.flatMap lines).count o.guardedInvalidation = if o.isBorrowed then 1 else 0 := by
  have hlines : ∀ a ∈ acts,
      a.lines.count o.guardedInvalidation = a.invalidatedName?.toList.count o.name := by
    obtain ⟨body, rfl, hbody⟩ := exists_of_mem_handlers h
    rw [List.forall_mem_append, List.forall_mem_singleton]
    refine ⟨fun a ha => ?_, count_guarded_of_head (head?_fail _) o⟩
    rcases hbody a ha with hreport | ⟨p, -, rfl⟩
    · rw [count_guarded_of_head (head?_of_mem_reports hreport),
        invalidatedName?_of_mem_reports hreport]
      rfl
    · exact count_guarded_releaseIfHeld p o
  rw [count_flatMap_of_count hlines, invalidated_handler h, count_borrowed hnames ho]

/-- The trampoline of a callback whose arguments have names of their own respects ownership. -/
theorem respectsOwnership_of_ofCallback {name : String} {c : Callback}
    (hdistinct : (c.args.map Argument.name).Nodup) (h : ofCallback name c = .ok t) :
    t.RespectsOwnership name c := by
  obtain ⟨⟨args, user, hargs, huser, hfor⟩, hvalue⟩ := parts_of_ofCallback h
  have hnames : (t.objects.map (·.name)).Nodup := by
    rw [hargs, List.map_append, List.map_map] at hdistinct
    rw [CallbackObject.map_name_of_forall₂ hfor]
    exact (List.nodup_append.mp hdistinct).1
  constructor
  case parameters => exact ⟨args, user, hargs, huser, hfor⟩
  case code => rw [t.code_eq_text, text, body, (fields_of_ofCallback h).1]
  case setupLines => exact t.setup_lines
  case returnLines => exact t.onReturn_lines
  case exceptionLines => exact t.onException_lines
  case errorLines => exact t.onError_lines
  case setup => exact t.invalidated_setup
  case wraps =>
    intro o ho
    have hwrapped : t.onReturn.filterMap wrappedName? = t.objects.map (·.name) := by
      rw [onReturn_eq, List.filterMap_append, wrapped_working]
      exact List.append_nil _
    rw [hwrapped, hnames.count, if_pos (List.mem_map_of_mem ho)]
  case passes => exact passes_onReturn hnames
  case exits =>
    intro acts hacts o ho
    have hinvalidated : acts.filterMap invalidatedName? = t.borrowed.map (·.name) := by
      rcases List.mem_cons.mp hacts with rfl | hacts
      · exact t.invalidated_onReturn
      · exact invalidated_handler hacts
    rw [hinvalidated, count_borrowed hnames ho]
  case released =>
    intro before a after hcut ha
    exact released_onReturn hcut ha
  case guarded =>
    intro acts hacts before a after hcut ha
    exact guarded_handler hacts hcut ha
  case guardedLines =>
    intro acts hacts o ho
    exact count_guarded_handler hacts hnames ho
  case errorValue => exact hvalue
  case errors =>
    intro acts hacts
    obtain ⟨body, rfl, hbody⟩ := exists_of_mem_handlers hacts
    refine ⟨body, rfl, fun a ha r => ?_, ?_⟩
    · rcases hbody a ha with hreport | ⟨o, -, rfl⟩
      · constructor <;> rintro rfl <;> simp [reports] at hreport
      · simp
    · rw [List.flatMap_append]
      rfl
  case returns => exact exists_returns hnames
  case fails =>
    intro done rest hcut hrest acts hacts
    exact exists_fails hnames hcut hrest hacts

end Trampoline

/-- The callback
`isl_bool (*test)(__isl_keep isl_set *set, __isl_take isl_map *map, __isl_keep isl_set *hull,
void *user)`. -/
def sampleLendingCallback : Callback where
  name := "test"
  result := { ownership := none, base := "isl_bool", depth := .value }
  args := [
    .value { name := "set", isConst := false,
             type := { ownership := some .keep, base := "isl_set", depth := .pointer } },
    .value { name := "map", isConst := false,
             type := { ownership := some .take, base := "isl_map", depth := .pointer } },
    .value { name := "hull", isConst := false,
             type := { ownership := some .keep, base := "isl_set", depth := .pointer } },
    .value { name := "user", isConst := false,
             type := { ownership := none, base := "void", depth := .pointer } }]

theorem Trampoline.respectsOwnership_sampleLending :
    ∃ t, ofCallback "cb_map_test" sampleLendingCallback = .ok t ∧
      t.RespectsOwnership "cb_map_test" sampleLendingCallback ∧
      t.objects.map (fun o => (o.name, o.isBorrowed)) =
        [("set", true), ("map", false), ("hull", true)] ∧
      t.conversion.errorValue = "isl_bool_error" := by
  have hdistinct : (sampleLendingCallback.args.map Argument.name).Nodup := by decide
  obtain ⟨t, ht, hobjects⟩ : ∃ t, ofCallback "cb_map_test" sampleLendingCallback = .ok t ∧
      t.objects.map (fun o => (o.name, o.isBorrowed)) =
        [("set", true), ("map", false), ("hull", true)] ∧
      t.conversion.errorValue = "isl_bool_error" := ⟨_, rfl, rfl, rfl⟩
  exact ⟨t, ht, respectsOwnership_of_ofCallback hdistinct ht, hobjects⟩

end IslBindings
