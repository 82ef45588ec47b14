import IslBindings.Proofs.Registration
import IslBindings.Proofs.Wrapper.Stages

/-!
# The context of a wrapper

A wrapper has its context from an object that it is given, or, as far as it makes a value of an
integer, from the default. The statements that come before the call are followed here to find the
context that old errors are forgotten in, and that errors of the call are translated with. It is
that of the first object if this is the first argument, and none of the objects' otherwise.
-/

namespace IslBindings

/-! ### Contexts -/

/-- Where a context comes from. -/
inductive ContextSource where
  | object (cls name : String)
  | default
  deriving DecidableEq, Repr

namespace Statement

/-- The context after a statement; the callers pass integers for some values. -/
def contextAfter (isInteger : String → Bool) (context : Option ContextSource) :
    Statement → Option ContextSource
  | .declareContext => none
  | .setContext cls name => some (.object cls name)
  | .takeValue name => if context.isNone && isInteger name then some .default else context
  | _ => context

def touchesContext : Statement → Bool
  | .declareContext => true
  | .setContext .. => true
  | .takeValue _ => true
  | _ => false

/-- Looks at an argument, or makes a value or a copy of it. -/
def isCheck : Statement → Bool
  | .bindReceiver .. => true
  | .requireValid .. => true
  | .copyHandle .. => true
  | .takeValue _ => true
  | _ => false

/-- An error of the call is translated here. -/
def raises : Statement → Bool
  | .failIf .. => true
  | .repoint .. => true
  | .giveObject .. => true
  | _ => false

section ContextAfter

variable {isInteger : String → Bool} {context : Option ContextSource} {t : Statement}
  {l : List Statement}

theorem contextAfter_of_not_touches (h : t.touchesContext = false) :
    contextAfter isInteger context t = context := by
  cases t <;> first | rfl | cases h

theorem foldl_contextAfter_of_not_touches (h : ∀ t ∈ l, t.touchesContext = false) :
    l.foldl (contextAfter isInteger) context = context := by
  induction l with
  | nil => rfl
  | cons t l ih =>
    obtain ⟨ht, hl⟩ := List.forall_mem_cons.mp h
    rw [List.foldl_cons, contextAfter_of_not_touches ht, ih hl]

theorem stage_of_touches (h : t.touchesContext = true) : t.stage = .preparation := by
  cases t <;> first | rfl | cases h

theorem not_raises_of_isCheck (h : t.isCheck = true) : t.raises = false := by
  cases t <;> first | rfl | cases h

theorem not_touches_of_allIn {stage : Stage} (hl : AllIn stage l) (hstage : stage ≠ .preparation) :
    ∀ t ∈ l, t.touchesContext = false := by
  intro t ht
  rw [Bool.eq_false_iff]
  intro htouches
  exact hstage ((hl t ht).symm.trans (stage_of_touches htouches))

end ContextAfter

end Statement

/-! ### What arguments do to the context -/

namespace ArgShape

/-- The context after an argument. -/
def contextAfter (isInteger : String → Bool) (context : Option ContextSource) :
    Nat × ArgShape → Option ContextSource
  | (0, .handle arg cls) => some (.object cls arg.name)
  | (_, .valueOrInt arg) =>
    if context.isNone && isInteger arg.name then some .default else context
  | _ => context

/-- An object that the caller gives, with its class. -/
def object? : Nat × ArgShape → Option (Nat × ValueArgument × String)
  | (index, .handle arg cls) => some (index, arg, cls)
  | _ => none

theorem eq_of_object? {p : Nat × ArgShape} {index : Nat} {arg : ValueArgument} {cls : String}
    (h : object? p = some (index, arg, cls)) : p = (index, .handle arg cls) := by
  obtain ⟨i, s⟩ := p
  cases s <;> cases h
  rfl

/-- A value for which the caller passes an integer. -/
def isInteger (isInteger : String → Bool) : ArgShape → Bool
  | .valueOrInt arg => isInteger arg.name
  | _ => false

end ArgShape

namespace Contribution

variable {m : Method} {index : Nat} {arg : ValueArgument} {cls : String} {c : Contribution}

theorem foldl_contextFrom (isInteger : String → Bool) (context : Option ContextSource) (index : Nat)
    (cls name : String) :
    (contextFrom index cls name).foldl (Statement.contextAfter isInteger) context =
      if index = 0 then some (.object cls name) else context := by
  rw [contextFrom]
  split <;> rfl

theorem checks_of_ofHandle (h : ofHandle m index arg cls = .ok c) :
    ∃ before, c.checks = before ++ contextFrom index cls arg.name ∧
      .requireValid m.wrapperName arg.name ∈ before ∧
      ∀ t ∈ before, t.isCheck = true ∧ t.touchesContext = false := by
  rcases of_ofHandle h with ⟨-, -, rfl⟩ | ⟨-, -, rfl⟩ | ⟨-, -, rfl⟩ | ⟨-, rfl⟩
  case inl => exact ⟨[_, _], rfl, by simp, by simp [Statement.isCheck, Statement.touchesContext]⟩
  case inr.inl =>
    exact ⟨[_, _], rfl, by simp, by simp [Statement.isCheck, Statement.touchesContext]⟩
  case inr.inr.inl =>
    exact ⟨[_], rfl, by simp, by simp [Statement.isCheck, Statement.touchesContext]⟩
  case inr.inr.inr =>
    exact ⟨[_], rfl, by simp, by simp [Statement.isCheck, Statement.touchesContext]⟩

/-- Only the first argument sets the context, if it is an object. -/
theorem of_mem_checks {p : Nat × ArgShape} (h : ofShape m p = .ok c) {t : Statement}
    (ht : t ∈ c.checks) :
    t.isCheck = true ∨ ∃ arg cls, p = (0, .handle arg cls) ∧ t = .setContext cls arg.name := by
  obtain ⟨index, s⟩ := p
  cases s with
  | callback cb =>
    obtain ⟨-, -, hchecks, -⟩ := of_ofCallback h
    rw [hchecks] at ht
    cases ht
  | valueOrInt arg =>
    rw [(of_ofValueOrInt h).2.1, List.mem_singleton] at ht
    exact .inl (ht ▸ rfl)
  | handle arg cls =>
    obtain ⟨before, hchecks, -, hbefore⟩ := checks_of_ofHandle h
    rw [hchecks, List.mem_append] at ht
    rcases ht with ht | ht
    · exact .inl (hbefore t ht).1
    · rw [contextFrom] at ht
      split at ht
      · next hindex =>
        rw [List.mem_singleton] at ht
        exact .inr ⟨arg, cls, by rw [hindex], ht⟩
      · cases ht
  | handleOut arg cls =>
    rw [(of_ofHandleOut h).2.1] at ht
    cases ht
  | _ =>
    cases h
    cases ht

theorem of_mem_locals {p : Nat × ArgShape} (h : ofShape m p = .ok c) {t : Statement}
    (ht : t ∈ c.locals) :
    (∃ base name, t = .declareFlag base name) ∨ ∃ cls name, t = .declareObject cls name := by
  obtain ⟨index, s⟩ := p
  cases s with
  | callback cb =>
    obtain ⟨-, -, -, hlocals, -⟩ := of_ofCallback h
    rw [hlocals] at ht
    cases ht
  | valueOrInt arg =>
    rw [(of_ofValueOrInt h).2.2.1] at ht
    cases ht
  | handle arg cls =>
    rcases of_ofHandle h with ⟨-, -, rfl⟩ | ⟨-, -, rfl⟩ | ⟨-, -, rfl⟩ | ⟨-, rfl⟩
    all_goals cases ht
  | handleOut arg cls =>
    rw [(of_ofHandleOut h).2.2.1, List.mem_singleton] at ht
    exact .inr ⟨cls, arg.name, ht⟩
  | flag arg =>
    cases h
    exact .inl ⟨arg.type.base, arg.name, List.mem_singleton.mp ht⟩
  | _ =>
    cases h
    cases ht

variable {isInteger : String → Bool} {context : Option ContextSource}

theorem foldl_checks {p : Nat × ArgShape} (h : ofShape m p = .ok c) :
    c.checks.foldl (Statement.contextAfter isInteger) context =
      ArgShape.contextAfter isInteger context p := by
  obtain ⟨index, s⟩ := p
  cases s with
  | callback cb =>
    obtain ⟨-, -, hchecks, -⟩ := of_ofCallback h
    rw [hchecks]
    cases index <;> rfl
  | valueOrInt arg =>
    rw [(of_ofValueOrInt h).2.1]
    cases index <;> rfl
  | handle arg cls =>
    obtain ⟨before, hchecks, -, hbefore⟩ := checks_of_ofHandle h
    rw [hchecks, List.foldl_append, foldl_contextFrom,
      Statement.foldl_contextAfter_of_not_touches fun t ht => (hbefore t ht).2]
    cases index <;> rfl
  | handleOut arg cls =>
    rw [(of_ofHandleOut h).2.1]
    cases index <;> rfl
  | _ =>
    cases h
    cases index <;> rfl

theorem not_setContext_flatMap_checks {shapes : List (Nat × ArgShape)} {cs : List Contribution}
    (hrun : shapes.mapM (ofShape m) = .ok cs) (h : ∀ arg cls, (0, .handle arg cls) ∉ shapes)
    (cls name : String) : .setContext cls name ∉ cs.flatMap (·.checks) := by
  intro hmem
  obtain ⟨c, hc, hmem⟩ := List.mem_flatMap.mp hmem
  obtain ⟨p, hp, hof⟩ := exists_of_mem_mapM hrun hc
  rcases of_mem_checks hof hmem with hcheck | ⟨arg, cls', rfl, -⟩
  · cases hcheck
  · exact h arg cls' hp

theorem foldl_flatMap_checks {shapes : List (Nat × ArgShape)} {cs : List Contribution}
    (h : shapes.mapM (ofShape m) = .ok cs) :
    (cs.flatMap (·.checks)).foldl (Statement.contextAfter isInteger) context =
      shapes.foldl (ArgShape.contextAfter isInteger) context := by
  induction shapes generalizing cs context with
  | nil =>
    cases h
    rfl
  | cons p shapes ih =>
    obtain ⟨c, cs, hc, hcs, rfl⟩ := exists_of_mapM_cons h
    rw [List.flatMap_cons, List.foldl_append, foldl_checks hc, ih hcs, List.foldl_cons]

end Contribution

/-! ### The first argument -/

namespace ArgShape

variable {isInteger : String → Bool} {context : Option ContextSource}
  {shapes : List (Nat × ArgShape)}

theorem contextAfter_eq {p : Nat × ArgShape} (h : ∀ arg cls, p ≠ (0, .handle arg cls)) :
    contextAfter isInteger context p =
      if context.isNone && p.2.isInteger isInteger then some .default else context := by
  obtain ⟨index, s⟩ := p
  cases s with
  | handle arg cls =>
    cases index with
    | zero => exact absurd rfl (h arg cls)
    | succ index => simp [contextAfter, ArgShape.isInteger]
  | valueOrInt arg => cases index <;> rfl
  | _ => cases index <;> simp [contextAfter, ArgShape.isInteger]

/-- Without an object in the first place, integers lead to the default. -/
theorem foldl_contextAfter (h : ∀ arg cls, (0, .handle arg cls) ∉ shapes) :
    shapes.foldl (contextAfter isInteger) context =
      if context.isNone && shapes.any (·.2.isInteger isInteger) then some .default
      else context := by
  induction shapes generalizing context with
  | nil => simp
  | cons p shapes ih =>
    have hp : ∀ arg cls, p ≠ (0, .handle arg cls) := fun arg cls heq =>
      h arg cls (heq ▸ List.mem_cons_self)
    have hshapes : ∀ arg cls, (0, .handle arg cls) ∉ shapes := fun arg cls hmem =>
      h arg cls (List.mem_cons_of_mem p hmem)
    rw [List.foldl_cons, ih hshapes, contextAfter_eq hp, List.any_cons]
    cases context with
    | some source => simp
    | none =>
      cases p.2.isInteger isInteger with
      | true => simp
      | false => rfl

theorem mem_of_first {first : Nat} {arg : ValueArgument} {cls : String}
    (hfirst : shapes.findSome? object? = some (first, arg, cls)) :
    (first, .handle arg cls) ∈ shapes := by
  obtain ⟨p, hp, hobject⟩ := List.exists_of_findSome?_eq_some hfirst
  exact eq_of_object? hobject ▸ hp

namespace Shapes

variable {index : Nat} {args : List Argument}

theorem eq_cons_of_mem (h : Shapes index args shapes) {s : ArgShape} (hmem : (index, s) ∈ shapes) :
    ∃ rest, shapes = (index, s) :: rest ∧ ∀ p ∈ rest, index < p.1 := by
  cases h with
  | nil => cases hmem
  | value _ hrest =>
    rcases List.mem_cons.mp hmem with heq | hmem
    · exact ⟨_, by rw [heq], fun p hp => hrest.le hp⟩
    · exact absurd (hrest.le hmem) (Nat.not_succ_le_self index)
  | callback hrest =>
    rcases List.mem_cons.mp hmem with heq | hmem
    · exact ⟨_, by rw [heq], fun p hp => Nat.lt_of_succ_lt (hrest.le hp)⟩
    · exact absurd (Nat.lt_of_succ_lt (hrest.le hmem)) (Nat.lt_irrefl index)

/-- The first object is the first argument, or no object is. -/
theorem eq_zero_of_mem (h : Shapes 0 args shapes) {p : Nat × ValueArgument × String}
    {arg : ValueArgument} {cls : String} (hfirst : shapes.findSome? object? = some p)
    (hmem : (0, .handle arg cls) ∈ shapes) : p.1 = 0 := by
  obtain ⟨rest, rfl, -⟩ := h.eq_cons_of_mem hmem
  cases hfirst
  rfl

end Shapes

end ArgShape

/-! ### The statements of a body -/

namespace Wrapper

/-- The statements before old errors are forgotten. -/
def preparation (w : Wrapper) : List Statement := [.declareContext] ++ w.checks ++ w.locals

/-- The call, and what forgets or translates errors. -/
def UsesContext (w : Wrapper) (t : Statement) : Prop :=
  t = .resetError ∨ t = w.callStatement ∨ t.raises = true

/-- The context that a statement finds, given the ones before it. -/
def contextOf (isInteger : String → Bool) (before : List Statement) : Option ContextSource :=
  before.foldl (Statement.contextAfter isInteger) none

def rest (w : Wrapper) : List Statement :=
  .resetError :: w.callStatement :: (w.fixups ++ w.conversion.statements)

theorem body_eq (w : Wrapper) : w.body = w.preparation ++ w.rest := by
  simp [body, beforeCall, preparation, rest]

section OfShapes

variable {m : Method} {w : Wrapper} {shapes : List (Nat × ArgShape)} {isInteger : String → Bool}

theorem not_usesContext_of_mem (hrun : shapes.mapM (Contribution.ofShape m) = .ok w.contributions)
    {t : Statement} (ht : t ∈ w.preparation) : ¬w.UsesContext t := by
  suffices t ≠ .resetError ∧ t ≠ w.callStatement ∧ t.raises = false by
    rintro (h | h | h)
    · exact this.1 h
    · exact this.2.1 h
    · exact Bool.false_ne_true (this.2.2.symm.trans h)
  rw [preparation, List.mem_append, List.mem_append, List.mem_singleton, checks, locals,
    List.mem_flatMap, List.mem_flatMap] at ht
  rcases ht with (rfl | ⟨c, hc, ht⟩) | ⟨c, hc, ht⟩
  · exact ⟨nofun, nofun, rfl⟩
  · obtain ⟨p, -, hp⟩ := exists_of_mem_mapM hrun hc
    rcases Contribution.of_mem_checks hp ht with hcheck | ⟨arg, cls, -, rfl⟩
    · refine ⟨?_, ?_, Statement.not_raises_of_isCheck hcheck⟩
      · rintro rfl
        cases hcheck
      · rintro rfl
        cases hcheck
    · exact ⟨nofun, nofun, rfl⟩
  · obtain ⟨p, -, hp⟩ := exists_of_mem_mapM hrun hc
    rcases Contribution.of_mem_locals hp ht with ⟨base, name, rfl⟩ | ⟨cls, name, rfl⟩
    all_goals exact ⟨nofun, nofun, rfl⟩

theorem not_touches_locals (hrun : shapes.mapM (Contribution.ofShape m) = .ok w.contributions) :
    ∀ t ∈ w.locals, t.touchesContext = false := by
  intro t ht
  obtain ⟨c, hc, ht⟩ := List.mem_flatMap.mp ht
  obtain ⟨p, -, hp⟩ := exists_of_mem_mapM hrun hc
  rcases Contribution.of_mem_locals hp ht with ⟨base, name, rfl⟩ | ⟨cls, name, rfl⟩
  all_goals rfl

theorem not_touches_rest (hw : w.IsStaged) : ∀ t ∈ w.rest, t.touchesContext = false := by
  have hfixups := Statement.not_touches_of_allIn hw.release nofun
  have hconversion := Statement.not_touches_of_allIn hw.conversion nofun
  have hcall : w.callStatement.touchesContext = false := rfl
  simp only [rest, List.forall_mem_cons, List.forall_mem_append]
  exact ⟨rfl, hcall, hfixups, hconversion⟩

theorem contextOf_preparation (hrun : shapes.mapM (Contribution.ofShape m) = .ok w.contributions) :
    contextOf isInteger w.preparation = shapes.foldl (ArgShape.contextAfter isInteger) none := by
  rw [contextOf, preparation, List.foldl_append, List.foldl_append,
    Statement.foldl_contextAfter_of_not_touches (not_touches_locals hrun), checks]
  exact Contribution.foldl_flatMap_checks hrun

/-- Where the context is used, it is the one that the arguments have led to. -/
theorem contextOf_eq (hw : w.IsStaged)
    (hrun : shapes.mapM (Contribution.ofShape m) = .ok w.contributions)
    {before after : List Statement} {t : Statement} (hbody : w.body = before ++ t :: after)
    (ht : w.UsesContext t) :
    contextOf isInteger before = shapes.foldl (ArgShape.contextAfter isInteger) none := by
  rw [body_eq, List.append_eq_append_iff] at hbody
  rcases hbody with ⟨middle, rfl, hrest⟩ | ⟨middle, hpreparation, hrest⟩
  · have hmiddle : ∀ s ∈ middle, s.touchesContext = false := fun s hs =>
      not_touches_rest hw s (by rw [hrest]; exact List.mem_append_left _ hs)
    rw [← contextOf_preparation hrun, contextOf, List.foldl_append,
      Statement.foldl_contextAfter_of_not_touches hmiddle]
    rfl
  · cases middle with
    | nil => rw [← contextOf_preparation hrun, hpreparation, List.append_nil]
    | cons s middle =>
      obtain ⟨rfl, -⟩ := List.cons.inj hrest
      have hmem : t ∈ w.preparation := by simp [hpreparation]
      exact absurd ht (not_usesContext_of_mem hrun hmem)

theorem not_setContext_of_not_touches {l : List Statement} (h : ∀ t ∈ l, t.touchesContext = false)
    (cls name : String) : .setContext cls name ∉ l := fun hmem => by cases h _ hmem

/-! ### Where the context comes from -/

/-- The context is that of the first argument, an object that has been found valid. -/
structure TakesContext (w : Wrapper) (m : Method) (arg : ValueArgument) (cls : String) : Prop where
  set : ∃ before after, w.body = before ++ .setContext cls arg.name :: after ∧
    .requireValid m.wrapperName arg.name ∈ before ∧ .resetError ∈ after ∧
    w.callStatement ∈ after ∧ ∀ c name, .setContext c name ∉ before ++ after
  spelled : (Statement.setContext cls arg.name).lines =
    if cls = "ctx" then ["islpy_ctx = arg_" ++ arg.name ++ ".m_data;"]
    else ["islpy_ctx = isl_" ++ cls ++ "_get_ctx(arg_" ++ arg.name ++ ".m_data);"]
  used : ∀ isInteger before t after, w.body = before ++ t :: after → w.UsesContext t →
    contextOf isInteger before = some (.object cls arg.name)

/-- The context is that of no object; an integer that is made a value gives the default. -/
structure LacksContext (w : Wrapper) (shapes : List (Nat × ArgShape)) : Prop where
  unset : ∀ cls name, .setContext cls name ∉ w.body
  used : ∀ isInteger before t after, w.body = before ++ t :: after → w.UsesContext t →
    contextOf isInteger before =
      if shapes.any (·.2.isInteger isInteger) then some .default else none

theorem lacksContext (hw : w.IsStaged)
    (hrun : shapes.mapM (Contribution.ofShape m) = .ok w.contributions)
    (h : ∀ arg cls, (0, .handle arg cls) ∉ shapes) : w.LacksContext shapes where
  unset cls name := by
    have hchecks := Contribution.not_setContext_flatMap_checks hrun h cls name
    have hlocals := not_setContext_of_not_touches (not_touches_locals hrun) cls name
    have hrest := not_setContext_of_not_touches (not_touches_rest hw) cls name
    rw [body_eq, preparation, checks]
    simp [hchecks, hlocals, hrest]
  used isInteger before t after hbody ht := by
    rw [contextOf_eq hw hrun hbody ht, ArgShape.foldl_contextAfter h]
    rfl

theorem takesContext (hw : w.IsStaged) {arg : ValueArgument} {cls : String}
    (hrun : ((0, .handle arg cls) :: shapes).mapM (Contribution.ofShape m) = .ok w.contributions)
    (h : ∀ p ∈ shapes, 0 < p.1) : w.TakesContext m arg cls := by
  have hothers : ∀ arg cls, (0, .handle arg cls) ∉ shapes := fun arg cls hmem =>
    Nat.lt_irrefl 0 (h _ hmem)
  constructor
  case set =>
    obtain ⟨c, cs, hc, hcs, hcontributions⟩ := exists_of_mapM_cons hrun
    obtain ⟨before, hchecks, hvalid, hbefore⟩ := Contribution.checks_of_ofHandle hc
    refine ⟨.declareContext :: before, cs.flatMap (·.checks) ++ w.locals ++ w.rest, ?_, ?_⟩
    · rw [body_eq, preparation, checks, hcontributions, List.flatMap_cons, hchecks,
        Contribution.contextFrom]
      simp
    · have hfirst := not_setContext_of_not_touches fun t ht => (hbefore t ht).2
      have hflat := Contribution.not_setContext_flatMap_checks hcs hothers
      have hlocals := not_setContext_of_not_touches (not_touches_locals hrun)
      have hrest := not_setContext_of_not_touches (not_touches_rest hw)
      refine ⟨List.mem_cons_of_mem _ hvalid, by simp [rest], by simp [rest], fun c name => ?_⟩
      simp [hfirst c name, hflat c name, hlocals c name, hrest c name]
  case spelled => rfl
  case used =>
    intro isInteger before t after hbody ht
    have hset : ArgShape.contextAfter isInteger none (0, .handle arg cls) =
        some (.object cls arg.name) := rfl
    rw [contextOf_eq hw hrun hbody ht, List.foldl_cons, hset, ArgShape.foldl_contextAfter hothers]
    rfl

end OfShapes

end Wrapper

/-! ### The first object -/

namespace Method

variable {m : Method} {w : Wrapper} {shapes : List (Nat × ArgShape)} {index : Nat}
  {arg : ValueArgument} {cls : String}

theorem context_of_wrap (hw : m.wrap = .wrapped w) (hshapes : m.argShapes = .ok shapes)
    (hfirst : shapes.findSome? ArgShape.object? = some (index, arg, cls)) :
    (index = 0 → w.TakesContext m arg cls) ∧ (index ≠ 0 → w.LacksContext shapes) := by
  obtain ⟨shapes', -, -, hshapes', hrun, -⟩ := exists_of_wrap hw
  obtain rfl : shapes' = shapes := Except.ok.inj (hshapes'.symm.trans hshapes)
  have hstaged := isStaged_of_wrap hw
  have hof := ArgShape.shapes_of_ofArguments hshapes
  constructor
  · rintro rfl
    obtain ⟨rest, rfl, hrest⟩ := hof.eq_cons_of_mem (ArgShape.mem_of_first hfirst)
    exact Wrapper.takesContext hstaged hrun hrest
  · intro hindex
    exact Wrapper.lacksContext hstaged hrun fun arg cls hmem =>
      hindex (hof.eq_zero_of_mem hfirst hmem)

/-- The first object of a wrapped method supplies the context if it is the first argument. If it is
not, no object does, and the context of the call and of its errors is none or the default. -/
theorem context_of_wrapOrVeto (hw : m.wrapOrVeto = .wrapped w) (hshapes : m.argShapes = .ok shapes)
    (hfirst : shapes.findSome? ArgShape.object? = some (index, arg, cls)) :
    (index = 0 → w.TakesContext m arg cls) ∧ (index ≠ 0 → w.LacksContext shapes) := by
  simp only [wrapOrVeto] at hw
  split at hw
  · have hveto := context_of_wrap (m := m.veto) hw hshapes hfirst
    exact ⟨fun hindex => ⟨(hveto.1 hindex).set, (hveto.1 hindex).spelled, (hveto.1 hindex).used⟩,
      hveto.2⟩
  · exact context_of_wrap hw hshapes hfirst

/-- The first object among the arguments. -/
def firstObject? (m : Method) : Option (Nat × ValueArgument × String) :=
  m.argShapes.toOption.bind (·.findSome? ArgShape.object?)

theorem exists_of_firstObject? (h : m.firstObject? = some (index, arg, cls)) :
    ∃ shapes, m.argShapes = .ok shapes ∧
      shapes.findSome? ArgShape.object? = some (index, arg, cls) := by
  obtain ⟨shapes, hshapes, hfirst⟩ := Option.bind_eq_some_iff.mp h
  exact ⟨shapes, eq_ok_of_toOption hshapes, hfirst⟩

theorem context_of_wrapOrVeto_withReceiver :
    ∃ m ∈ Registration.withReceiver.methods, ∃ w shapes arg, m.wrapOrVeto = .wrapped w ∧
      m.argShapes = .ok shapes ∧ shapes.findSome? ArgShape.object? = some (0, arg, "set") ∧
      w.TakesContext m arg "set" := by
  have hsubset : ∃ m ∈ Registration.withReceiver.methods, ∃ w, m.wrapOrVeto = .wrapped w ∧
      m.firstObject? = some (0, ⟨"self", false, ⟨some .keep, "isl_set", .pointer⟩⟩, "set") :=
    Registry.exists_wrapped_of_any (by decide +kernel)
  obtain ⟨m, hm, w, hw, hfirst⟩ := hsubset
  obtain ⟨shapes, hshapes, hfirst⟩ := exists_of_firstObject? hfirst
  exact ⟨m, hm, w, shapes, _, hw, hshapes, hfirst, (context_of_wrapOrVeto hw hshapes hfirst).1 rfl⟩

/-- The only object comes after an integer. -/
def withLaterObject : Registry :=
  (Registry.empty.addAll ["isl_stat isl_set_f(int x, __isl_keep isl_set *set);"]).1

/-- The error of the call is translated without a context. -/
theorem no_context_withLaterObject :
    withLaterObject.Reachable ∧ ∃ m ∈ withLaterObject.methods, ∃ w, m.wrapOrVeto = .wrapped w ∧
      (m.firstObject?.map fun p => (p.1, p.2.1.name, p.2.2)) = some (1, "set", "set") ∧
      w.body = [.declareContext, .requireValid "set_f" "set", .resetError, w.callStatement,
        .failIf "result == isl_stat_error" "set_f", .giveResult] ∧
      ∀ isInteger, Wrapper.contextOf isInteger
        [.declareContext, .requireValid "set_f" "set", .resetError, w.callStatement] = none := by
  have hlater : ∃ m ∈ withLaterObject.methods, ∃ w, m.wrapOrVeto = .wrapped w ∧
      (m.firstObject?.map fun p => (p.1, p.2.1.name, p.2.2)) = some (1, "set", "set") ∧
      w.body = [.declareContext, .requireValid "set_f" "set", .resetError, w.callStatement,
        .failIf "result == isl_stat_error" "set_f", .giveResult] :=
    Registry.exists_wrapped_of_any (by decide +kernel)
  obtain ⟨m, hm, w, hw, hfirst, hbody⟩ := hlater
  exact ⟨Registry.Reachable.empty.addAll _, m, hm, w, hw, hfirst, hbody, fun isInteger => rfl⟩

end Method

end IslBindings
