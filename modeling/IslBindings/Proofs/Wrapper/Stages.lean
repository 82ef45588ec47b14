import IslBindings.Proofs.Code.Layout
import IslBindings.Proofs.Wrapper.Contribution
import IslBindings.Wrapper

/-!
# Stages of a body

The body of a wrapper prepares the call, calls, lets go of what the function has taken, and
converts the result. Each statement belongs to one of these stages, and no statement stands
after one of a later stage.
-/

namespace IslBindings

inductive Stage where
  | preparation
  | call
  | release
  /-- The result of the call is looked at, or the wrapper returns. -/
  | conversion
  deriving DecidableEq, Repr

def Stage.rank : Stage → Nat
  | .preparation => 0
  | .call => 1
  | .release => 2
  | .conversion => 3

namespace Statement

def stage : Statement → Stage
  | .declareContext => .preparation
  | .bindReceiver .. => .preparation
  | .requireValid .. => .preparation
  | .copyHandle .. => .preparation
  | .takeValue _ => .preparation
  | .setContext .. => .preparation
  | .declareFlag .. => .preparation
  | .declareObject .. => .preparation
  | .resetError => .preparation
  | .call .. => .call
  | .invalidate _ => .release
  | .wrapObject .. => .release
  | .failIf .. => .conversion
  | .give _ => .conversion
  | .giveResult => .conversion
  | .repoint .. => .conversion
  | .giveObject .. => .conversion
  | .noneUnlessResult => .conversion
  | .castText => .conversion
  | .freeText => .conversion
  | .giveText => .conversion
  | .giveUserObject => .conversion

end Statement

def AllIn (stage : Stage) (l : List Statement) : Prop := ∀ t ∈ l, t.stage = stage

section AllIn

variable {stage : Stage} {l : List Statement}

theorem allIn_nil : AllIn stage [] := fun t ht => by simp at ht

theorem allIn_cons {t : Statement} (ht : t.stage = stage) (hl : AllIn stage l) :
    AllIn stage (t :: l) :=
  List.forall_mem_cons.mpr ⟨ht, hl⟩

theorem AllIn.append {l' : List Statement} (hl : AllIn stage l) (hl' : AllIn stage l') :
    AllIn stage (l ++ l') :=
  List.forall_mem_append.mpr ⟨hl, hl'⟩

theorem allIn_flatMap {α : Type} {f : α → List Statement} {as : List α}
    (h : ∀ a ∈ as, AllIn stage (f a)) : AllIn stage (as.flatMap f) := by
  intro t ht
  obtain ⟨a, ha, hta⟩ := List.mem_flatMap.mp ht
  exact h a ha t hta

theorem AllIn.count_invalidate (hl : AllIn stage l) (hstage : stage ≠ .release) (h : Held) :
    l.count (.invalidate h) = 0 := by
  rw [List.count_eq_zero]
  intro hmem
  exact hstage (hl _ hmem).symm

theorem AllIn.pairwise (hl : AllIn stage l) :
    l.Pairwise (fun s t => s.stage.rank ≤ t.stage.rank) := by
  induction l with
  | nil => exact .nil
  | cons t l ih =>
    have htail := List.forall_mem_cons.mp hl
    refine .cons (fun s hs => ?_) (ih htail.2)
    have hstage : t.stage = s.stage := htail.1.trans (htail.2 s hs).symm
    exact Nat.le_of_eq (congrArg Stage.rank hstage)

end AllIn

namespace Wrapper

/-- Every part of the body stands in a stage of its own. -/
structure IsStaged (w : Wrapper) : Prop where
  preparation : AllIn .preparation w.beforeCall
  release : AllIn .release w.fixups
  conversion : AllIn .conversion w.conversion.statements

namespace IsStaged

variable {w : Wrapper}

theorem pairwise_body (hw : w.IsStaged) :
    w.body.Pairwise (fun s t => s.stage.rank ≤ t.stage.rank) := by
  have hcall : AllIn .call [w.callStatement] := allIn_cons rfl allIn_nil
  have hbefore : ∀ s ∈ w.beforeCall ++ [w.callStatement], s.stage.rank ≤ 1 := by
    refine List.forall_mem_append.mpr ⟨fun s hs => ?_, fun s hs => ?_⟩
    · rw [hw.preparation s hs]
      exact Nat.zero_le 1
    · rw [hcall s hs]
      exact Nat.le_refl 1
  have hearly : ∀ s ∈ w.beforeCall ++ [w.callStatement] ++ w.fixups, s.stage.rank ≤ 2 := by
    refine List.forall_mem_append.mpr ⟨fun s hs => ?_, fun s hs => ?_⟩
    · have hs := hbefore s hs
      omega
    · rw [hw.release s hs]
      exact Nat.le_refl 2
  rw [body, List.pairwise_append, List.pairwise_append, List.pairwise_append]
  refine ⟨⟨⟨hw.preparation.pairwise, hcall.pairwise, ?_⟩, hw.release.pairwise, ?_⟩,
    hw.conversion.pairwise, ?_⟩
  · intro s hs t ht
    rw [hw.preparation s hs]
    exact Nat.zero_le _
  · intro s hs t ht
    have hs := hbefore s hs
    rw [hw.release t ht]
    exact Nat.le_succ_of_le hs
  · intro s hs t ht
    have hs := hearly s hs
    rw [hw.conversion t ht]
    exact Nat.le_succ_of_le hs

theorem stage_of_eq_append (hw : w.IsStaged) {before after : List Statement} {h : Held}
    (hbody : w.body = before ++ .invalidate h :: after) :
    w.callStatement ∈ before ∧ ∀ t ∈ before, t.stage ≠ .conversion := by
  have hpairwise := hw.pairwise_body
  -- What stands before the release has a stage up to it, what stands after it one from it on.
  rw [hbody, List.pairwise_append, List.pairwise_cons] at hpairwise
  obtain ⟨-, ⟨hafter, -⟩, hbefore⟩ := hpairwise
  constructor
  · have hmem : w.callStatement ∈ before ++ .invalidate h :: after := by
      rw [← hbody, body]
      simp
    rcases List.mem_append.mp hmem with hmem | hmem
    · exact hmem
    · rcases List.mem_cons.mp hmem with heq | hmem
      · cases heq
      · have hle : 2 ≤ 1 := hafter _ hmem
        omega
  · intro t ht hstage
    have hle : t.stage.rank ≤ 2 := hbefore t ht _ (List.mem_cons_self ..)
    rw [hstage] at hle
    have hle : 3 ≤ 2 := hle
    omega

theorem count_body (hw : w.IsStaged) (h : Held) :
    w.body.count (.invalidate h) = w.fixups.count (.invalidate h) := by
  have hcall : AllIn .call [w.callStatement] := allIn_cons rfl allIn_nil
  rw [body, List.count_append, List.count_append, List.count_append,
    hw.preparation.count_invalidate (by decide), hcall.count_invalidate (by decide),
    hw.conversion.count_invalidate (by decide)]
  omega

end IsStaged

end Wrapper

/-! ### The text of a body -/

/-- The trampolines come first, then the signature and the body in braces. -/
theorem Wrapper.code_eq (w : Wrapper) :
    w.code = Code.print w.trampolineLines ++ w.signature ++ "\n" ++ "\x7b\n" ++
      Code.print ((w.body.flatMap Statement.lines).map (Code.indent 1)) ++ "\x7d\n" := by
  have hlayout : Code.layout 0 w.steps = w.signature :: "\x7b" ::
      ((w.body.flatMap Statement.lines).map (Code.indent 1) ++ ["\x7d"]) := by
    rw [steps, Code.braced, List.cons_append, Code.layout, Code.layout, Code.layout_lines_append,
      Code.indent_zero, Code.indent_zero]
    rfl
  rw [code, hlayout]
  simp only [Code.print, List.map_append, List.map_cons, String.join_append, String.join_cons,
    String.append_assoc]
  rfl

/-! ### Contributions -/

namespace Contribution

structure IsStaged (c : Contribution) : Prop where
  checks : AllIn .preparation c.checks
  locals : AllIn .preparation c.locals
  fixups : AllIn .release c.fixups

theorem allIn_contextFrom (index : Nat) (cls name : String) :
    AllIn .preparation (contextFrom index cls name) := by
  rw [contextFrom]
  split
  · exact allIn_cons rfl allIn_nil
  · exact allIn_nil

theorem allIn_letGo (arg : ValueArgument) (h : Held) : AllIn .release (letGo arg h) := by
  rw [letGo]
  split
  · exact allIn_cons rfl allIn_nil
  · exact allIn_nil

section OfHandle

variable (m : Method) (index : Nat) (arg : ValueArgument) (cls : String)

theorem isStaged_ofMutated : (ofMutated m index arg cls).IsStaged where
  checks := allIn_cons rfl (allIn_cons rfl (allIn_contextFrom index cls arg.name))
  locals := allIn_nil
  fixups := allIn_cons rfl allIn_nil

theorem isStaged_ofCopied : (ofCopied m index arg cls).IsStaged where
  checks := allIn_cons rfl (allIn_cons rfl (allIn_contextFrom index cls arg.name))
  locals := allIn_nil
  fixups := allIn_letGo arg (.copy arg.name)

theorem isStaged_ofTaken : (ofTaken m index arg cls).IsStaged where
  checks := allIn_cons rfl (allIn_contextFrom index cls arg.name)
  locals := allIn_nil
  fixups := allIn_letGo arg (.own arg.name)

theorem isStaged_ofLent : (ofLent m index arg cls).IsStaged where
  checks := allIn_cons rfl (allIn_contextFrom index cls arg.name)
  locals := allIn_nil
  fixups := allIn_nil

end OfHandle

theorem isStaged_ofHandle {m : Method} {index : Nat} {arg : ValueArgument} {cls : String}
    {c : Contribution} (h : ofHandle m index arg cls = .ok c) : c.IsStaged := by
  rcases of_ofHandle h with ⟨-, -, rfl⟩ | ⟨-, -, rfl⟩ | ⟨-, -, rfl⟩ | ⟨-, rfl⟩
  · exact isStaged_ofMutated m index arg cls
  · exact isStaged_ofCopied m index arg cls
  · exact isStaged_ofTaken m index arg cls
  · exact isStaged_ofLent m index arg cls

theorem isStaged_ofShape {m : Method} {p : Nat × ArgShape} {c : Contribution}
    (h : ofShape m p = .ok c) : c.IsStaged := by
  obtain ⟨index, s⟩ := p
  cases s with
  | callback cb =>
    obtain ⟨t, -, hchecks, hlocals, hfixups⟩ := of_ofCallback h
    refine ⟨?_, ?_, ?_⟩
    · rw [hchecks]
      exact allIn_nil
    · rw [hlocals]
      exact allIn_nil
    · rw [hfixups]
      exact allIn_nil
  | valueOrInt arg =>
    obtain ⟨-, hchecks, hlocals, hfixups⟩ := of_ofValueOrInt h
    refine ⟨?_, ?_, ?_⟩
    · rw [hchecks]
      exact allIn_cons rfl allIn_nil
    · rw [hlocals]
      exact allIn_nil
    · rw [hfixups]
      exact allIn_letGo arg _
  | handle arg cls => exact isStaged_ofHandle h
  | handleOut arg cls =>
    obtain ⟨-, hchecks, hlocals, hfixups⟩ := of_ofHandleOut h
    refine ⟨?_, ?_, ?_⟩
    · rw [hchecks]
      exact allIn_nil
    · rw [hlocals]
      exact allIn_cons rfl allIn_nil
    · rw [hfixups]
      exact allIn_cons rfl allIn_nil
  | flag arg =>
    cases h
    exact ⟨allIn_nil, allIn_cons rfl allIn_nil, allIn_nil⟩
  | _ =>
    cases h
    exact ⟨allIn_nil, allIn_nil, allIn_nil⟩

end Contribution

/-! ### Conversions -/

namespace Conversion

theorem allIn_ofAnswer {checks : List Statement} {a : Answer} (h : AllIn .conversion checks) :
    AllIn .conversion (ofAnswer checks a).statements :=
  h.append (allIn_cons rfl allIn_nil)

theorem allIn_ofNothing (extras : List Auxiliary) :
    AllIn .conversion (ofNothing extras).statements := by
  rw [ofNothing]
  split
  · exact allIn_nil
  · exact allIn_ofAnswer allIn_nil

theorem allIn_ofStatus (label : String) (extras : List Auxiliary) :
    AllIn .conversion (ofStatus label extras).statements := by
  simp only [ofStatus]
  split
  · exact allIn_cons rfl (allIn_cons rfl allIn_nil)
  · exact allIn_ofAnswer (allIn_cons rfl allIn_nil)

theorem allIn_ofText (isGiven : Bool) : AllIn .conversion (ofText isGiven).statements := by
  cases isGiven with
  | true => exact allIn_cons rfl (allIn_cons rfl (allIn_cons rfl (allIn_cons rfl allIn_nil)))
  | false => exact allIn_cons rfl (allIn_cons rfl (allIn_cons rfl allIn_nil))

theorem allIn_of_alone {extras : List Auxiliary} {refusal : Unsupported} {c c' : Conversion}
    (h : alone extras refusal c = .ok c') (hc : AllIn .conversion c.statements) :
    AllIn .conversion c'.statements := by
  rw [alone] at h
  split at h
  · cases h
    exact hc
  · cases h

theorem allIn_of_ofHandle {m : Method} {cls : String} {extras : List Auxiliary} {c : Conversion}
    (h : ofHandle m cls extras = .ok c) : AllIn .conversion c.statements := by
  rw [ofHandle] at h
  split at h
  · split at h
    · cases h
      exact allIn_cons rfl allIn_nil
    · cases h
  · split at h
    · cases h
      exact allIn_cons rfl allIn_nil
    · split at h
      · cases h
      · cases h

theorem allIn_of_ofShape {m : Method} {extras : List Auxiliary} {shape : ResultShape}
    {c : Conversion} (h : ofShape m extras shape = .ok c) : AllIn .conversion c.statements := by
  cases shape with
  | nothing =>
    cases h
    exact allIn_ofNothing extras
  | int isPredicate =>
    cases isPredicate with
    | true =>
      cases h
      exact allIn_ofAnswer (allIn_cons rfl allIn_nil)
    | false =>
      cases h
      exact allIn_ofAnswer allIn_nil
  | size =>
    cases h
    exact allIn_ofAnswer (allIn_cons rfl allIn_nil)
  | status =>
    cases h
    exact allIn_ofStatus m.wrapperName extras
  | bool =>
    cases h
    exact allIn_ofAnswer (allIn_cons rfl allIn_nil)
  | scalar => exact allIn_of_alone h (allIn_cons rfl allIn_nil)
  | handle cls => exact allIn_of_ofHandle h
  | text => exact allIn_of_alone h (allIn_ofText _)
  | userObject => exact allIn_of_alone h (allIn_cons rfl (allIn_cons rfl allIn_nil))

end Conversion

/-! ### Wrappers of methods -/

namespace Method

variable {m : Method} {w : Wrapper}

/-- A wrapper is put together from the contributions of the arguments, the shape of the result and
its conversion. -/
theorem exists_assemble_of_wrap (h : m.wrap = .wrapped w) :
    ∃ cs shape conversion, m.contributions = .ok cs ∧ m.resultShape = .ok shape ∧
      Conversion.ofShape m (cs.filterMap (·.auxiliary)) shape = .ok conversion ∧
      w = m.assemble cs shape conversion := by
  simp only [wrap] at h
  split at h
  · cases h
  · next cs hcs =>
    split at h
    · cases h
    · next shape hshape =>
      split at h
      · cases h
      · cases h
      · next conversion hconversion =>
        cases h
        exact ⟨cs, shape, conversion, hcs, hshape, hconversion, rfl⟩

theorem exists_of_wrap (h : m.wrap = .wrapped w) :
    ∃ shapes extras shape, m.argShapes = .ok shapes ∧
      shapes.mapM (Contribution.ofShape m) = .ok w.contributions ∧
      Conversion.ofShape m extras shape = .ok w.conversion := by
  obtain ⟨cs, shape, conversion, hcs, -, hconversion, rfl⟩ := exists_assemble_of_wrap h
  obtain ⟨shapes, hshapes, hrun⟩ := exists_of_bind_ok hcs
  exact ⟨shapes, _, shape, hshapes, hrun, hconversion⟩

theorem isStaged_of_wrap (h : m.wrap = .wrapped w) : w.IsStaged := by
  obtain ⟨shapes, extras, shape, -, hrun, hconversion⟩ := exists_of_wrap h
  have hstaged : ∀ c ∈ w.contributions, c.IsStaged := by
    intro c hc
    obtain ⟨p, -, hp⟩ := exists_of_mem_mapM hrun hc
    exact Contribution.isStaged_ofShape hp
  have hchecks : AllIn .preparation w.checks := allIn_flatMap fun c hc => (hstaged c hc).checks
  have hlocals : AllIn .preparation w.locals := allIn_flatMap fun c hc => (hstaged c hc).locals
  have hends : ∀ t : Statement, t.stage = .preparation → AllIn .preparation [t] :=
    fun t ht => allIn_cons ht allIn_nil
  exact ⟨(((hends _ rfl).append hchecks).append hlocals).append (hends _ rfl),
    allIn_flatMap fun c hc => (hstaged c hc).fixups, Conversion.allIn_of_ofShape hconversion⟩

end Method

end IslBindings
