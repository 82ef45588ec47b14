import IslBindings.Proofs.Wrapper.Context
import IslBindings.Proofs.Wrapper.Possession

/-!
# Receivers that are changed in place

A method that changes its receiver leaves one owner behind: the wrapper lets go of the receiver,
puts the result in its place and returns it. The wrapper of any other method never does that to a
receiver, and makes one new object of an object that it is given back.
-/

namespace IslBindings

/-! ### Statements that make objects -/

namespace Statement

/-- What makes a new object of the result. -/
def newHandle : String := "handle_from_new_ptr(uptr_result.release())"

/-- Makes an object that the caller did not have. -/
def makesObject : Statement → Bool
  | .wrapObject .. => true
  | .giveObject .. => true
  | .give a => a.expressions.contains newHandle
  | _ => false

def repoints : Statement → Bool
  | .repoint .. => true
  | _ => false

theorem stage_of_makesObject {t : Statement} (h : t.makesObject = true) :
    t.stage = .release ∨ t.stage = .conversion := by
  cases t with
  | wrapObject cls name => exact .inl rfl
  | giveObject cls label a => exact .inr rfl
  | give a => exact .inr rfl
  | _ => cases h

theorem makesObject_of_allIn {stage : Stage} {l : List Statement} (hl : AllIn stage l)
    (hrelease : stage ≠ .release) (hconversion : stage ≠ .conversion) :
    ∀ t ∈ l, t.makesObject = false := by
  intro t ht
  rw [Bool.eq_false_iff]
  intro hmake
  rcases stage_of_makesObject hmake with hstage | hstage
  · exact hrelease ((hl t ht).symm.trans hstage)
  · exact hconversion ((hl t ht).symm.trans hstage)

theorem repoints_of_not_conversion {l : List Statement} (hl : ∀ t ∈ l, t.stage ≠ .conversion) :
    ∀ t ∈ l, t.repoints = false := by
  intro t ht
  cases t with
  | repoint receiver label => exact absurd rfl (hl _ ht)
  | _ => rfl

theorem invalidate_of_release {t : Statement} (ht : t.stage = .release)
    (hmake : t.makesObject = false) : ∃ h, t.released? = some h ∧ t = .invalidate h := by
  cases t with
  | invalidate h => exact ⟨h, rfl, rfl⟩
  | wrapObject cls name => cases hmake
  | _ => cases ht

/-- Statements after the call that make no object let go of handles. -/
theorem eq_map_invalidate {l : List Statement} (hl : AllIn .release l)
    (hmake : ∀ t ∈ l, t.makesObject = false) : l = (l.filterMap released?).map .invalidate := by
  induction l with
  | nil => rfl
  | cons t l ih =>
    obtain ⟨hstage, hstages⟩ := List.forall_mem_cons.mp hl
    obtain ⟨hmaket, hmakel⟩ := List.forall_mem_cons.mp hmake
    obtain ⟨h, hreleased, rfl⟩ := invalidate_of_release hstage hmaket
    rw [List.filterMap_cons_some hreleased, List.map_cons, ← ih hstages hmakel]

end Statement

/-- Of what a wrapper gives beside the result, nothing is a new object. -/
theorem Auxiliary.expression_ne_newHandle (a : Auxiliary) : a.expression ≠ Statement.newHandle := by
  intro h
  have hchars := congrArg (fun s : String => s.toList.head?) h
  cases a with
  | flag base name =>
    rw [expression] at hchars
    split at hchars <;> simp [String.toList_append, Statement.newHandle] at hchars
  | object cls name => simp [expression, String.toList_append, Statement.newHandle] at hchars
  | callback name => simp [expression, String.toList_append, Statement.newHandle] at hchars

theorem Answer.count_newHandle (cls : String) (extras : List Auxiliary) :
    (expressions { primary := some (.object cls), extras }).count Statement.newHandle = 1 := by
  have hextras : (extras.map Auxiliary.expression).count Statement.newHandle = 0 := by
    rw [List.count_eq_zero, List.mem_map]
    rintro ⟨a, -, ha⟩
    exact a.expression_ne_newHandle ha
  show ([Statement.newHandle] ++ _).count _ = 1
  rw [List.count_append, hextras, List.count_singleton_self]

/-! ### Contributions -/

namespace Contribution

variable {m : Method} {c : Contribution}

theorem makesObject_fixups {p : Nat × ArgShape} (h : ofShape m p = .ok c)
    (hnone : c.auxiliary = none) : ∀ t ∈ c.fixups, t.makesObject = false := by
  obtain ⟨index, s⟩ := p
  cases s with
  | callback cb =>
    obtain ⟨-, -, -, -, hfixups⟩ := of_ofCallback h
    rw [hfixups]
    exact List.forall_mem_nil _
  | valueOrInt arg =>
    rw [(of_ofValueOrInt h).2.2.2, letGo]
    split <;> simp [Statement.makesObject]
  | handle arg cls =>
    rcases of_ofHandle h with ⟨-, -, rfl⟩ | ⟨-, -, rfl⟩ | ⟨-, -, rfl⟩ | ⟨-, rfl⟩
    · simp [ofMutated, Statement.makesObject]
    · simp only [ofCopied, letGo]
      split <;> simp [Statement.makesObject]
    · simp only [ofTaken, letGo]
      split <;> simp [Statement.makesObject]
    · exact List.forall_mem_nil _
  | handleOut arg cls =>
    rw [auxiliary_of_ofHandleOut h] at hnone
    cases hnone
  | _ =>
    cases h
    exact List.forall_mem_nil _

/-- The first argument of a method that changes its receiver is the receiver. -/
theorem ofShape_mutated {receiver : ValueArgument} {rest : List Argument} {s : ArgShape}
    (hm : m.Mutates receiver rest) (hmut : m.isMutator = true)
    (hs : ArgShape.ofValue receiver 0 = .ok s) :
    s = .handle receiver m.cls ∧ ofShape m (0, s) = .ok (ofMutated m 0 receiver m.cls) := by
  have hbool : receiver.type.base ≠ "isl_bool" := by
    rw [hm.base]
    have hcls := hm.cls
    simp only [Catalogue.nonCopyable, List.mem_cons, List.not_mem_nil, or_false] at hcls
    rcases hcls with hcls | hcls | hcls <;> rw [hcls] <;> decide
  have hsuits : ArgShape.Suits 0 receiver (.handle receiver m.cls) :=
    .handle hm.depth hm.base hbool fun h => Nat.lt_irrefl 0 h.2
  rw [ArgShape.ofValue_of_suits hsuits] at hs
  cases hs
  exact ⟨rfl, if_pos ⟨rfl, hmut⟩⟩

end Contribution

/-! ### Conversions -/

namespace Conversion

variable {m : Method} {extras : List Auxiliary} {c : Conversion}

/-- A receiver that is changed comes back alone. -/
theorem ofShape_mutated {receiver : ValueArgument} {rest : List Argument} {s : ResultShape}
    (hm : m.Mutates receiver rest) (hmut : m.isMutator = true) (hs : ResultShape.Suits m s)
    (h : ofShape m extras s = .ok c) :
    extras = [] ∧ c.cppType = "py::object" ∧
      c.statements = [.repoint receiver.name m.wrapperName] := by
  obtain ⟨cls, rfl, -⟩ := hs.of_isMutator hmut
  rw [ofShape, ofHandle, if_pos hmut] at h
  split at h
  · next hempty =>
    cases h
    rw [ofMutator, hm.args]
    exact ⟨List.isEmpty_iff.mp hempty, rfl, rfl⟩
  · cases h

theorem repoints_statements {s : ResultShape} (hmut : m.isMutator = false)
    (h : ofShape m extras s = .ok c) : ∀ t ∈ c.statements, t.repoints = false := by
  cases s with
  | nothing =>
    cases h
    rw [ofNothing]
    split <;> simp [ofAnswer, Statement.repoints]
  | status =>
    cases h
    simp only [ofStatus]
    split <;> simp [ofAnswer, Statement.repoints]
  | int isPredicate =>
    cases isPredicate <;> cases h <;> simp [ofAnswer, Statement.repoints]
  | handle cls =>
    rw [eq_ofObject_of_ofHandle hmut h]
    simp [ofObject, Statement.repoints]
  | scalar =>
    obtain ⟨-, rfl⟩ := extras_of_alone h
    simp [ofScalar, Statement.repoints]
  | text =>
    obtain ⟨-, rfl⟩ := extras_of_alone h
    simp only [ofText]
    split <;> simp [Statement.repoints]
  | userObject =>
    obtain ⟨-, rfl⟩ := extras_of_alone h
    simp [ofUserObject, Statement.repoints]
  | _ =>
    cases h
    simp [ofAnswer, Statement.repoints]

end Conversion

/-! ### Wrappers -/

def Outcome.isWrapped : Outcome → Bool
  | .wrapped _ => true
  | _ => false

theorem Outcome.exists_of_isWrapped {o : Outcome} (h : o.isWrapped = true) :
    ∃ w, o = .wrapped w := by
  cases o with
  | wrapped w => exact ⟨w, rfl⟩
  | _ => cases h

namespace Wrapper

/-- The lines that put the result in the place of the receiver. -/
def repointLines (label : String) : List String :=
  ["if (result)", "\x7b", "  arg_self.take_possession_of(result);", "  return py_self;", "\x7d",
    "else", "  handle_isl_error(islpy_ctx, \"isl_" ++ label ++ "\");"]

/-- The lines that make a new object of the result and return it with the other values. -/
def objectLines (cls label : String) (others : List String) : List String :=
  ["if (result)", "\x7b",
    "  std::unique_ptr<isl::" ++ cls ++ "> uptr_result(new isl::" ++ cls ++ "(result));",
    "  return " ++ (if others = [] then "handle_from_new_ptr(uptr_result.release())" else
      "py::make_tuple(" ++
        ", ".intercalate ("handle_from_new_ptr(uptr_result.release())" :: others) ++ ")") ++ ";",
    "\x7d", "else", "  handle_isl_error(islpy_ctx, \"isl_" ++ label ++ "\");"]

theorem lines_ofObject {cls label : String} {extras : List Auxiliary} {others : List Item}
    (h : extras.map Auxiliary.item = others) :
    (Conversion.ofObject label cls extras).statements.flatMap Statement.lines =
      objectLines cls label (others.map Item.expression) := by
  have hothers : others.map Item.expression = extras.map Auxiliary.expression := by
    rw [← h, List.map_map]
    rfl
  rw [objectLines, hothers]
  cases extras with
  | nil => rfl
  | cons first rest =>
    rw [List.map_cons, if_neg (List.cons_ne_nil _ _)]
    rfl

/-- The wrapper lets go of the receiver after the call, and the receiver takes the result. -/
structure Repoints (w : Wrapper) (m : Method) : Prop where
  input : ∃ inputs, w.parameters.map (·.declaration) = "py::object py_self" :: inputs
  bound : .bindReceiver m.cls "self" ∈ w.beforeCall ∧
    "isl::" ++ m.cls ++ " &arg_self(py::cast<isl::" ++ m.cls ++ " &>(py_self));" ∈ w.linesBefore
  passed : w.actuals[0]? = some (.handle (.own "self")) ∧ w.passed[0]? = some "arg_self.m_data"
  /-- The result is looked at behind all of these. -/
  prepared : AllIn .preparation w.beforeCall
  body : ∃ released : List Held, w.body = w.beforeCall ++ w.callStatement ::
    .invalidate (.own "self") :: (released.map .invalidate ++ [.repoint "self" m.wrapperName])
  makesNothing : ∀ t ∈ w.body, t.makesObject = false
  code : ∃ (inputs : List String) (released : List Held), w.code =
    Code.print w.trampolineLines ++
      Code.functionText "py::object " m.wrapperName
        (", ".intercalate ("py::object py_self" :: inputs))
        (w.linesBefore ++
          (Statement.capture w.captured ++ m.cName ++ "(" ++ ", ".intercalate w.passed ++ ");") ::
            "arg_self.invalidate();" ::
              (released.map Held.invalidation ++ repointLines m.wrapperName))
  /-- No other line makes an owner. -/
  silent : (∀ word ∈ m.words, Text.IsUnmarked word) → ∀ line ∈ w.linesBefore ++ w.linesBetween,
    ∀ mark ∈ ownerMarks, ¬Text.OccursIn mark line

/-- The wrapper leaves the receiver alone, and makes one object of an object that it is given. -/
structure KeepsReceiver (w : Wrapper) (m : Method) : Prop where
  never : ∀ t ∈ w.body, t.repoints = false
  object : ∀ cls, m.result.depth = .pointer → m.result.base = "isl_" ++ cls →
    ∃ before a, w.body = before ++ [.giveObject cls m.wrapperName a] ∧
      (∀ t ∈ before, t.stage ≠ .conversion) ∧ a.primary = some (.object cls) ∧
      a.expressions.count Statement.newHandle = 1
  code : w.code = Code.print w.trampolineLines ++
    Code.functionText (w.conversion.cppType ++ " ") m.wrapperName w.inputs
      (w.linesBefore ++
        (Statement.capture w.captured ++ m.cName ++ "(" ++ ", ".intercalate w.passed ++ ");") ::
          (w.linesBetween ++ w.linesAfter))
  fresh : ∀ cls, m.result.depth = .pointer → m.result.base = "isl_" ++ cls →
    w.conversion.cppType = "py::object" ∧
      w.linesAfter = objectLines cls m.wrapperName (m.items.map Item.expression)
  silent : (∀ word ∈ m.words, Text.IsUnmarked word) →
    (∀ line ∈ w.body.flatMap Statement.lines, ¬Text.OccursIn ".take_possession_of(" line) ∧
      ∀ line ∈ w.linesBefore ++ w.linesBetween, ¬Text.OccursIn "> uptr_result(" line

variable {w : Wrapper}

theorem body_of_repoint {released : List Held} {label : String}
    (hfixups : w.fixups = .invalidate (.own "self") :: released.map .invalidate)
    (hconversion : w.conversion.statements = [.repoint "self" label]) :
    w.body = w.beforeCall ++ w.callStatement ::
      .invalidate (.own "self") :: (released.map .invalidate ++ [.repoint "self" label]) := by
  rw [body, hfixups, hconversion]
  simp only [List.append_assoc, List.cons_append, List.nil_append]

theorem linesBetween_of_repoint {released : List Held}
    (hfixups : w.fixups = .invalidate (.own "self") :: released.map .invalidate) :
    w.linesBetween = "arg_self.invalidate();" :: released.map Held.invalidation := by
  rw [linesBetween, hfixups, List.flatMap_cons, List.flatMap_map, List.map_eq_flatMap]
  rfl

theorem avoids_linesBetween_of_makesNothing {m : Method} (h : m.wrap = .wrapped w)
    (hm : ∀ word ∈ m.words, Text.IsUnmarked word)
    (hmake : ∀ t ∈ w.fixups, t.makesObject = false) :
    ∀ line ∈ w.linesBetween, Text.Avoids ownerStarts line := by
  intro line hline
  obtain ⟨t, ht, hline⟩ := List.mem_flatMap.mp hline
  obtain ⟨held, -, rfl⟩ := Statement.invalidate_of_release
    ((Method.isStaged_of_wrap h).release t ht) (hmake t ht)
  obtain ⟨c, hc, htc⟩ := List.mem_flatMap.mp ht
  exact Statement.avoids_invalidate
    ((isPlain_of_wrap h hm c hc).fixups _ htc _ (List.mem_singleton_self _)) line hline

theorem linesAfter_of_repoint {label : String}
    (hconversion : w.conversion.statements = [.repoint "self" label]) :
    w.linesAfter = repointLines label := by
  rw [linesAfter, hconversion]
  rfl

theorem IsStaged.makesNothing (hw : w.IsStaged) (hfixups : ∀ t ∈ w.fixups, t.makesObject = false)
    (hconversion : ∀ t ∈ w.conversion.statements, t.makesObject = false) :
    ∀ t ∈ w.body, t.makesObject = false := by
  have hcall : AllIn .call [w.callStatement] := allIn_cons rfl allIn_nil
  simp only [body, List.forall_mem_append]
  exact ⟨⟨⟨Statement.makesObject_of_allIn hw.preparation (by decide) (by decide),
    Statement.makesObject_of_allIn hcall (by decide) (by decide)⟩, hfixups⟩, hconversion⟩

theorem IsStaged.not_conversion (hw : w.IsStaged) :
    ∀ t ∈ w.beforeCall ++ [w.callStatement] ++ w.fixups, t.stage ≠ .conversion := by
  have hcall : w.callStatement.stage ≠ .conversion := Stage.noConfusion
  simp only [List.forall_mem_append, List.forall_mem_singleton]
  refine ⟨⟨fun t ht => ?_, hcall⟩, fun t ht => ?_⟩
  · rw [hw.preparation t ht]
    decide
  · rw [hw.release t ht]
    decide

end Wrapper

namespace Method

variable {m : Method} {w : Wrapper} {receiver : ValueArgument} {rest : List Argument}

theorem exists_contributions {cs : List Contribution} (hm : m.Mutates receiver rest)
    (hmut : m.isMutator = true) (h : m.contributions = .ok cs) :
    ∃ cs', cs = Contribution.ofMutated m 0 receiver m.cls :: cs' := by
  obtain ⟨shapes, hshapes, hrun⟩ := exists_of_bind_ok h
  have hshapes := ArgShape.shapes_of_ofArguments hshapes
  rw [hm.args] at hshapes
  cases hshapes with
  | value hs hrest =>
    obtain ⟨c, cs', hc, -, rfl⟩ := exists_of_mapM_cons hrun
    obtain ⟨-, hmutated⟩ := Contribution.ofShape_mutated hm hmut hs
    rw [hmutated, Except.ok.injEq] at hc
    exact ⟨cs', by rw [hc]⟩

theorem makesObject_fixups {cs : List Contribution} (h : m.contributions = .ok cs)
    (hnone : cs.filterMap (·.auxiliary) = []) :
    ∀ t ∈ cs.flatMap (·.fixups), t.makesObject = false := by
  obtain ⟨shapes, -, hrun⟩ := exists_of_bind_ok h
  intro t ht
  obtain ⟨c, hc, ht⟩ := List.mem_flatMap.mp ht
  obtain ⟨p, -, hp⟩ := exists_of_mem_mapM hrun hc
  exact Contribution.makesObject_fixups hp (List.filterMap_eq_nil_iff.mp hnone c hc) t ht

theorem exists_assemble_of_isMutator (h : m.wrap = .wrapped w) (hmut : m.isMutator = true) :
    ∃ receiver cs s conversion, m.receiver? = some receiver ∧
      w = m.assemble (Contribution.ofMutated m 0 receiver m.cls :: cs) s conversion ∧
      conversion.cppType = "py::object" ∧
      conversion.statements = [.repoint receiver.name m.wrapperName] ∧
      ∀ t ∈ w.fixups, t.makesObject = false := by
  obtain ⟨receiver, rest, hreceiver, hm⟩ := exists_mutates hmut
  obtain ⟨cs, s, conversion, hcs, hs, hconversion, rfl⟩ := exists_assemble_of_wrap h
  obtain ⟨hextras, hcpp, hstatements⟩ :=
    Conversion.ofShape_mutated hm hmut (ResultShape.suits_of_resultShape hs) hconversion
  have hmake := makesObject_fixups hcs hextras
  obtain ⟨cs, rfl⟩ := exists_contributions hm hmut hcs
  exact ⟨receiver, cs, s, conversion, hreceiver, rfl, hcpp, hstatements, hmake⟩

theorem repoints_of_wrap (h : m.wrap = .wrapped w) (hmut : m.isMutator = true)
    (hself : ∀ receiver, m.receiver? = some receiver → receiver.name = "self") : w.Repoints m := by
  have hstaged := isStaged_of_wrap h
  obtain ⟨receiver, cs, s, conversion, hreceiver, hw, hcpp, hstatements, hmake⟩ :=
    exists_assemble_of_isMutator h hmut
  have hname := hself receiver hreceiver
  rw [hname] at hstatements
  have hconverts : w.conversion = conversion := by rw [hw]; rfl
  have hinput : w.parameters.map (·.declaration) =
      ("py::object py_" ++ receiver.name) :: (cs.filterMap (·.parameter)).map (·.declaration) := by
    rw [hw]
    rfl
  have hchecks : .bindReceiver m.cls receiver.name ∈ w.checks := by
    rw [hw]
    exact List.mem_append_left _ (List.mem_cons_self ..)
  have hactuals : w.actuals[0]? = some (.handle (.own receiver.name)) := by
    rw [hw]
    rfl
  have hfirst : w.fixups = .invalidate (.own receiver.name) :: cs.flatMap (·.fixups) := by
    rw [hw]
    rfl
  rw [hname] at hinput hchecks hactuals hfirst
  -- Behind the receiver the wrapper lets go of what else the function has taken, and of no more.
  have hown : (Statement.invalidate (.own "self")).released? = some (.own "self") := rfl
  have hreleased := Statement.eq_map_invalidate hstaged.release hmake
  rw [hfirst, List.filterMap_cons_some hown, List.map_cons, ← hfirst] at hreleased
  have hconversion : w.conversion.statements = [.repoint "self" m.wrapperName] := by
    rw [hconverts, hstatements]
  have hbound : .bindReceiver m.cls "self" ∈ w.beforeCall := by
    rw [Wrapper.beforeCall]
    simp [hchecks]
  constructor
  case input => exact ⟨_, hinput⟩
  case bound =>
    refine ⟨hbound, List.mem_flatMap.mpr ⟨_, hbound, ?_⟩⟩
    rw [Statement.lines, List.mem_singleton]
    simp only [String.append_assoc]
    rfl
  case passed => exact ⟨hactuals, Wrapper.passed_of_actuals hactuals⟩
  case prepared => exact hstaged.preparation
  case body => exact ⟨_, w.body_of_repoint hreleased hconversion⟩
  case makesNothing =>
    exact hstaged.makesNothing hmake (by simp [hconversion, Statement.makesObject])
  case code =>
    have hcode := code_of_wrap h
    rw [hconverts, hcpp, Wrapper.inputs, hinput, Wrapper.linesBetween_of_repoint hreleased,
      Wrapper.linesAfter_of_repoint hconversion] at hcode
    exact ⟨_, _, hcode⟩
  case silent =>
    intro hm line hline
    have havoids : Text.Avoids ownerStarts line := by
      rcases List.mem_append.mp hline with hline | hline
      · exact Wrapper.avoids_linesBefore h hm line hline
      · exact Wrapper.avoids_linesBetween_of_makesNothing h hm hmake line hline
    exact havoids.not_occursIn_ownerMarks

theorem keepsReceiver_of_wrap (h : m.wrap = .wrapped w) (hmut : m.isMutator = false) :
    w.KeepsReceiver m := by
  have hstaged := isStaged_of_wrap h
  obtain ⟨cs, s, conversion, hcs, hs, hconversion, hw⟩ := exists_assemble_of_wrap h
  have hconverts : w.conversion = conversion := by rw [hw]; rfl
  have hbefore := hstaged.not_conversion
  constructor
  case never =>
    rw [Wrapper.body, List.forall_mem_append, hconverts]
    exact ⟨Statement.repoints_of_not_conversion hbefore,
      Conversion.repoints_statements hmut hconversion⟩
  case object =>
    intro cls hdepth hbase
    rw [ResultShape.resultShape_of_suits (.handle hdepth hbase)] at hs
    cases hs
    have hobject := Conversion.eq_ofObject_of_ofHandle hmut hconversion
    rw [← hconverts] at hobject
    exact ⟨_, _, congrArg (_ ++ Conversion.statements ·) hobject, hbefore, rfl,
      Answer.count_newHandle cls _⟩
  case code => exact code_of_wrap h
  case fresh =>
    intro cls hdepth hbase
    rw [ResultShape.resultShape_of_suits (.handle hdepth hbase)] at hs
    cases hs
    obtain ⟨shapes, hshapes, hrun⟩ := exists_of_bind_ok hcs
    have hitems := Contribution.items_of_shapes (ArgShape.shapes_of_ofArguments hshapes) hrun
    rw [Wrapper.linesAfter, hconverts, Conversion.eq_ofObject_of_ofHandle hmut hconversion]
    exact ⟨rfl, Wrapper.lines_ofObject hitems⟩
  case silent =>
    intro hm
    have hmarks : ∀ line ∈ w.linesBefore ++ w.linesBetween,
        Text.Avoids [['.', 't'], ['>', ' ', 'u', 'p']] line := by
      refine List.forall_mem_append.mpr ⟨fun line hline => ?_, Wrapper.avoids_linesBetween h hm⟩
      exact (Wrapper.avoids_linesBefore h hm line hline).mono (by decide)
    constructor
    · intro line hline
      have havoids : Text.Avoids [['.', 't']] line := by
        rw [w.lines_body, List.mem_append, List.mem_cons, List.mem_append] at hline
        rcases hline with hline | rfl | hline | hline
        · exact (hmarks line (List.mem_append_left _ hline)).mono (by decide)
        · exact Wrapper.avoids_callLine h hm
        · exact (hmarks line (List.mem_append_right _ hline)).mono (by decide)
        · exact Wrapper.avoids_linesAfter h hmut hm line hline
      exact havoids.not_occursIn (List.mem_singleton_self _) (by decide) (by decide)
    · intro line hline
      exact (hmarks line hline).not_occursIn (List.mem_cons_of_mem _ (List.mem_singleton_self _))
        (by decide) (by decide)

/-- A built method whose receiver is changed in place re-points it, any other keeps it. -/
theorem repoints_or_keepsReceiver (h : m.nameReceiver.wrap = .wrapped w) :
    (m.nameReceiver.isMutator = true → w.Repoints m.nameReceiver) ∧
      (m.nameReceiver.isMutator = false → w.KeepsReceiver m.nameReceiver) :=
  ⟨fun hmut => repoints_of_wrap h hmut fun _ => m.name_of_receiver, keepsReceiver_of_wrap h⟩

/-- A printer that prints two objects; it is changed in place unless that is vetoed. -/
def samplePrint : Method where
  cls := "printer"
  name := "print_both"
  cName := "isl_printer_print_both"
  result := { base := "isl_printer", depth := .pointer, ownership := some .give }
  args :=
    [.value
      { name := "p", isConst := false
        type := { base := "isl_printer", depth := .pointer, ownership := some .take } },
    .value
      { name := "first", isConst := false
        type := { base := "isl_set", depth := .pointer, ownership := some .take } },
    .value
      { name := "second", isConst := false
        type := { base := "isl_set", depth := .pointer, ownership := some .keep } }]
  isExported := false
  isConstructor := false
  mutatorVeto := false

theorem repoints_or_keepsReceiver_samplePrint :
    (∃ w, samplePrint.nameReceiver.wrap = .wrapped w ∧ w.Repoints samplePrint.nameReceiver ∧
      ∀ word ∈ samplePrint.nameReceiver.words, Text.IsUnmarked word) ∧
      ∃ w, samplePrint.veto.nameReceiver.wrap = .wrapped w ∧
        w.KeepsReceiver samplePrint.veto.nameReceiver ∧
        ∀ word ∈ samplePrint.veto.nameReceiver.words, Text.IsUnmarked word := by
  have hmut : samplePrint.nameReceiver.isMutator = true := by decide +kernel
  have hveto : samplePrint.veto.nameReceiver.isMutator = false := by decide +kernel
  obtain ⟨w, hw⟩ : ∃ w, samplePrint.nameReceiver.wrap = .wrapped w :=
    Outcome.exists_of_isWrapped (by decide +kernel)
  obtain ⟨w', hw'⟩ : ∃ w, samplePrint.veto.nameReceiver.wrap = .wrapped w :=
    Outcome.exists_of_isWrapped (by decide +kernel)
  exact ⟨⟨w, hw, (repoints_or_keepsReceiver hw).1 hmut, by decide +kernel⟩,
    w', hw', (repoints_or_keepsReceiver hw').2 hveto, by decide +kernel⟩

end Method

end IslBindings
