import IslBindings.Proofs.Receiver
import IslBindings.Proofs.Wrapper.Positions
import IslBindings.Proofs.Wrapper.Printed

/-!
# Ownership

For an object that the function takes, a wrapper passes a copy, or the caller's own handle
where the class has no copies. It lets go of what it has passed once, and before it looks at
the result. For an object that the function does not take it passes the caller's own handle,
and never lets go of it.
-/

namespace IslBindings

/-! ### Handles -/

namespace Held

def name : Held → String
  | .own name => name
  | .copy name => name
  | .temporary name => name

/-- The handle that is passed for an object: a copy of a taken one, if the class has copies. -/
def ofObject (arg : ValueArgument) (cls : String) : Held :=
  if arg.type.ownership = some .take ∧ cls ∉ Catalogue.nonCopyable then .copy arg.name
  else .own arg.name

theorem ofObject_of_copied {arg : ValueArgument} {cls : String}
    (htake : arg.type.ownership = some .take) (hcls : cls ∉ Catalogue.nonCopyable) :
    ofObject arg cls = .copy arg.name :=
  if_pos ⟨htake, hcls⟩

theorem ofObject_of_nonCopyable {arg : ValueArgument} {cls : String}
    (hcls : cls ∈ Catalogue.nonCopyable) : ofObject arg cls = .own arg.name :=
  if_neg fun h => h.2 hcls

theorem ofObject_of_lent {arg : ValueArgument} {cls : String}
    (htake : arg.type.ownership ≠ some .take) : ofObject arg cls = .own arg.name :=
  if_neg fun h => htake h.1

theorem name_ofObject (arg : ValueArgument) (cls : String) : (ofObject arg cls).name = arg.name := by
  rw [ofObject]
  split <;> rfl

theorem invalidation_inj {h h' : Held} (heq : h.invalidation = h'.invalidation) : h = h' := by
  have hchars := congrArg String.toList heq
  cases h <;> cases h' <;> simp [invalidation, String.toList_append] at hchars
  all_goals rw [String.toList_inj.mp hchars]

end Held

namespace Statement

def released? : Statement → Option Held
  | .invalidate h => some h
  | _ => none

theorem released?_eq_some {t : Statement} {h : Held} :
    t.released? = some h ↔ t = .invalidate h := by
  cases t <;> simp [released?]

theorem count_invalidate (l : List Statement) (h : Held) :
    l.count (.invalidate h) = (l.filterMap released?).count h := by
  rw [List.count_filterMap, List.count]
  refine List.countP_congr fun t _ => ?_
  rw [beq_iff_eq, beq_iff_eq]
  exact released?_eq_some.symm

theorem count_lines_of_release {t : Statement} (ht : t.stage = .release) (h : Held) :
    t.lines.count h.invalidation = t.released?.toList.count h := by
  cases t with
  | invalidate h' =>
    show [h'.invalidation].count h.invalidation = [h'].count h
    rw [List.count_singleton, List.count_singleton]
    have hiff : (h'.invalidation == h.invalidation) = (h' == h) := by
      rw [Bool.eq_iff_iff, beq_iff_eq, beq_iff_eq]
      exact ⟨Held.invalidation_inj, congrArg _⟩
    rw [hiff]
  | wrapObject cls name =>
    show _ = 0
    rw [List.count_eq_zero]
    intro hmem
    cases h <;> simp [lines, Held.invalidation, ← String.toList_inj] at hmem
  | _ => cases ht

theorem count_lines {l : List Statement} (hl : AllIn .release l) (h : Held) :
    (l.flatMap lines).count h.invalidation = (l.filterMap released?).count h :=
  count_flatMap_of_count fun t ht => count_lines_of_release (hl t ht) h

end Statement

/-! ### What a shape takes -/

namespace ArgShape

/-- The handle that is passed. -/
def held? : ArgShape → Option Held
  | .valueOrInt arg => some (.temporary arg.name)
  | .handle arg cls => some (.ofObject arg cls)
  | _ => none

/-- The handle that is passed, if the function takes it. -/
def taken? : ArgShape → Option Held
  | .valueOrInt arg => if arg.type.ownership = some .take then some (.temporary arg.name) else none
  | .handle arg cls => if arg.type.ownership = some .take then some (.ofObject arg cls) else none
  | _ => none

theorem name_of_held? {s : ArgShape} {h : Held} (hs : s.held? = some h) : h.name = s.name := by
  cases s with
  | valueOrInt arg =>
    cases hs
    rfl
  | handle arg cls =>
    cases hs
    exact Held.name_ofObject arg cls
  | _ => cases hs

theorem held?_of_taken? {s : ArgShape} {h : Held} (hs : s.taken? = some h) : s.held? = some h := by
  cases s with
  | valueOrInt arg =>
    rw [taken?] at hs
    split at hs
    · exact hs
    · cases hs
  | handle arg cls =>
    rw [taken?] at hs
    split at hs
    · exact hs
    · cases hs
  | _ => cases hs

theorem count_taken {shapes : List (Nat × ArgShape)} (hnames : (shapes.map (·.2.name)).Nodup)
    {p : Nat × ArgShape} (hp : p ∈ shapes) {h : Held} (hname : h.name = p.2.name) :
    (shapes.filterMap (·.2.taken?)).count h = if p.2.taken? = some h then 1 else 0 := by
  have hsub : ((shapes.filterMap (·.2.taken?)).map Held.name).Sublist (shapes.map (·.2.name)) :=
    filterMap_map_sublist fun q _ h hq => name_of_held? (held?_of_taken? hq)
  have hnodup : (shapes.filterMap (·.2.taken?)).Nodup :=
    List.Pairwise.of_map Held.name (fun a b hne hab => hne (congrArg Held.name hab))
      (hsub.nodup hnames)
  rw [hnodup.count]
  -- A handle of this name can come from no other argument, as names are distinct.
  have hiff : h ∈ shapes.filterMap (·.2.taken?) ↔ p.2.taken? = some h := by
    rw [List.mem_filterMap]
    constructor
    · rintro ⟨q, hq, htaken⟩
      have hqp : q.2.name = p.2.name := by
        rw [← name_of_held? (held?_of_taken? htaken), hname]
      rw [← eq_of_key hnames hq hp hqp]
      exact htaken
    · intro htaken
      exact ⟨p, hp, htaken⟩
  simp only [hiff]

end ArgShape

theorem Actual.expression_text (arg : ValueArgument) :
    (Actual.text arg.name (Contribution.isFreed arg)).expression =
      if arg.type.ownership = some .take ∨ arg.type.ownership = some .give then
        "strdup(arg_" ++ arg.name ++ ")" else "arg_" ++ arg.name := by
  have hfreed : Contribution.isFreed arg = true ↔
      arg.type.ownership = some .take ∨ arg.type.ownership = some .give := by
    rw [Contribution.isFreed, Bool.or_eq_true, beq_iff_eq, beq_iff_eq]
    exact Or.comm
  simp only [expression, hfreed]

/-! ### Receivers -/

/-- A receiver that is changed in place is taken, and its class has no copies. -/
def Method.TakesReceiver (m : Method) (p : Nat × ArgShape) : Prop :=
  m.isMutator = true → ∀ arg cls, p = (0, .handle arg cls) →
    arg.type.ownership = some .take ∧ cls ∈ Catalogue.nonCopyable

theorem Method.takesReceiver {m : Method} {shapes : List (Nat × ArgShape)}
    (h : ArgShape.Shapes 0 m.args shapes) {p : Nat × ArgShape} (hp : p ∈ shapes) :
    m.TakesReceiver p := by
  intro hmut arg cls heq
  obtain ⟨arg', rest, -, hm⟩ := exists_mutates hmut
  rw [hm.args] at h
  cases h with
  | value hs hrest =>
    rcases List.mem_cons.mp hp with hp | hp
    · rw [heq] at hp
      cases hp
      obtain ⟨rfl, hclass⟩ := ArgShape.handle_of_ofValue hs
      rw [ValueArgument.islClass?_eq_some_iff.mpr hm.base, Option.some.injEq] at hclass
      exact ⟨hm.ownership, hclass ▸ hm.cls⟩
    · have hle := hrest.le hp
      rw [heq] at hle
      omega

/-! ### What an argument passes and releases -/

namespace Contribution

theorem cases_of_ofHandle {m : Method} {index : Nat} {arg : ValueArgument} {cls : String}
    {c : Contribution} (h : ofHandle m index arg cls = .ok c)
    (hrecv : m.TakesReceiver (index, .handle arg cls)) :
    (arg.type.ownership = some .take ∧ cls ∉ Catalogue.nonCopyable ∧
        c = ofCopied m index arg cls) ∨
      (arg.type.ownership = some .take ∧ cls ∈ Catalogue.nonCopyable ∧
        (c = ofTaken m index arg cls ∨ c = ofMutated m index arg cls)) ∨
      (arg.type.ownership ≠ some .take ∧ c = ofLent m index arg cls) := by
  rcases of_ofHandle h with
    ⟨hindex, hmut, hc⟩ | hcopied | ⟨htake, hcls, hc⟩ | hlent
  · rw [hindex] at hrecv
    obtain ⟨htake, hcls⟩ := hrecv hmut arg cls rfl
    exact .inr (.inl ⟨htake, hcls, .inr hc⟩)
  · exact .inl hcopied
  · exact .inr (.inl ⟨htake, hcls, .inl hc⟩)
  · exact .inr (.inr hlent)

theorem actuals_of_ofHandle {m : Method} {index : Nat} {arg : ValueArgument} {cls : String}
    {c : Contribution} (h : ofHandle m index arg cls = .ok c)
    (hrecv : m.TakesReceiver (index, .handle arg cls)) :
    c.actuals = [.handle (.ofObject arg cls)] := by
  rcases cases_of_ofHandle h hrecv with ⟨htake, hcls, rfl⟩ | ⟨htake, hcls, rfl | rfl⟩ | ⟨htake, rfl⟩
  · rw [Held.ofObject_of_copied htake hcls]
    rfl
  · rw [Held.ofObject_of_nonCopyable hcls]
    rfl
  · rw [Held.ofObject_of_nonCopyable hcls]
    rfl
  · rw [Held.ofObject_of_lent htake]
    rfl

theorem released_letGo (arg : ValueArgument) (h : Held) :
    (letGo arg h).filterMap Statement.released? =
      (if arg.type.ownership = some .take then some h else none).toList := by
  rw [letGo]
  split <;> rfl

theorem released_of_ofShape {m : Method} {p : Nat × ArgShape} {c : Contribution}
    (h : ofShape m p = .ok c) (hrecv : m.TakesReceiver p) :
    c.fixups.filterMap Statement.released? = p.2.taken?.toList := by
  obtain ⟨index, s⟩ := p
  cases s with
  | callback cb =>
    obtain ⟨t, -, -, -, hfixups⟩ := of_ofCallback h
    rw [hfixups]
    rfl
  | valueOrInt arg =>
    rw [(of_ofValueOrInt h).2.2.2]
    exact released_letGo arg _
  | handle arg cls =>
    rw [ArgShape.taken?]
    rcases cases_of_ofHandle h hrecv with
      ⟨htake, hcls, rfl⟩ | ⟨htake, hcls, rfl | rfl⟩ | ⟨htake, rfl⟩
    · rw [Held.ofObject_of_copied htake hcls]
      exact released_letGo arg _
    · rw [Held.ofObject_of_nonCopyable hcls]
      exact released_letGo arg _
    · rw [Held.ofObject_of_nonCopyable hcls, if_pos htake]
      rfl
    · rw [if_neg htake]
      rfl
  | handleOut arg cls =>
    rw [(of_ofHandleOut h).2.2.2]
    rfl
  | _ =>
    cases h
    rfl

theorem held_of_ofShape {m : Method} {p : Nat × ArgShape} {c : Contribution}
    (h : ofShape m p = .ok c) (hrecv : m.TakesReceiver p) {x : Held}
    (hx : .handle x ∈ c.actuals) : p.2.held? = some x := by
  obtain ⟨index, s⟩ := p
  cases s with
  | callback cb =>
    obtain ⟨t, hactuals, -⟩ := of_ofCallback h
    rw [hactuals] at hx
    simp at hx
  | valueOrInt arg =>
    rw [(of_ofValueOrInt h).1] at hx
    simp only [List.mem_singleton, Actual.handle.injEq] at hx
    rw [hx]
    rfl
  | handle arg cls =>
    rw [actuals_of_ofHandle h hrecv] at hx
    simp only [List.mem_singleton, Actual.handle.injEq] at hx
    rw [hx]
    rfl
  | handleOut arg cls =>
    rw [(of_ofHandleOut h).1] at hx
    simp at hx
  | _ =>
    cases h
    simp [ofScalar, ofText, ofFlag] at hx

end Contribution

/-! ### What is printed -/

/-- Lines that put a copy of an object of a class in the place of its handle. -/
def CopiesHandle (lines : List String) (cls name : String) : Prop :=
  ∃ message,
    ["std::unique_ptr<isl::" ++ cls ++ "> auto_arg_" ++ name ++ ";",
      "\x7b",
      "  isl_" ++ cls ++ " *tmp_ptr = isl_" ++ cls ++ "_copy(arg_" ++ name ++ ".m_data);",
      "  if (!tmp_ptr)",
      "    throw isl::error(" ++ message ++ ");",
      "  auto_arg_" ++ name ++ " = std::unique_ptr<isl::" ++ cls ++ ">(new isl::" ++ cls ++
        "(tmp_ptr));",
      "\x7d"] <:+: lines

/-- Lines that make a temporary from a copy of a value, or else from an integer. -/
def MakesTemporary (lines : List String) (name : String) : Prop :=
  ["std::unique_ptr<isl::val> unique_arg_" ++ name ++ ";",
    "  isl::val *arg_" ++ name ++ " = py::cast<isl::val *>(py_" ++ name ++ ");",
    "  isl_val *tmp_ptr = isl_val_copy(arg_" ++ name ++ "->m_data);",
    "  unique_arg_" ++ name ++ " = std::unique_ptr<isl::val>(new isl::val(tmp_ptr));",
    "if (!unique_arg_" ++ name ++ ")",
    "    int_value = py::cast<long>(py_" ++ name ++ ");",
    "  isl_val *tmp_ptr = isl_val_int_from_si(islpy_ctx, int_value);",
    "  unique_arg_" ++ name ++ " = std::unique_ptr<isl::val>(new isl::val(tmp_ptr));"].Sublist lines

/-- The lines between the call and the conversion, for one argument. -/
def ArgShape.linesBetween : ArgShape → List String
  | .valueOrInt arg =>
    if arg.type.ownership = some .take then ["unique_arg_" ++ arg.name ++ "->invalidate();"] else []
  | .handle arg cls =>
    if arg.type.ownership = some .take then
      if cls ∈ ["ctx", "printer", "access_info"] then ["arg_" ++ arg.name ++ ".invalidate();"]
      else ["auto_arg_" ++ arg.name ++ "->invalidate();"]
    else []
  | .handleOut arg cls =>
    ["py::object py_ret_" ++ arg.name ++ " = py::none();",
      "if (ret_" ++ arg.name ++ ")",
      "  py_ret_" ++ arg.name ++ " = handle_from_new_ptr(new isl::" ++ cls ++ "(ret_" ++ arg.name ++
        "));"]
  | _ => []

theorem copiesHandle_of_infix {label cls name : String} {lines : List String}
    (h : (Statement.copyHandle label cls name).lines <:+: lines) : CopiesHandle lines cls name := by
  let message := "\"failed to copy arg " ++ name ++ " on entry to " ++ label ++ "\""
  have hline : "    throw isl::error(" ++ message ++ ");" =
      "    throw isl::error(\"failed to copy arg " ++ name ++ " on entry to " ++ label ++ "\");" := by
    simp [message, ← String.toList_inj, String.toList_append]
  refine ⟨message, ?_⟩
  rw [hline]
  exact h

theorem makesTemporary_of_infix {name : String} {lines : List String}
    (h : (Statement.takeValue name).lines <:+: lines) : MakesTemporary lines name := by
  refine List.Sublist.trans ?_ h.sublist
  -- The value is copied first, and an integer is tried if there was none.
  refine .cons_cons _ (.cons _ (.cons _ (.cons_cons _ (.cons_cons _ (.cons _ (.cons _ ?_))))))
  refine .cons_cons _ (.cons _ (.cons _ (.cons _ (.cons _ ?_))))
  refine .cons_cons _ (.cons _ (.cons _ (.cons _ (.cons _ (.cons _ (.cons _ ?_))))))
  refine .cons_cons _ (.cons _ (.cons _ (.cons _ (.cons _ (.cons _ ?_)))))
  exact .cons_cons _ (.cons _ (.cons _ (.cons_cons _ (List.nil_sublist _))))

namespace Contribution

theorem lines_letGo (arg : ValueArgument) (h : Held) :
    (letGo arg h).flatMap Statement.lines =
      if arg.type.ownership = some .take then [h.invalidation] else [] := by
  rw [letGo]
  split <;> rfl

theorem lines_fixups_of_ofShape {m : Method} {p : Nat × ArgShape} {c : Contribution}
    (h : ofShape m p = .ok c) (hrecv : m.TakesReceiver p) :
    c.fixups.flatMap Statement.lines = p.2.linesBetween := by
  obtain ⟨index, s⟩ := p
  cases s with
  | callback cb =>
    obtain ⟨t, -, -, -, hfixups⟩ := of_ofCallback h
    rw [hfixups]
    rfl
  | valueOrInt arg =>
    rw [(of_ofValueOrInt h).2.2.2]
    exact lines_letGo arg _
  | handle arg cls =>
    have hlines : ∀ {h : Held}, arg.type.ownership = some .take →
        (letGo arg h).flatMap Statement.lines = [h.invalidation] :=
      fun htake => (lines_letGo arg _).trans (if_pos htake)
    rw [ArgShape.linesBetween]
    rcases cases_of_ofHandle h hrecv with
      ⟨htake, hcls, rfl⟩ | ⟨htake, hcls, hc⟩ | ⟨htake, rfl⟩
    · have hcls : cls ∉ ["ctx", "printer", "access_info"] := hcls
      rw [if_pos htake, if_neg hcls]
      exact hlines htake
    · have hcls : cls ∈ ["ctx", "printer", "access_info"] := hcls
      rw [if_pos htake, if_pos hcls]
      rcases hc with rfl | rfl
      · exact hlines htake
      · rfl
    · rw [if_neg htake]
      rfl
  | handleOut arg cls =>
    rw [(of_ofHandleOut h).2.2.2]
    rfl
  | _ =>
    cases h
    rfl

/-- Only a flag that the function returns is declared as a flag. -/
theorem flag_of_ofShape {m : Method} {p : Nat × ArgShape} {c : Contribution}
    (h : ofShape m p = .ok c) {base name : String}
    (hmem : .declareFlag base name ∈ c.checks ++ c.locals) :
    ∃ arg, p.2 = .flag arg ∧ arg.type.base = base := by
  obtain ⟨index, s⟩ := p
  cases s with
  | callback cb =>
    obtain ⟨t, -, hchecks, hlocals, -⟩ := of_ofCallback h
    simp [hchecks, hlocals] at hmem
  | valueOrInt arg =>
    obtain ⟨-, hchecks, hlocals, -⟩ := of_ofValueOrInt h
    simp [hchecks, hlocals] at hmem
  | handle arg cls =>
    rcases of_ofHandle h with ⟨-, -, rfl⟩ | ⟨-, -, rfl⟩ | ⟨-, -, rfl⟩ | ⟨-, rfl⟩
    all_goals simp [ofMutated, ofCopied, ofTaken, ofLent, contextFrom] at hmem
  | handleOut arg cls =>
    obtain ⟨-, hchecks, hlocals, -⟩ := of_ofHandleOut h
    simp [hchecks, hlocals] at hmem
  | flag arg =>
    cases h
    simp only [ofFlag, List.nil_append, List.mem_singleton, Statement.declareFlag.injEq] at hmem
    exact ⟨arg, rfl, hmem.1.symm⟩
  | _ =>
    cases h
    simp [ofScalar, ofText] at hmem

end Contribution

/-! ### Wrappers -/

namespace Wrapper

/-- Of the handles with a name the wrapper lets go of one at most, once, after the call. -/
structure Releases (w : Wrapper) (name : String) (released : Option Held) : Prop where
  statements : ∀ h : Held, h.name = name →
    w.body.count (.invalidate h) = if released = some h then 1 else 0
  own : w.linesBetween.count ("arg_" ++ name ++ ".invalidate();") =
    if released = some (.own name) then 1 else 0
  copy : w.linesBetween.count ("auto_arg_" ++ name ++ "->invalidate();") =
    if released = some (.copy name) then 1 else 0
  temporary : w.linesBetween.count ("unique_arg_" ++ name ++ "->invalidate();") =
    if released = some (.temporary name) then 1 else 0

/-- What a wrapper passes and lets go of, by the shapes of the arguments. -/
structure RespectsOwnership (w : Wrapper) (m : Method) (shapes : List (Nat × ArgShape)) :
    Prop where
  /-- The call stands between the lines before it and those that let go of what is taken. -/
  code : w.code = Code.print w.trampolineLines ++
    Code.functionText (w.conversion.cppType ++ " ") m.wrapperName w.inputs
      (w.linesBefore ++
        (Statement.capture w.captured ++ m.cName ++ "(" ++ ", ".intercalate w.passed ++ ");") ::
          (w.linesBetween ++ w.linesAfter))
  between : w.linesBetween = shapes.flatMap (·.2.linesBetween)
  arity : w.passed.length = m.args.length
  copied : ∀ i arg cls, (i, .handle arg cls) ∈ shapes → arg.type.ownership = some .take →
    cls ∉ ["ctx", "printer", "access_info"] →
      w.passed[i]? = some ("auto_arg_" ++ arg.name ++ "->m_data") ∧
        CopiesHandle w.linesBefore cls arg.name ∧ .handle (.own arg.name) ∉ w.actuals ∧
        w.Releases arg.name (some (.copy arg.name))
  taken : ∀ i arg cls, (i, .handle arg cls) ∈ shapes → arg.type.ownership = some .take →
    cls ∈ ["ctx", "printer", "access_info"] →
      w.passed[i]? = some ("arg_" ++ arg.name ++ ".m_data") ∧
        w.Releases arg.name (some (.own arg.name))
  lent : ∀ i arg cls, (i, .handle arg cls) ∈ shapes → arg.type.ownership ≠ some .take →
    w.passed[i]? = some ("arg_" ++ arg.name ++ ".m_data") ∧ w.Releases arg.name none
  value : ∀ i arg, (i, .valueOrInt arg) ∈ shapes →
    w.passed[i]? = some ("unique_arg_" ++ arg.name ++ "->m_data") ∧
      MakesTemporary w.linesBefore arg.name ∧ .handle (.own arg.name) ∉ w.actuals ∧
      w.Releases arg.name
        (if arg.type.ownership = some .take then some (.temporary arg.name) else none)
  text : ∀ i arg, (i, .text arg) ∈ shapes →
    w.passed[i]? = some (if arg.type.ownership = some .take ∨ arg.type.ownership = some .give then
      "strdup(arg_" ++ arg.name ++ ")" else "arg_" ++ arg.name)
  /-- The result is not looked at, and nothing is returned, before the last release. -/
  order : ∀ before after h, w.body = before ++ .invalidate h :: after →
    w.callStatement ∈ before ∧ ∀ t ∈ before, t.stage ≠ .conversion
  quiet : ∀ line ∈ w.linesBefore ++ w.linesBetween, ¬Concludes line

/-- What the arguments of a method, each with a name of its own, make of its wrapper. -/
structure IsMadeOf (w : Wrapper) (m : Method) (shapes : List (Nat × ArgShape)) : Prop where
  shaped : ArgShape.Shapes 0 m.args shapes
  run : shapes.mapM (Contribution.ofShape m) = .ok w.contributions
  staged : w.IsStaged
  names : (shapes.map (·.2.name)).Nodup

namespace IsMadeOf

variable {w : Wrapper} {m : Method} {shapes : List (Nat × ArgShape)} {p : Nat × ArgShape}

theorem passes (hw : w.IsMadeOf m shapes) (hp : p ∈ shapes) {value : String}
    (ha : ∀ c, Contribution.ofShape m p = .ok c →
      c.actuals[0]?.map Actual.expression = some value) :
    w.passed[p.1]? = some value := by
  obtain ⟨c, hc, hget⟩ := Contribution.getElem?_actuals hw.shaped hw.run hp
  rw [passed, List.getElem?_map, ← ha c hc, ← hget]
  rfl

/-- The lines of a check stand together before the call. -/
theorem prepares (hw : w.IsMadeOf m shapes) (hp : p ∈ shapes) {t : Statement}
    (ht : ∀ c, Contribution.ofShape m p = .ok c → t ∈ c.checks) : t.lines <:+: w.linesBefore := by
  obtain ⟨c, hmem, hc⟩ := exists_mem_of_mapM hw.run hp
  have hchecks : t ∈ w.checks := List.mem_flatMap.mpr ⟨c, hmem, ht c hc⟩
  have hbefore : t ∈ w.beforeCall := by
    rw [beforeCall]
    simp [hchecks]
  exact Statement.lines_infix_of_mem hbefore

theorem released_fixups (hw : w.IsMadeOf m shapes) :
    w.fixups.filterMap Statement.released? = shapes.filterMap (·.2.taken?) := by
  have hmap := map_of_mapM (fun p hp c hc =>
    Contribution.released_of_ofShape hc (Method.takesReceiver hw.shaped hp)) hw.run
  rw [fixups, List.filterMap_flatMap, filterMap_eq_flatMap_toList, List.flatMap_def,
    List.flatMap_def, hmap]

theorem linesBetween_eq (hw : w.IsMadeOf m shapes) :
    w.linesBetween = shapes.flatMap (·.2.linesBetween) := by
  have hmap := map_of_mapM (fun p hp c hc =>
    Contribution.lines_fixups_of_ofShape hc (Method.takesReceiver hw.shaped hp)) hw.run
  rw [linesBetween, fixups, List.flatMap_assoc, List.flatMap_def, List.flatMap_def, hmap]

theorem quiet (hw : w.IsMadeOf m shapes) :
    ∀ line ∈ w.linesBefore ++ w.linesBetween, ¬Concludes line := by
  refine List.forall_mem_append.mpr ⟨fun line hline => ?_, fun line hline => ?_⟩
  · obtain ⟨t, ht, hline⟩ := List.mem_flatMap.mp hline
    refine Statement.not_concludes_of_preparation (hw.staged.preparation t ht) ?_ line hline
    -- A flag is declared for an argument of the shape, whose base is one of two.
    intro base name heq
    have hmem : .declareFlag base name ∈ w.checks ++ w.locals := by
      rw [heq, beforeCall] at ht
      simpa using ht
    obtain ⟨c, hc, hmem⟩ : ∃ c ∈ w.contributions, .declareFlag base name ∈ c.checks ++ c.locals := by
      rcases List.mem_append.mp hmem with hmem | hmem
      · obtain ⟨c, hc, hmem⟩ := List.mem_flatMap.mp hmem
        exact ⟨c, hc, List.mem_append_left _ hmem⟩
      · obtain ⟨c, hc, hmem⟩ := List.mem_flatMap.mp hmem
        exact ⟨c, hc, List.mem_append_right _ hmem⟩
    obtain ⟨⟨i, s⟩, hp, hof⟩ := exists_of_mem_mapM hw.run hc
    obtain ⟨arg, rfl, rfl⟩ := Contribution.flag_of_ofShape hof hmem
    exact hw.shaped.base_of_flag hp
  · obtain ⟨t, ht, hline⟩ := List.mem_flatMap.mp hline
    exact Statement.not_concludes_of_release (hw.staged.release t ht) line hline

theorem releases (hw : w.IsMadeOf m shapes) (hp : p ∈ shapes) :
    w.Releases p.2.name p.2.taken? := by
  have hcount := fun (h : Held) (hname : h.name = p.2.name) =>
    ArgShape.count_taken hw.names hp hname
  have hlines := fun (h : Held) (hname : h.name = p.2.name) => by
    have hlines := Statement.count_lines hw.staged.release h
    rwa [hw.released_fixups, hcount h hname] at hlines
  constructor
  case statements =>
    intro h hname
    rw [hw.staged.count_body, Statement.count_invalidate, hw.released_fixups]
    exact hcount h hname
  case own => exact hlines (.own p.2.name) rfl
  case copy => exact hlines (.copy p.2.name) rfl
  case temporary => exact hlines (.temporary p.2.name) rfl

theorem not_mem_actuals (hw : w.IsMadeOf m shapes) (hp : p ∈ shapes) {h : Held}
    (hname : h.name = p.2.name) (hheld : p.2.held? ≠ some h) : .handle h ∉ w.actuals := by
  intro hmem
  obtain ⟨c, hc, hhc⟩ := List.mem_flatMap.mp hmem
  obtain ⟨q, hq, hqc⟩ := exists_of_mem_mapM hw.run hc
  have hqheld := Contribution.held_of_ofShape hqc (Method.takesReceiver hw.shaped hq) hhc
  -- Another argument with a handle of this name would have the name, too.
  have hqp : q.2.name = p.2.name := by rw [← ArgShape.name_of_held? hqheld, hname]
  rw [eq_of_key hw.names hq hp hqp] at hqheld
  exact hheld hqheld

section Object

variable {i : Nat} {arg : ValueArgument} {cls : String}

theorem passes_object (hw : w.IsMadeOf m shapes) (hp : (i, .handle arg cls) ∈ shapes) :
    w.passed[i]? = some (Held.ofObject arg cls).expression := by
  refine hw.passes hp fun c hc => ?_
  rw [Contribution.actuals_of_ofHandle hc (Method.takesReceiver hw.shaped hp)]
  rfl

theorem releases_object (hw : w.IsMadeOf m shapes) (hp : (i, .handle arg cls) ∈ shapes) :
    w.Releases arg.name
      (if arg.type.ownership = some .take then some (.ofObject arg cls) else none) :=
  hw.releases hp

theorem copied (hw : w.IsMadeOf m shapes) (hp : (i, .handle arg cls) ∈ shapes)
    (htake : arg.type.ownership = some .take) (hcls : cls ∉ Catalogue.nonCopyable) :
    w.passed[i]? = some ("auto_arg_" ++ arg.name ++ "->m_data") ∧
      CopiesHandle w.linesBefore cls arg.name ∧ .handle (.own arg.name) ∉ w.actuals ∧
      w.Releases arg.name (some (.copy arg.name)) := by
  have hpassed := hw.passes_object hp
  have hreleases := hw.releases_object hp
  have hheld := Held.ofObject_of_copied htake hcls
  rw [hheld] at hpassed
  rw [hheld, if_pos htake] at hreleases
  refine ⟨hpassed, ?_, ?_, hreleases⟩
  · have hlines : (Statement.copyHandle m.wrapperName cls arg.name).lines <:+: w.linesBefore := by
      refine hw.prepares hp fun c hc => ?_
      rcases Contribution.cases_of_ofHandle hc (Method.takesReceiver hw.shaped hp) with
        ⟨-, -, rfl⟩ | ⟨-, hmem, -⟩ | ⟨hlent, -⟩
      · exact List.mem_cons_of_mem _ (List.mem_cons_self ..)
      · exact absurd hmem hcls
      · exact absurd htake hlent
    exact copiesHandle_of_infix hlines
  · refine hw.not_mem_actuals hp rfl ?_
    show some (Held.ofObject arg cls) ≠ _
    rw [hheld]
    simp

theorem taken (hw : w.IsMadeOf m shapes) (hp : (i, .handle arg cls) ∈ shapes)
    (htake : arg.type.ownership = some .take) (hcls : cls ∈ Catalogue.nonCopyable) :
    w.passed[i]? = some ("arg_" ++ arg.name ++ ".m_data") ∧
      w.Releases arg.name (some (.own arg.name)) := by
  have hpassed := hw.passes_object hp
  have hreleases := hw.releases_object hp
  have hheld : Held.ofObject arg cls = .own arg.name := Held.ofObject_of_nonCopyable hcls
  rw [hheld] at hpassed
  rw [hheld, if_pos htake] at hreleases
  exact ⟨hpassed, hreleases⟩

theorem lent (hw : w.IsMadeOf m shapes) (hp : (i, .handle arg cls) ∈ shapes)
    (hlent : arg.type.ownership ≠ some .take) :
    w.passed[i]? = some ("arg_" ++ arg.name ++ ".m_data") ∧ w.Releases arg.name none := by
  have hpassed := hw.passes_object hp
  have hreleases := hw.releases_object hp
  rw [Held.ofObject_of_lent hlent] at hpassed
  rw [if_neg hlent] at hreleases
  exact ⟨hpassed, hreleases⟩

theorem value (hw : w.IsMadeOf m shapes) (hp : (i, .valueOrInt arg) ∈ shapes) :
    w.passed[i]? = some ("unique_arg_" ++ arg.name ++ "->m_data") ∧
      MakesTemporary w.linesBefore arg.name ∧ .handle (.own arg.name) ∉ w.actuals ∧
      w.Releases arg.name
        (if arg.type.ownership = some .take then some (.temporary arg.name) else none) := by
  have hlines : (Statement.takeValue arg.name).lines <:+: w.linesBefore := by
    refine hw.prepares hp fun c hc => ?_
    rw [(Contribution.of_ofValueOrInt hc).2.1]
    exact List.mem_singleton_self _
  refine ⟨hw.passes hp fun c hc => ?_, makesTemporary_of_infix hlines,
    hw.not_mem_actuals hp rfl (by simp [ArgShape.held?]), hw.releases hp⟩
  rw [(Contribution.of_ofValueOrInt hc).1]
  rfl

theorem text (hw : w.IsMadeOf m shapes) (hp : (i, .text arg) ∈ shapes) :
    w.passed[i]? = some (if arg.type.ownership = some .take ∨ arg.type.ownership = some .give then
      "strdup(arg_" ++ arg.name ++ ")" else "arg_" ++ arg.name) := by
  rw [← Actual.expression_text]
  refine hw.passes hp fun c hc => ?_
  cases hc
  rfl

end Object

end IsMadeOf

end Wrapper

section OfWrap

variable {m : Method} {w : Wrapper}

theorem Method.isMadeOf_of_wrap (hw : m.wrap = .wrapped w)
    (hdistinct : (m.args.map Argument.name).Nodup) :
    ∃ shapes, m.argShapes = .ok shapes ∧ w.IsMadeOf m shapes := by
  obtain ⟨shapes, extras, shape, hargs, hrun, -⟩ := exists_of_wrap hw
  have hshapes := ArgShape.shapes_of_ofArguments hargs
  exact ⟨shapes, hargs, hshapes, hrun, isStaged_of_wrap hw, hshapes.names_sublist.nodup hdistinct⟩

/-- A wrapper of a method whose arguments have names of their own respects ownership. -/
theorem Method.respectsOwnership_of_wrap (hw : m.wrap = .wrapped w)
    (hdistinct : (m.args.map Argument.name).Nodup) :
    ∃ shapes, m.argShapes = .ok shapes ∧ w.RespectsOwnership m shapes := by
  obtain ⟨shapes, hargs, hmade⟩ := isMadeOf_of_wrap hw hdistinct
  refine ⟨shapes, hargs, ?_⟩
  constructor
  case code => exact code_of_wrap hw
  case between => exact hmade.linesBetween_eq
  case arity =>
    rw [Wrapper.passed, List.length_map]
    exact Contribution.length_flatMap_actuals hmade.shaped hmade.run
  case copied => exact fun i arg cls hp htake hcls => hmade.copied hp htake hcls
  case taken => exact fun i arg cls hp htake hcls => hmade.taken hp htake hcls
  case lent => exact fun i arg cls hp hlent => hmade.lent hp hlent
  case value => exact fun i arg hp => hmade.value hp
  case text => exact fun i arg hp => hmade.text hp
  case order => exact fun before after h hbody => hmade.staged.stage_of_eq_append hbody
  case quiet => exact hmade.quiet

end OfWrap

def Method.sample : Method where
  cls := "printer"
  name := "print_pair"
  cName := "isl_printer_print_pair"
  result := { base := "isl_printer", depth := .pointer, ownership := some .give }
  args :=
    [.value
      { name := "self", isConst := false
        type := { base := "isl_printer", depth := .pointer, ownership := some .take } },
    .value
      { name := "set", isConst := false
        type := { base := "isl_set", depth := .pointer, ownership := some .take } },
    .value
      { name := "map", isConst := false
        type := { base := "isl_map", depth := .pointer, ownership := some .keep } }]
  isExported := false
  isConstructor := false
  mutatorVeto := false

theorem Method.respectsOwnership_sample :
    ∃ w shapes, sample.wrap = .wrapped w ∧ (sample.args.map Argument.name).Nodup ∧
      sample.argShapes = .ok shapes ∧ w.RespectsOwnership sample shapes ∧
      w.passed = ["arg_self.m_data", "auto_arg_set->m_data", "arg_map.m_data"] ∧
      w.linesBetween = ["arg_self.invalidate();", "auto_arg_set->invalidate();"] := by
  have hlines : (match sample.wrap with
      | .wrapped w => some (w.passed, w.linesBetween)
      | _ => none) = some (["arg_self.m_data", "auto_arg_set->m_data", "arg_map.m_data"],
        ["arg_self.invalidate();", "auto_arg_set->invalidate();"]) := by
    decide +kernel
  have hdistinct : (sample.args.map Argument.name).Nodup := by decide
  cases hw : sample.wrap with
  | wrapped w =>
    rw [hw, Option.some.injEq, Prod.mk.injEq] at hlines
    obtain ⟨shapes, hshapes, hrespects⟩ := respectsOwnership_of_wrap hw hdistinct
    exact ⟨w, shapes, rfl, hdistinct, hshapes, hrespects, hlines⟩
  | skipped reason =>
    rw [hw] at hlines
    cases hlines
  | retry =>
    rw [hw] at hlines
    cases hlines

end IslBindings
