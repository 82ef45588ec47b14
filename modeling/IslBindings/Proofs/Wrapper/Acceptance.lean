import IslBindings.Proofs.Wrapper.WellShaped

/-!
# Which methods have a wrapper

A method has a wrapper exactly if it is well-shaped: its arguments and its result can cross
the boundary, and no other value comes with a result that has to stand alone. A method that
changes its receiver in place and returns other values too is wrapped in a second run.
-/

namespace IslBindings

/-! ### Values that come with the result -/

/-- The method's class keeps the callbacks that it is given. -/
def Method.HoldsCallbacks (m : Method) : Prop :=
  (m.cls = "ast_build" ∨ m.cls = "ast_print_options") ∧ "set_".toList <+: m.name.toList

/-- Some argument comes back with the result: a flag, an object through a pointer, or a callback
if those are held. A slot behind a callback does not count. -/
inductive HasAuxiliary (areHeld : Prop) : List Argument → Prop where
  | flag {arg : ValueArgument} {rest : List Argument} : arg.type.depth = .pointer →
      arg.type.base = "int" ∨ arg.type.base = "isl_bool" → HasAuxiliary areHeld (.value arg :: rest)
  | object {arg : ValueArgument} {rest : List Argument} : arg.type.depth = .pointerToPointer →
      HasAuxiliary areHeld (.value arg :: rest)
  | callback {name : String} {result : CType} {inner rest : List Argument} : areHeld →
      HasAuxiliary areHeld (.callback name result inner :: rest)
  | afterValue {arg : ValueArgument} {rest : List Argument} : HasAuxiliary areHeld rest →
      HasAuxiliary areHeld (.value arg :: rest)
  | afterCallback {name : String} {result : CType} {inner : List Argument} {next : Argument}
      {rest : List Argument} : HasAuxiliary areHeld rest →
      HasAuxiliary areHeld (.callback name result inner :: next :: rest)

def Method.HasAuxiliary (m : Method) : Prop := IslBindings.HasAuxiliary m.HoldsCallbacks m.args

namespace ArgShape

def ComesBack (areHeld : Prop) : ArgShape → Prop
  | .flag _ => True
  | .handleOut .. => True
  | .callback _ => areHeld
  | _ => False

variable {areHeld : Prop}

theorem comesBack_of_ofValue {arg : ValueArgument} {index : Nat} {s : ArgShape}
    (h : ofValue arg index = .ok s) : s.ComesBack areHeld ↔
      (arg.type.depth = .pointer ∧ (arg.type.base = "int" ∨ arg.type.base = "isl_bool")) ∨
        arg.type.depth = .pointerToPointer := by
  cases suits_of_ofValue h with
  | scalar hdepth hbase => simp [ComesBack, hdepth]
  | text hdepth hbase => simp [ComesBack, hdepth, hbase]
  | flag hdepth hbase hname => simp [ComesBack, hdepth, hbase]
  | valueOrInt hdepth hbase hindex => simp [ComesBack, hdepth, hbase]
  | @handle cls hdepth hbase hbool hval =>
    have hint : arg.type.base ≠ "int" := hbase ▸ isl_append_ne (by decide)
    simp [ComesBack, hdepth, hint, hbool]
  | handleOut hdepth hbase => simp [ComesBack, hdepth]

/-- The auxiliaries of a signature, with its slots left out. -/
theorem Shapes.exists_comesBack_iff {index : Nat} {args : List Argument}
    {shapes : List (Nat × ArgShape)} (h : Shapes index args shapes) :
    (∃ p ∈ shapes, p.2.ComesBack areHeld) ↔ HasAuxiliary areHeld args := by
  induction h with
  | nil => exact ⟨fun ⟨p, hp, _⟩ => by simp at hp, fun h => by cases h⟩
  | @value index arg s args shapes hs _ ih =>
    simp only [List.mem_cons, or_and_right, exists_or, exists_eq_left]
    constructor
    · rintro (hback | hback)
      · rcases (comesBack_of_ofValue hs).mp hback with ⟨hdepth, hbase⟩ | hdepth
        · exact .flag hdepth hbase
        · exact .object hdepth
      · exact .afterValue (ih.mp hback)
    · rintro (⟨hdepth, hbase⟩ | hdepth | - | hrest)
      · exact .inl ((comesBack_of_ofValue hs).mpr (.inl ⟨hdepth, hbase⟩))
      · exact .inl ((comesBack_of_ofValue hs).mpr (.inr hdepth))
      · exact .inr (ih.mpr hrest)
  | callback _ ih =>
    simp only [List.mem_cons, or_and_right, exists_or, exists_eq_left]
    constructor
    · rintro (hheld | hback)
      · exact .callback hheld
      · exact .afterCallback (ih.mp hback)
    · rintro (- | - | hheld | - | hrest)
      · exact .inl hheld
      · exact .inr (ih.mpr hrest)

end ArgShape

namespace Contribution

variable {m : Method}

theorem keepsCallback_iff : keepsCallback m = true ↔ m.HoldsCallbacks := by
  rw [keepsCallback, Bool.and_eq_true, Text.startsWith_iff, List.contains_iff_mem]
  simp [Method.HoldsCallbacks, Catalogue.callbackHolders]

theorem auxiliary_of_ofHandle {index : Nat} {arg : ValueArgument} {cls : String} {c : Contribution}
    (h : ofHandle m index arg cls = .ok c) : c.auxiliary = none := by
  rcases of_ofHandle h with ⟨-, -, rfl⟩ | ⟨-, -, rfl⟩ | ⟨-, -, rfl⟩ | ⟨-, rfl⟩
  all_goals rfl

theorem auxiliary_of_ofShape {p : Nat × ArgShape} {c : Contribution} (h : ofShape m p = .ok c) :
    c.auxiliary ≠ none ↔ p.2.ComesBack m.HoldsCallbacks := by
  obtain ⟨index, s⟩ := p
  cases s with
  | callback cb =>
    obtain ⟨t, -, h⟩ := exists_of_bind_ok h
    cases h
    rw [ArgShape.ComesBack, ← keepsCallback_iff]
    cases keepsCallback m <;> simp
  | valueOrInt arg =>
    simp only [ofShape, ofValueOrInt] at h
    split at h
    · cases h
    · cases h
      simp [ArgShape.ComesBack]
  | handle arg cls =>
    rw [auxiliary_of_ofHandle h]
    simp [ArgShape.ComesBack]
  | handleOut arg cls =>
    simp only [ofShape, ofHandleOut] at h
    split at h
    · cases h
      simp [ArgShape.ComesBack]
    · cases h
  | _ =>
    cases h
    simp [ArgShape.ComesBack, ofScalar, ofText, ofFlag]

end Contribution

namespace Method

variable {m : Method}

theorem succeeds_contributions_iff : Succeeds m.contributions ↔ IsShapedFrom 0 m.args := by
  rw [contributions, succeeds_bind_iff, ← isShapedFrom_iff fun _ => rfl]
  simp only [succeeds_mapM_iff]
  rfl

theorem auxiliaries_eq_nil_iff {cs : List Contribution} (h : m.contributions = .ok cs) :
    cs.filterMap (·.auxiliary) = [] ↔ ¬m.HasAuxiliary := by
  obtain ⟨shapes, hshapes, hrun⟩ := exists_of_bind_ok h
  have hback : _ ↔ IslBindings.HasAuxiliary m.HoldsCallbacks m.args :=
    (ArgShape.shapes_of_ofArguments hshapes).exists_comesBack_iff
  rw [HasAuxiliary, ← hback, List.filterMap_eq_nil_iff]
  constructor
  · rintro hnone ⟨p, hp, hcomes⟩
    obtain ⟨c, hc, hof⟩ := exists_mem_of_mapM hrun hp
    exact (Contribution.auxiliary_of_ofShape hof).mpr hcomes (hnone c hc)
  · intro hnone c hc
    obtain ⟨p, hp, hof⟩ := exists_of_mem_mapM hrun hc
    refine Decidable.of_not_not fun haux => ?_
    exact hnone ⟨p, hp, (Contribution.auxiliary_of_ofShape hof).mp haux⟩

theorem auxiliaries_ne_nil_iff {cs : List Contribution} (h : m.contributions = .ok cs) :
    cs.filterMap (·.auxiliary) ≠ [] ↔ m.HasAuxiliary := by
  rw [ne_eq, auxiliaries_eq_nil_iff h, Classical.not_not]

end Method

/-! ### Results -/

/-- The types of results, for a function of a name. -/
inductive CType.IsResult (t : CType) (name : String) : Prop where
  | nothing : t.depth = .value → t.base = "void" → IsResult t name
  | scalar : t.depth = .value → Catalogue.isValueType t.base = true → IsResult t name
  | text : t.depth = .pointer → t.base = "char" ∨ t.base = "const char" → IsResult t name
  | userObject : t.depth = .pointer → t.base = "void" → name = "get_user" → IsResult t name
  | object {cls : String} : t.depth = .pointer → t.base = "isl_" ++ cls →
      t.ownership = some .give ∨ cls = "ctx" → IsResult t name

/-- The results that no other value comes with. -/
inductive CType.StandsAlone (t : CType) : Prop where
  | scalar : t.depth = .value →
      t.base ∉ ["void", "int", "isl_size", "isl_stat", "isl_bool"] → StandsAlone t
  | pointer : t.depth = .pointer → t.base ∈ ["char", "const char", "void"] → StandsAlone t

namespace ResultShape

/-- Which shape the result of a method has. -/
inductive Suits (m : Method) : ResultShape → Prop where
  | nothing : m.result.depth = .value → m.result.base = "void" → Suits m .nothing
  | int : m.result.depth = .value → m.result.base = "int" → Suits m (.int m.isPredicate)
  | size : m.result.depth = .value → m.result.base = "isl_size" → Suits m .size
  | status : m.result.depth = .value → m.result.base = "isl_stat" → Suits m .status
  | bool : m.result.depth = .value → m.result.base = "isl_bool" → Suits m .bool
  | scalar : m.result.depth = .value → Catalogue.isValueType m.result.base = true →
      m.result.base ∉ ["void", "int", "isl_size", "isl_stat", "isl_bool"] → Suits m .scalar
  | text : m.result.depth = .pointer → m.result.base = "char" ∨ m.result.base = "const char" →
      Suits m .text
  | userObject : m.result.depth = .pointer → m.result.base = "void" → m.name = "get_user" →
      Suits m .userObject
  | handle {cls : String} : m.result.depth = .pointer → m.result.base = "isl_" ++ cls →
      Suits m (.handle cls)

variable {m : Method} {s : ResultShape}

theorem suits_of_resultShape (h : m.resultShape = .ok s) : Suits m s := by
  simp only [Method.resultShape] at h
  split at h
  · next hdepth =>
    split at h
    · next hbase =>
      cases h
      exact .nothing hdepth hbase
    · next hvoid =>
      split at h
      · next hbase =>
        cases h
        exact .int hdepth hbase
      · next hint =>
        split at h
        · next hbase =>
          cases h
          exact .size hdepth hbase
        · next hsize =>
          split at h
          · next hbase =>
            cases h
            exact .status hdepth hbase
          · next hstat =>
            split at h
            · next hbase =>
              cases h
              exact .bool hdepth hbase
            · next hbool =>
              split at h
              · next hbase =>
                cases h
                exact .scalar hdepth hbase (by simp [hvoid, hint, hsize, hstat, hbool])
              · cases h
  · next hdepth =>
    split at h
    · next hbase =>
      cases h
      exact .text hdepth hbase
    · split at h
      · next huser =>
        cases h
        exact .userObject hdepth huser.1 huser.2
      · split at h
        · next cls hcls =>
          cases h
          exact .handle hdepth (Text.afterStart?_eq_some_iff.mp hcls)
        · cases h
  · cases h

theorem resultShape_of_suits (h : Suits m s) : m.resultShape = .ok s := by
  cases h with
  | nothing hdepth hbase => simp [Method.resultShape, hdepth, hbase]
  | int hdepth hbase => simp [Method.resultShape, hdepth, hbase]
  | size hdepth hbase => simp [Method.resultShape, hdepth, hbase]
  | status hdepth hbase => simp [Method.resultShape, hdepth, hbase]
  | bool hdepth hbase => simp [Method.resultShape, hdepth, hbase]
  | scalar hdepth hbase hother =>
    simp only [List.mem_cons, not_or] at hother
    obtain ⟨hvoid, hint, hsize, hstat, hbool, -⟩ := hother
    simp [Method.resultShape, hdepth, hvoid, hint, hsize, hstat, hbool, hbase]
  | text hdepth hbase => simp [Method.resultShape, hdepth, hbase]
  | userObject hdepth hbase hname => simp [Method.resultShape, hdepth, hbase, hname]
  | handle hdepth hbase =>
    have hchar : m.result.base ≠ "char" := hbase ▸ isl_append_ne (by decide)
    have hconst : m.result.base ≠ "const char" := hbase ▸ isl_append_ne (by decide)
    have hvoid : m.result.base ≠ "void" := hbase ▸ isl_append_ne (by decide)
    have hcls := Text.afterStart?_eq_some_iff.mpr hbase
    simp [Method.resultShape, hdepth, hchar, hconst, hvoid, hcls]

/-! ### Conversions -/

/-- No other value comes with a result of the shape. -/
def StandsAlone : ResultShape → Prop
  | .scalar => True
  | .text => True
  | .userObject => True
  | _ => False

/-- An object is given to the caller; only a context may come without an annotation. -/
def IsGiven (m : Method) (s : ResultShape) : Prop :=
  ∀ cls, s = .handle cls → m.result.ownership = some .give ∨ cls = "ctx"

theorem isResult_iff : m.result.IsResult m.name ↔ ∃ s, Suits m s ∧ s.IsGiven m := by
  constructor
  · rintro (⟨hdepth, hbase⟩ | ⟨hdepth, hbase⟩ | ⟨hdepth, hbase⟩ | ⟨hdepth, hbase, hname⟩ |
      ⟨hdepth, hbase, hgiven⟩)
    · exact ⟨_, .nothing hdepth hbase, by simp [IsGiven]⟩
    · by_cases hint : m.result.base = "int"
      · exact ⟨_, .int hdepth hint, by simp [IsGiven]⟩
      by_cases hsize : m.result.base = "isl_size"
      · exact ⟨_, .size hdepth hsize, by simp [IsGiven]⟩
      by_cases hstat : m.result.base = "isl_stat"
      · exact ⟨_, .status hdepth hstat, by simp [IsGiven]⟩
      by_cases hbool : m.result.base = "isl_bool"
      · exact ⟨_, .bool hdepth hbool, by simp [IsGiven]⟩
      have hvoid : m.result.base ≠ "void" := by
        intro hvoid
        rw [hvoid] at hbase
        exact absurd hbase (by decide)
      exact ⟨_, .scalar hdepth hbase (by simp [hvoid, hint, hsize, hstat, hbool]), by simp [IsGiven]⟩
    · exact ⟨_, .text hdepth hbase, by simp [IsGiven]⟩
    · exact ⟨_, .userObject hdepth hbase hname, by simp [IsGiven]⟩
    · refine ⟨_, .handle hdepth hbase, fun cls' hcls' => ?_⟩
      cases hcls'
      exact hgiven
  · rintro ⟨s, hs, hgiven⟩
    cases hs with
    | nothing hdepth hbase => exact .nothing hdepth hbase
    | int hdepth hbase => exact .scalar hdepth (by rw [hbase]; decide)
    | size hdepth hbase => exact .scalar hdepth (by rw [hbase]; decide)
    | status hdepth hbase => exact .scalar hdepth (by rw [hbase]; decide)
    | bool hdepth hbase => exact .scalar hdepth (by rw [hbase]; decide)
    | scalar hdepth hbase => exact .scalar hdepth hbase
    | text hdepth hbase => exact .text hdepth hbase
    | userObject hdepth hbase hname => exact .userObject hdepth hbase hname
    | @handle cls hdepth hbase => exact .object hdepth hbase (hgiven cls rfl)

theorem standsAlone_iff (h : Suits m s) : m.result.StandsAlone ↔ s.StandsAlone := by
  have hvalue : m.result.depth = .value → (m.result.StandsAlone ↔
      m.result.base ∉ ["void", "int", "isl_size", "isl_stat", "isl_bool"]) := by
    intro hdepth
    refine ⟨?_, .scalar hdepth⟩
    rintro (⟨-, hother⟩ | ⟨hpointer, -⟩)
    · exact hother
    · rw [hdepth] at hpointer
      cases hpointer
  have hpointer : m.result.depth = .pointer → (m.result.StandsAlone ↔
      m.result.base ∈ ["char", "const char", "void"]) := by
    intro hdepth
    refine ⟨?_, .pointer hdepth⟩
    rintro (⟨hvalue, -⟩ | ⟨-, hbase⟩)
    · rw [hdepth] at hvalue
      cases hvalue
    · exact hbase
  cases h with
  | nothing hdepth hbase => simp [hvalue hdepth, hbase, StandsAlone]
  | int hdepth hbase => simp [hvalue hdepth, hbase, StandsAlone]
  | size hdepth hbase => simp [hvalue hdepth, hbase, StandsAlone]
  | status hdepth hbase => simp [hvalue hdepth, hbase, StandsAlone]
  | bool hdepth hbase => simp [hvalue hdepth, hbase, StandsAlone]
  | scalar hdepth _ hother => exact iff_of_true ((hvalue hdepth).mpr hother) trivial
  | text hdepth hbase =>
    refine iff_of_true ((hpointer hdepth).mpr ?_) trivial
    rcases hbase with hbase | hbase <;> simp [hbase]
  | userObject hdepth hbase => exact iff_of_true ((hpointer hdepth).mpr (by simp [hbase])) trivial
  | handle hdepth hbase =>
    have hchar : m.result.base ≠ "char" := hbase ▸ isl_append_ne (by decide)
    have hconst : m.result.base ≠ "const char" := hbase ▸ isl_append_ne (by decide)
    have hvoid : m.result.base ≠ "void" := hbase ▸ isl_append_ne (by decide)
    simp [hpointer hdepth, hchar, hconst, hvoid, StandsAlone]

end ResultShape

/-- A receiver that is changed in place is the object that is given back. -/
theorem ResultShape.Suits.of_isMutator {m : Method} {s : ResultShape} (h : Suits m s)
    (hmut : m.isMutator = true) : ∃ cls, s = .handle cls ∧ m.result.ownership = some .give := by
  obtain ⟨receiver, rest, -, hm⟩ := Method.exists_mutates hmut
  have hshape : m.resultShape = .ok (.handle m.cls) :=
    resultShape_of_suits (.handle hm.resultDepth hm.resultBase)
  rw [resultShape_of_suits h, Except.ok.injEq] at hshape
  exact ⟨m.cls, hshape, hm.resultOwnership⟩

namespace Conversion

variable {m : Method} {s : ResultShape} {extras : List Auxiliary}

theorem succeeds_alone_iff {refusal : Unsupported} {c : Conversion} :
    Succeeds (alone extras refusal c) ↔ extras = [] := by
  rw [alone, succeeds_ite_iff, List.isEmpty_iff]

theorem alone_ne_retry {refusal : Unsupported} {c : Conversion} :
    alone extras refusal c ≠ .error .retry := by
  rw [alone]
  split
  · intro h
    cases h
  · intro h
    cases h

theorem succeeds_ofHandle_iff {cls : String} : Succeeds (ofHandle m cls extras) ↔
    if m.isMutator then extras = [] else m.result.ownership = some .give ∨ cls = "ctx" := by
  rw [ofHandle]
  split
  · rw [succeeds_ite_iff, List.isEmpty_iff]
  · split
    · next hgiven => exact iff_of_true (succeeds_ok _) hgiven
    · next hgiven =>
      split
      · exact iff_of_false (not_succeeds_error _) hgiven
      · exact iff_of_false (not_succeeds_error _) hgiven

theorem succeeds_ofShape_iff (h : ResultShape.Suits m s) : Succeeds (ofShape m extras s) ↔
    s.IsGiven m ∧ (s.StandsAlone → extras = []) ∧ ¬(m.isMutator = true ∧ extras ≠ []) := by
  by_cases hmut : m.isMutator = true
  · obtain ⟨cls, rfl, hgive⟩ := h.of_isMutator hmut
    rw [ofShape, succeeds_ofHandle_iff, if_pos hmut]
    simp [ResultShape.IsGiven, ResultShape.StandsAlone, hgive, hmut]
  · have hextras : ¬(m.isMutator = true ∧ extras ≠ []) := fun h => hmut h.1
    cases s with
    | int isPredicate => cases isPredicate <;>
        simp [ofShape, succeeds_ok, ResultShape.IsGiven, ResultShape.StandsAlone, hmut]
    | scalar =>
      rw [ofShape, succeeds_alone_iff]
      simp [ResultShape.IsGiven, ResultShape.StandsAlone, hmut]
    | text =>
      rw [ofShape, succeeds_alone_iff]
      simp [ResultShape.IsGiven, ResultShape.StandsAlone, hmut]
    | userObject =>
      rw [ofShape, succeeds_alone_iff]
      simp [ResultShape.IsGiven, ResultShape.StandsAlone, hmut]
    | handle cls =>
      rw [ofShape, succeeds_ofHandle_iff, if_neg hmut]
      simp [ResultShape.IsGiven, ResultShape.StandsAlone, hmut]
    | _ => simp [ofShape, succeeds_ok, ResultShape.IsGiven, ResultShape.StandsAlone, hmut]

/-- Only other values beside a receiver that is changed in place ask for a second run. -/
theorem ofShape_eq_retry_iff (h : ResultShape.Suits m s) :
    ofShape m extras s = .error .retry ↔ m.isMutator = true ∧ extras ≠ [] := by
  by_cases hmut : m.isMutator = true
  · obtain ⟨cls, rfl, -⟩ := h.of_isMutator hmut
    rw [ofShape, ofHandle, if_pos hmut]
    cases extras <;> simp [hmut]
  · refine iff_of_false (fun hretry => ?_) fun h => hmut h.1
    cases s with
    | int isPredicate => cases isPredicate <;> cases hretry
    | handle cls =>
      rw [ofShape, ofHandle, if_neg hmut] at hretry
      split at hretry
      · cases hretry
      · split at hretry <;> cases hretry
    | scalar => exact alone_ne_retry hretry
    | text => exact alone_ne_retry hretry
    | userObject => exact alone_ne_retry hretry
    | _ => cases hretry

end Conversion

/-! ### Methods -/

structure Method.WellShaped (m : Method) : Prop where
  arguments : IsShapedFrom 0 m.args
  result : m.result.IsResult m.name
  alone : m.result.StandsAlone → ¬m.HasAuxiliary

namespace Method

variable {m : Method}

theorem exists_wrapped_iff : (∃ w, m.wrap = .wrapped w) ↔ ∃ cs s, m.contributions = .ok cs ∧
    m.resultShape = .ok s ∧ Succeeds (Conversion.ofShape m (cs.filterMap (·.auxiliary)) s) := by
  constructor
  · rintro ⟨w, h⟩
    obtain ⟨cs, s, c, hcs, hs, hc, -⟩ := exists_assemble_of_wrap h
    exact ⟨cs, s, hcs, hs, c, hc⟩
  · rintro ⟨cs, s, hcs, hs, c, hc⟩
    refine ⟨m.assemble cs s c, ?_⟩
    simp only [wrap, hcs, hs, hc]

theorem exists_of_retry (h : m.wrap = .retry) : ∃ cs s, m.contributions = .ok cs ∧
    m.resultShape = .ok s ∧
      Conversion.ofShape m (cs.filterMap (·.auxiliary)) s = .error .retry := by
  simp only [wrap] at h
  split at h
  · cases h
  · next cs hcs =>
    split at h
    · cases h
    · next s hs =>
      split at h
      · cases h
      · next hretry => exact ⟨cs, s, hcs, hs, hretry⟩
      · cases h

theorem retry_of_conversion {cs : List Contribution} {s : ResultShape}
    (hcs : m.contributions = .ok cs) (hs : m.resultShape = .ok s)
    (h : Conversion.ofShape m (cs.filterMap (·.auxiliary)) s = .error .retry) :
    m.wrap = .retry := by
  simp only [wrap, hcs, hs, h]

theorem wrapped_iff :
    (∃ w, m.wrap = .wrapped w) ↔ m.WellShaped ∧ ¬(m.isMutator = true ∧ m.HasAuxiliary) := by
  rw [exists_wrapped_iff]
  constructor
  · rintro ⟨cs, s, hcs, hs, h⟩
    have hsuits := ResultShape.suits_of_resultShape hs
    obtain ⟨hgiven, halone, hmutator⟩ := (Conversion.succeeds_ofShape_iff hsuits).mp h
    rw [auxiliaries_ne_nil_iff hcs] at hmutator
    rw [auxiliaries_eq_nil_iff hcs, ← ResultShape.standsAlone_iff hsuits] at halone
    exact ⟨⟨succeeds_contributions_iff.mp ⟨cs, hcs⟩,
      ResultShape.isResult_iff.mpr ⟨s, hsuits, hgiven⟩, halone⟩, hmutator⟩
  · rintro ⟨⟨hargs, hresult, halone⟩, hmutator⟩
    obtain ⟨cs, hcs⟩ := succeeds_contributions_iff.mpr hargs
    obtain ⟨s, hsuits, hgiven⟩ := ResultShape.isResult_iff.mp hresult
    rw [ResultShape.standsAlone_iff hsuits, ← auxiliaries_eq_nil_iff hcs] at halone
    refine ⟨cs, s, hcs, ResultShape.resultShape_of_suits hsuits,
      (Conversion.succeeds_ofShape_iff hsuits).mpr ⟨hgiven, halone, ?_⟩⟩
    rw [auxiliaries_ne_nil_iff hcs]
    exact hmutator

theorem retry_iff : m.wrap = .retry ↔ m.WellShaped ∧ m.isMutator = true ∧ m.HasAuxiliary := by
  constructor
  · intro h
    obtain ⟨cs, s, hcs, hs, h⟩ := exists_of_retry h
    have hsuits := ResultShape.suits_of_resultShape hs
    obtain ⟨hmut, hextras⟩ := (Conversion.ofShape_eq_retry_iff hsuits).mp h
    rw [auxiliaries_ne_nil_iff hcs] at hextras
    obtain ⟨cls, rfl, hgive⟩ := hsuits.of_isMutator hmut
    refine ⟨⟨succeeds_contributions_iff.mp ⟨cs, hcs⟩,
      ResultShape.isResult_iff.mpr ⟨_, hsuits, fun _ _ => .inl hgive⟩, fun halone => ?_⟩,
      hmut, hextras⟩
    exact absurd ((ResultShape.standsAlone_iff hsuits).mp halone) id
  · rintro ⟨⟨hargs, hresult, -⟩, hmut, hextras⟩
    obtain ⟨cs, hcs⟩ := succeeds_contributions_iff.mpr hargs
    obtain ⟨s, hsuits, -⟩ := ResultShape.isResult_iff.mp hresult
    refine retry_of_conversion hcs (ResultShape.resultShape_of_suits hsuits)
      ((Conversion.ofShape_eq_retry_iff hsuits).mpr ⟨hmut, ?_⟩)
    rw [auxiliaries_ne_nil_iff hcs]
    exact hextras

theorem wellShaped_veto : m.veto.WellShaped ↔ m.WellShaped :=
  ⟨fun h => ⟨h.arguments, h.result, h.alone⟩, fun h => ⟨h.arguments, h.result, h.alone⟩⟩

theorem isMutator_of_veto (h : m.mutatorVeto = true) : m.isMutator = false := by
  simp [isMutator, h]

theorem veto_wrapped_iff : (∃ w, m.veto.wrap = .wrapped w) ↔ m.WellShaped := by
  have hmut : m.veto.isMutator = false := isMutator_of_veto rfl
  rw [wrapped_iff, wellShaped_veto, hmut]
  simp

theorem wrapOrVeto_wrapped_iff : (∃ w, m.wrapOrVeto = .wrapped w) ↔ m.WellShaped := by
  cases hwrap : m.wrap with
  | wrapped w =>
    have hshaped := (wrapped_iff.mp ⟨w, hwrap⟩).1
    exact iff_of_true ⟨w, by simp only [wrapOrVeto, hwrap]⟩ hshaped
  | retry =>
    simp only [wrapOrVeto, hwrap]
    exact veto_wrapped_iff
  | skipped reason =>
    simp only [wrapOrVeto, hwrap]
    refine iff_of_false (fun ⟨w, h⟩ => by cases h) fun hshaped => ?_
    by_cases hextras : m.isMutator = true ∧ m.HasAuxiliary
    · rw [retry_iff.mpr ⟨hshaped, hextras⟩] at hwrap
      cases hwrap
    · obtain ⟨w, hw⟩ := wrapped_iff.mpr ⟨hshaped, hextras⟩
      rw [hw] at hwrap
      cases hwrap

theorem skipped_iff : (∃ reason, m.wrap = .skipped reason) ↔ ¬m.WellShaped := by
  constructor
  · rintro ⟨reason, h⟩ hshaped
    obtain ⟨w, hw⟩ := wrapOrVeto_wrapped_iff.mpr hshaped
    simp only [wrapOrVeto, h] at hw
    cases hw
  · intro hshaped
    cases hwrap : m.wrap with
    | wrapped w => exact absurd (wrapped_iff.mp ⟨w, hwrap⟩).1 hshaped
    | retry => exact absurd (retry_iff.mp hwrap).1 hshaped
    | skipped reason => exact ⟨reason, rfl⟩

/-- What becomes of a method, by its shape alone. -/
theorem wrap_iff_wellShaped (m : Method) :
    ((∃ w, m.wrapOrVeto = .wrapped w) ↔ m.WellShaped) ∧
      ((∃ w, m.wrap = .wrapped w) ↔ m.WellShaped ∧ ¬(m.isMutator = true ∧ m.HasAuxiliary)) ∧
      (m.wrap = .retry ↔ m.WellShaped ∧ m.isMutator = true ∧ m.HasAuxiliary) ∧
      ((∃ reason, m.wrap = .skipped reason) ↔ ¬m.WellShaped) :=
  ⟨wrapOrVeto_wrapped_iff, wrapped_iff, retry_iff, skipped_iff⟩

end Method

end IslBindings
