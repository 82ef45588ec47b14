import IslBindings.Proofs.Wrapper.Ownership

/-!
# Shapes of signatures

Which signatures have a wrapper, stated without the order in which the wrapper is made: the
callbacks with the slots behind them, the values by their positions. Each part of the
classification and of the marshalling accepts what the statement says, and nothing else.
-/

namespace IslBindings

/-! ### Names of isl types -/

/-- A name of an isl type differs from a word that does not start like one. -/
theorem isl_append_ne {cls s : String} (h : Text.startsWith s "isl_" = false) : "isl_" ++ cls ≠ s := by
  rintro rfl
  have hp : Text.startsWith ("isl_" ++ cls) "isl_" = true := by
    rw [Text.startsWith_iff, String.toList_append]
    exact List.prefix_append ..
  rw [hp] at h
  cases h

/-! ### Callbacks -/

/-- An object that a callback is handed or lent. -/
inductive Argument.IsObject : Argument → Prop where
  | value {arg : ValueArgument} {cls : String} : arg.type.depth = .pointer →
      arg.type.base = "isl_" ++ cls →
      arg.type.ownership = some .take ∨ arg.type.ownership = some .keep → IsObject (.value arg)

/-- What a callback may return. -/
inductive CType.IsCallbackResult (t : CType) : Prop where
  | scalar : t.depth = .value → Catalogue.isValueType t.base = true → IsCallbackResult t
  | object {cls : String} : t.depth = .pointer → t.base = "isl_" ++ cls →
      t.ownership = some .give → IsCallbackResult t

/-- A callback gets objects and, behind them, its `user` slot. -/
structure Callback.IsShaped (c : Callback) : Prop where
  arguments : ∃ objects user, c.args = objects ++ [.value user] ∧ user.name = "user" ∧
    ∀ a ∈ objects, a.IsObject
  result : c.result.IsCallbackResult

theorem CallbackObject.succeeds_iff {a : Argument} : Succeeds (ofArgument a) ↔ a.IsObject := by
  constructor
  · rintro ⟨o, h⟩
    cases a with
    | callback name result args => cases h
    | value arg =>
      simp only [ofArgument] at h
      split at h
      · next cls hcls hdepth =>
        have hbase := ValueArgument.islClass?_eq_some_iff.mp hcls
        split at h
        · next htake => exact .value hdepth hbase (.inl htake)
        · next hkeep => exact .value hdepth hbase (.inr hkeep)
        · cases h
      · cases h
  · rintro ⟨hdepth, hbase, howner⟩
    have hcls := ValueArgument.islClass?_eq_some_iff.mpr hbase
    rcases howner with htake | hkeep
    · simp only [ofArgument, hcls, hdepth, htake]
      exact succeeds_ok _
    · simp only [ofArgument, hcls, hdepth, hkeep]
      exact succeeds_ok _

theorem CallbackResult.succeeds_iff {t : CType} : Succeeds (ofType t) ↔ t.IsCallbackResult := by
  constructor
  · rintro ⟨r, h⟩
    simp only [ofType] at h
    split at h
    · next hdepth =>
      refine .scalar hdepth ?_
      split at h
      · next hbase => rw [hbase]; decide
      · split at h
        · next hbase => rw [hbase]; decide
        · split at h
          · next hbase => exact hbase
          · cases h
    · next hdepth =>
      split at h
      · next cls hcls hgive => exact .object hdepth (Text.afterStart?_eq_some_iff.mp hcls) hgive
      all_goals cases h
    · cases h
  · rintro (⟨hdepth, hbase⟩ | ⟨hdepth, hbase, hgive⟩)
    · simp only [ofType, hdepth, hbase]
      split
      · exact succeeds_ok _
      · split <;> exact succeeds_ok _
    · have hcls := Text.afterStart?_eq_some_iff.mpr hbase
      simp only [ofType, hdepth, hcls, hgive]
      exact succeeds_ok _

theorem Callback.user?_isSome_iff {c : Callback} : c.user?.isSome = true ↔
    ∃ inner user, c.args = inner ++ [.value user] ∧ user.name = "user" := by
  constructor
  · intro h
    obtain ⟨user, huser⟩ := Option.isSome_iff_exists.mp h
    rw [user?, Option.filter_eq_some_iff, Option.bind_eq_some_iff] at huser
    obtain ⟨⟨last, hlast, hvalue⟩, hname⟩ := huser
    obtain ⟨inner, hinner⟩ := List.getLast?_eq_some_iff.mp hlast
    cases last with
    | value arg =>
      cases hvalue
      exact ⟨inner, user, hinner, of_decide_eq_true hname⟩
    | callback name result args => cases hvalue
  · rintro ⟨inner, user, hargs, hname⟩
    simp [user?, hargs, Argument.value?, hname]

theorem Callback.visible_of_user {c : Callback} {inner : List Argument} {user : ValueArgument}
    (hargs : c.args = inner ++ [.value user]) (hname : user.name = "user") : c.visible = inner := by
  simp [visible, hargs, Argument.name, hname]

theorem Trampoline.succeeds_iff {name : String} {c : Callback} :
    Succeeds (ofCallback name c) ↔ c.IsShaped := by
  rw [ofCallback]
  split
  · next hnone =>
    refine ⟨fun h => absurd h (not_succeeds_error _), fun h => ?_⟩
    obtain ⟨objects, user, hargs, hname, -⟩ := h.arguments
    have hsome := Callback.user?_isSome_iff.mpr ⟨objects, user, hargs, hname⟩
    rw [Option.isNone_iff_eq_none] at hnone
    rw [hnone] at hsome
    cases hsome
  · next hnone =>
    rw [Bool.not_eq_true, Option.isNone_eq_false_iff] at hnone
    obtain ⟨inner, user, hargs, hname⟩ := Callback.user?_isSome_iff.mp hnone
    have hvisible := Callback.visible_of_user hargs hname
    constructor
    · intro h
      obtain ⟨objects, hobjects, h⟩ := succeeds_bind_iff.mp h
      obtain ⟨conversion, hconversion, -⟩ := succeeds_bind_iff.mp h
      rw [hvisible] at hobjects
      exact ⟨⟨inner, user, hargs, hname, fun a ha =>
        CallbackObject.succeeds_iff.mp (succeeds_mapM_iff.mp ⟨objects, hobjects⟩ a ha)⟩,
        CallbackResult.succeeds_iff.mp ⟨conversion, hconversion⟩⟩
    · intro h
      obtain ⟨objects, user', hargs', -, hobjects⟩ := h.arguments
      rw [hargs] at hargs'
      obtain ⟨rfl, -⟩ := List.append_inj' hargs' rfl
      obtain ⟨os, hos⟩ := succeeds_mapM_iff.mpr fun a ha => CallbackObject.succeeds_iff.mpr (hobjects a ha)
      obtain ⟨conversion, hconversion⟩ := CallbackResult.succeeds_iff.mpr h.result
      rw [← hvisible] at hos
      exact succeeds_bind_iff.mpr ⟨os, hos, succeeds_bind_iff.mpr ⟨conversion, hconversion, succeeds_ok _⟩⟩

/-! ### Values -/

/-- The arguments that are no callbacks and can be passed, by their position. -/
inductive ValueArgument.IsShaped (index : Nat) (arg : ValueArgument) : Prop where
  | scalar : arg.type.depth = .value → Catalogue.isValueType arg.type.base = true →
      IsShaped index arg
  | text : arg.type.depth = .pointer → arg.type.base = "char" → IsShaped index arg
  | flag : arg.type.depth = .pointer → arg.type.base = "int" ∨ arg.type.base = "isl_bool" →
      arg.name = "exact" ∨ arg.name = "tight" → IsShaped index arg
  | valueOrInt : arg.type.depth = .pointer → arg.type.base = "isl_val" → 0 < index →
      arg.type.ownership ≠ none → IsShaped index arg
  | object {cls : String} : arg.type.depth = .pointer → arg.type.base = "isl_" ++ cls →
      arg.type.base ≠ "isl_bool" → ¬(arg.type.base = "isl_val" ∧ 0 < index) →
      arg.type.ownership ≠ none ∨ cls = "ctx" → IsShaped index arg
  | objectOut {cls : String} : arg.type.depth = .pointerToPointer →
      arg.type.base = "isl_" ++ cls → arg.type.ownership = some .give → IsShaped index arg

namespace ArgShape

/-- Which shape an argument has at a position. -/
inductive Suits (index : Nat) (arg : ValueArgument) : ArgShape → Prop where
  | scalar : arg.type.depth = .value → Catalogue.isValueType arg.type.base = true →
      Suits index arg (.scalar arg)
  | text : arg.type.depth = .pointer → arg.type.base = "char" → Suits index arg (.text arg)
  | flag : arg.type.depth = .pointer → arg.type.base = "int" ∨ arg.type.base = "isl_bool" →
      arg.name ∈ Catalogue.flagNames → Suits index arg (.flag arg)
  | valueOrInt : arg.type.depth = .pointer → arg.type.base = "isl_val" → 0 < index →
      Suits index arg (.valueOrInt arg)
  | handle {cls : String} : arg.type.depth = .pointer → arg.type.base = "isl_" ++ cls →
      arg.type.base ≠ "isl_bool" → ¬(arg.type.base = "isl_val" ∧ 0 < index) →
      Suits index arg (.handle arg cls)
  | handleOut {cls : String} : arg.type.depth = .pointerToPointer →
      arg.type.base = "isl_" ++ cls → Suits index arg (.handleOut arg cls)

theorem suits_of_ofValue {arg : ValueArgument} {index : Nat} {s : ArgShape}
    (h : ofValue arg index = .ok s) : Suits index arg s := by
  simp only [ofValue] at h
  split at h
  · next hdepth =>
    split at h
    · next hbase =>
      cases h
      exact .scalar hdepth hbase
    · cases h
  · next hdepth =>
    split at h
    · next hchar =>
      cases h
      exact .text hdepth hchar
    · split at h
      · next hflag =>
        split at h
        · next hname =>
          cases h
          exact .flag hdepth hflag (List.contains_iff_mem.mp hname)
        · cases h
      · next hflag =>
        split at h
        · next hval =>
          cases h
          exact .valueOrInt hdepth hval.1 hval.2
        · next hval =>
          split at h
          · next cls hcls =>
            cases h
            exact .handle hdepth (ValueArgument.islClass?_eq_some_iff.mp hcls)
              (fun hbool => hflag (.inr hbool)) hval
          · split at h <;> cases h
  · next hdepth =>
    split at h
    · next cls hcls =>
      cases h
      exact .handleOut hdepth (ValueArgument.islClass?_eq_some_iff.mp hcls)
    · cases h

theorem ofValue_of_suits {arg : ValueArgument} {index : Nat} {s : ArgShape}
    (h : Suits index arg s) : ofValue arg index = .ok s := by
  cases h with
  | scalar hdepth hbase => simp [ofValue, hdepth, hbase]
  | text hdepth hbase => simp [ofValue, hdepth, hbase]
  | flag hdepth hbase hname =>
    have hchar : arg.type.base ≠ "char" := by rcases hbase with h | h <;> simp [h]
    simp [ofValue, hdepth, hchar, hbase, hname]
  | valueOrInt hdepth hbase hindex => simp [ofValue, hdepth, hbase, hindex]
  | @handle cls hdepth hbase hbool hval =>
    have hchar : arg.type.base ≠ "char" := hbase ▸ isl_append_ne (by decide)
    have hint : arg.type.base ≠ "int" := hbase ▸ isl_append_ne (by decide)
    have hcls := ValueArgument.islClass?_eq_some_iff.mpr hbase
    simp only [ofValue, hdepth, hcls, if_neg hchar, if_neg hval]
    simp [hint, hbool]
  | @handleOut cls hdepth hbase =>
    have hcls := ValueArgument.islClass?_eq_some_iff.mpr hbase
    simp [ofValue, hdepth, hcls]

theorem ofValue_eq_ok_iff {arg : ValueArgument} {index : Nat} {s : ArgShape} :
    ofValue arg index = .ok s ↔ Suits index arg s :=
  ⟨suits_of_ofValue, ofValue_of_suits⟩

end ArgShape

namespace Contribution

variable {m : Method} {index : Nat} {arg : ValueArgument} {cls : String}

theorem succeeds_ofValueOrInt_iff : Succeeds (ofValueOrInt m arg) ↔ arg.type.ownership ≠ none := by
  rw [ofValueOrInt]
  split
  · next hnone =>
    rw [Option.isNone_iff_eq_none] at hnone
    exact ⟨fun h => absurd h (not_succeeds_error _), fun h => absurd hnone h⟩
  · next hsome =>
    rw [Option.isNone_iff_eq_none] at hsome
    exact ⟨fun _ => hsome, fun _ => succeeds_ok _⟩

theorem succeeds_ofHandle_iff (hrecv : index = 0 → m.isMutator = true → arg.type.ownership ≠ none) :
    Succeeds (ofHandle m index arg cls) ↔ arg.type.ownership ≠ none ∨ cls = "ctx" := by
  rw [ofHandle]
  split
  · next hmut => exact ⟨fun _ => .inl (hrecv hmut.1 hmut.2), fun _ => succeeds_ok _⟩
  · split
    · next hbare =>
      rw [Option.isNone_iff_eq_none] at hbare
      refine ⟨fun h => absurd h (not_succeeds_error _), ?_⟩
      rintro (h | h)
      · exact absurd hbare.1 h
      · exact absurd h hbare.2
    · next hbare =>
      rw [Option.isNone_iff_eq_none] at hbare
      refine ⟨fun _ => ?_, fun _ => ?_⟩
      · by_cases hnone : arg.type.ownership = none
        · exact .inr (Decidable.of_not_not fun hcls => hbare ⟨hnone, hcls⟩)
        · exact .inl hnone
      · split
        · split <;> exact succeeds_ok _
        · exact succeeds_ok _

theorem succeeds_ofHandleOut_iff :
    Succeeds (ofHandleOut arg cls) ↔ arg.type.ownership = some .give := by
  rw [ofHandleOut]
  exact succeeds_ite_iff

theorem succeeds_ofCallback_iff {c : Callback} : Succeeds (ofCallback m c) ↔ c.IsShaped := by
  rw [ofCallback, succeeds_bind_iff]
  constructor
  · rintro ⟨t, ht, -⟩
    exact Trampoline.succeeds_iff.mp ⟨t, ht⟩
  · intro h
    obtain ⟨t, ht⟩ := Trampoline.succeeds_iff.mpr h
    exact ⟨t, ht, succeeds_ok _⟩

/-- Classification and marshalling together accept the values of the catalogue. -/
theorem succeeds_ofValue_iff (hrecv : index = 0 → m.isMutator = true → arg.type.ownership ≠ none) :
    (∃ s, ArgShape.ofValue arg index = .ok s ∧ Succeeds (ofShape m (index, s))) ↔
      arg.IsShaped index := by
  constructor
  · rintro ⟨s, hs, h⟩
    cases ArgShape.ofValue_eq_ok_iff.mp hs with
    | scalar hdepth hbase => exact .scalar hdepth hbase
    | text hdepth hbase => exact .text hdepth hbase
    | flag hdepth hbase hname => exact .flag hdepth hbase (by simpa [Catalogue.flagNames] using hname)
    | valueOrInt hdepth hbase hindex =>
      exact .valueOrInt hdepth hbase hindex (succeeds_ofValueOrInt_iff.mp h)
    | handle hdepth hbase hbool hval =>
      exact .object hdepth hbase hbool hval ((succeeds_ofHandle_iff hrecv).mp h)
    | handleOut hdepth hbase => exact .objectOut hdepth hbase (succeeds_ofHandleOut_iff.mp h)
  · intro h
    -- Each constructor of the catalogue names the shape and what its marshalling asks for.
    have hfits : ∃ s, ArgShape.Suits index arg s ∧ Succeeds (ofShape m (index, s)) := by
      cases h with
      | scalar hdepth hbase => exact ⟨_, .scalar hdepth hbase, succeeds_ok _⟩
      | text hdepth hbase => exact ⟨_, .text hdepth hbase, succeeds_ok _⟩
      | flag hdepth hbase hname =>
        exact ⟨_, .flag hdepth hbase (by simpa [Catalogue.flagNames] using hname), succeeds_ok _⟩
      | valueOrInt hdepth hbase hindex hsome =>
        exact ⟨_, .valueOrInt hdepth hbase hindex, succeeds_ofValueOrInt_iff.mpr hsome⟩
      | object hdepth hbase hbool hval hsome =>
        exact ⟨_, .handle hdepth hbase hbool hval, (succeeds_ofHandle_iff hrecv).mpr hsome⟩
      | objectOut hdepth hbase hgive =>
        exact ⟨_, .handleOut hdepth hbase, succeeds_ofHandleOut_iff.mpr hgive⟩
    obtain ⟨s, hs, h⟩ := hfits
    exact ⟨s, ArgShape.ofValue_eq_ok_iff.mpr hs, h⟩

end Contribution

/-! ### Signatures -/

/-- The arguments from a position on, a callback together with the slot behind it. -/
inductive IsShapedFrom : Nat → List Argument → Prop where
  | nil {index : Nat} : IsShapedFrom index []
  | value {index : Nat} {arg : ValueArgument} {rest : List Argument} : arg.IsShaped index →
      IsShapedFrom (index + 1) rest → IsShapedFrom index (.value arg :: rest)
  | callback {index : Nat} {name : String} {result : CType} {inner : List Argument}
      {next : Argument} {rest : List Argument} :
      Callback.IsShaped ⟨name, result, inner⟩ → next.name = "user" →
      IsShapedFrom (index + 2) rest →
      IsShapedFrom index (.callback name result inner :: next :: rest)

/-- Only a receiver may lack an annotation and yet be accepted, unless it is changed in place. -/
theorem Method.ownership_of_isMutator {m : Method} {arg : ValueArgument} {rest : List Argument}
    (hargs : m.args = .value arg :: rest) (hmut : m.isMutator = true) :
    arg.type.ownership ≠ none := by
  obtain ⟨arg', rest', -, hm⟩ := exists_mutates hmut
  have hargs' := hm.args
  rw [hargs] at hargs'
  cases hargs'
  rw [hm.ownership]
  simp

/-- The shapes from a position on are there, and each has a contribution. -/
theorem isShapedFrom_iff {m : Method} {index : Nat} {args : List Argument}
    (hrecv : index = 0 → args = m.args) :
    (∃ shapes, ArgShape.ofArguments index args = .ok shapes ∧
      ∀ p ∈ shapes, Succeeds (Contribution.ofShape m p)) ↔ IsShapedFrom index args := by
  -- Along the walk. Behind a callback stands nothing, its slot, a name that only ends like one,
  -- or another name; of these only the slot is accepted.
  induction index, args using ArgShape.ofArguments.induct with
  | case1 index => exact ⟨fun _ => .nil, fun _ => ⟨[], rfl, by simp⟩⟩
  | case2 index arg rest ih =>
    have ih := ih fun h => by cases h
    have hvalue : _ ↔ arg.IsShaped index := Contribution.succeeds_ofValue_iff (m := m)
      fun h0 => Method.ownership_of_isMutator (hrecv h0).symm
    constructor
    · rintro ⟨shapes, h, hall⟩
      rw [ArgShape.ofArguments] at h
      obtain ⟨s, hs, h⟩ := exists_of_bind_ok h
      obtain ⟨ss, hss, h⟩ := exists_of_bind_ok h
      cases h
      obtain ⟨hsucceeds, hall⟩ := List.forall_mem_cons.mp hall
      exact .value (hvalue.mp ⟨s, hs, hsucceeds⟩) (ih.mp ⟨ss, hss, hall⟩)
    · rintro (- | ⟨harg, hrest⟩)
      obtain ⟨s, hs, hsucceeds⟩ := hvalue.mpr harg
      obtain ⟨ss, hss, hall⟩ := ih.mpr hrest
      refine ⟨(index, s) :: ss, ?_, List.forall_mem_cons.mpr ⟨hsucceeds, hall⟩⟩
      rw [ArgShape.ofArguments, hs, hss]
      rfl
  | case3 =>
    constructor
    · rintro ⟨shapes, h, -⟩
      cases h
    · intro h
      cases h
  | case4 index name result inner next rest hnext ih =>
    have ih := ih fun h => by omega
    constructor
    · rintro ⟨shapes, h, hall⟩
      rw [ArgShape.ofArguments, if_pos hnext] at h
      obtain ⟨ss, hss, h⟩ := exists_of_bind_ok h
      cases h
      obtain ⟨hsucceeds, hall⟩ := List.forall_mem_cons.mp hall
      exact .callback (Contribution.succeeds_ofCallback_iff.mp hsucceeds) hnext (ih.mp ⟨ss, hss, hall⟩)
    · rintro (- | - | ⟨hcallback, -, hrest⟩)
      obtain ⟨ss, hss, hall⟩ := ih.mpr hrest
      refine ⟨(index, .callback ⟨name, result, inner⟩) :: ss, ?_, List.forall_mem_cons.mpr
        ⟨Contribution.succeeds_ofCallback_iff.mpr hcallback, hall⟩⟩
      rw [ArgShape.ofArguments, if_pos hnext, hss]
      rfl
  | case5 index name result inner next rest hnext hends =>
    constructor
    · rintro ⟨shapes, h, -⟩
      rw [ArgShape.ofArguments, if_neg hnext, if_pos hends] at h
      cases h
    · rintro (- | - | ⟨-, hname, -⟩)
      exact absurd hname hnext
  | case6 index name result inner next rest hnext hends =>
    constructor
    · rintro ⟨shapes, h, -⟩
      rw [ArgShape.ofArguments, if_neg hnext, if_neg hends] at h
      cases h
    · rintro (- | - | ⟨-, hname, -⟩)
      exact absurd hname hnext

end IslBindings
