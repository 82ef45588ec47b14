import IslBindings.Wrapper

/-!
# Undocumented methods

A method that is skipped for want of an annotation is named by its own C name in the
report, also when it has been wrapped a second time.
-/

namespace IslBindings

/-- A refusal for want of an annotation names the method. -/
def NamesOnly {α : Type} (m : Method) (x : Except SkipReason α) : Prop :=
  ∀ name, x = .error (.undocumented name) → name = m.display

section NamesOnly

variable {α β : Type} {m : Method}

theorem namesOnly_ok (a : α) : NamesOnly m (.ok a) := fun _ h => by cases h

theorem namesOnly_unsupported (what : Unsupported) :
    NamesOnly m (.error (.unsupported what) : Except SkipReason α) := fun _ h => by cases h

theorem namesOnly_display : NamesOnly m (.error (.undocumented m.display) : Except SkipReason α) := by
  intro name h
  cases h
  rfl

theorem NamesOnly.bind {x : Except SkipReason α} {f : α → Except SkipReason β} (hx : NamesOnly m x)
    (hf : ∀ a, NamesOnly m (f a)) : NamesOnly m (x >>= f) := by
  intro name h
  cases x with
  | error e => exact hx name (congrArg Except.error (Except.error.inj h))
  | ok a => exact hf a name h

theorem namesOnly_mapM {f : α → Except SkipReason β} (hf : ∀ a, NamesOnly m (f a)) (l : List α) :
    NamesOnly m (l.mapM f) := by
  induction l with
  | nil => exact namesOnly_ok []
  | cons a l ih =>
    rw [List.mapM_cons]
    exact (hf a).bind fun b => ih.bind fun bs => namesOnly_ok (b :: bs)

end NamesOnly

/-! ### Arguments -/

theorem ArgShape.namesOnly_ofValue (m : Method) (arg : ValueArgument) (index : Nat) :
    NamesOnly m (ofValue arg index) := by
  simp only [ofValue]
  split
  · split
    · exact namesOnly_ok _
    · exact namesOnly_unsupported _
  · split
    · exact namesOnly_ok _
    · split
      · split
        · exact namesOnly_ok _
        · exact namesOnly_unsupported _
      · split
        · exact namesOnly_ok _
        · split
          · exact namesOnly_ok _
          · split
            · exact namesOnly_unsupported _
            · exact namesOnly_unsupported _
  · split
    · exact namesOnly_ok _
    · exact namesOnly_unsupported _

theorem ArgShape.namesOnly_ofArguments (m : Method) (index : Nat) (args : List Argument) :
    NamesOnly m (ofArguments index args) := by
  induction index, args using ofArguments.induct with
  | case1 => exact namesOnly_ok _
  | case2 index arg rest ih =>
    rw [ofArguments]
    exact (namesOnly_ofValue m arg index).bind fun s => ih.bind fun ss => namesOnly_ok _
  | case3 => exact namesOnly_unsupported _
  | case4 index name result args next rest hname ih =>
    rw [ofArguments, if_pos hname]
    exact ih.bind fun ss => namesOnly_ok _
  | case5 index name result args next rest hname hends =>
    rw [ofArguments, if_neg hname, if_pos hends]
    exact namesOnly_unsupported _
  | case6 index name result args next rest hname hends =>
    rw [ofArguments, if_neg hname, if_neg hends]
    exact namesOnly_unsupported _

theorem CallbackObject.namesOnly_ofArgument (m : Method) (arg : Argument) :
    NamesOnly m (ofArgument arg) := by
  cases arg with
  | callback name result args => exact namesOnly_unsupported _
  | value arg =>
    simp only [ofArgument]
    split
    · split
      · exact namesOnly_ok _
      · exact namesOnly_ok _
      · exact namesOnly_unsupported _
    · exact namesOnly_unsupported _

theorem CallbackResult.namesOnly_ofType (m : Method) (t : CType) : NamesOnly m (ofType t) := by
  simp only [ofType]
  split
  · split
    · exact namesOnly_ok _
    · split
      · exact namesOnly_ok _
      · split
        · exact namesOnly_ok _
        · exact namesOnly_unsupported _
  · split
    · exact namesOnly_ok _
    · exact namesOnly_unsupported _
    · exact namesOnly_unsupported _
    · exact namesOnly_unsupported _
  · exact namesOnly_unsupported _

theorem Trampoline.namesOnly_ofCallback (m : Method) (name : String) (c : Callback) :
    NamesOnly m (ofCallback name c) := by
  rw [ofCallback]
  split
  · exact namesOnly_unsupported _
  · exact (namesOnly_mapM (CallbackObject.namesOnly_ofArgument m) c.visible).bind fun objects =>
      (CallbackResult.namesOnly_ofType m c.result).bind fun conversion => namesOnly_ok _

theorem Contribution.namesOnly_ofHandle (m : Method) (index : Nat) (arg : ValueArgument)
    (cls : String) : NamesOnly m (ofHandle m index arg cls) := by
  rw [ofHandle]
  split
  · exact namesOnly_ok _
  · split
    · exact namesOnly_display
    · split
      · split
        · exact namesOnly_ok _
        · exact namesOnly_ok _
      · exact namesOnly_ok _

theorem Contribution.namesOnly_ofShape (m : Method) (s : Nat × ArgShape) :
    NamesOnly m (ofShape m s) := by
  obtain ⟨index, shape⟩ := s
  cases shape with
  | callback c =>
    exact (Trampoline.namesOnly_ofCallback m _ c).bind fun t => namesOnly_ok _
  | scalar arg => exact namesOnly_ok _
  | text arg => exact namesOnly_ok _
  | flag arg => exact namesOnly_ok _
  | valueOrInt arg =>
    rw [ofShape, ofValueOrInt]
    split
    · exact namesOnly_display
    · exact namesOnly_ok _
  | handle arg cls => exact namesOnly_ofHandle m index arg cls
  | handleOut arg cls =>
    rw [ofShape, ofHandleOut]
    split
    · exact namesOnly_ok _
    · exact namesOnly_unsupported _

theorem Method.namesOnly_contributions (m : Method) : NamesOnly m m.contributions :=
  (ArgShape.namesOnly_ofArguments m 0 m.args).bind
    (namesOnly_mapM (Contribution.namesOnly_ofShape m))

theorem Method.namesOnly_resultShape (m : Method) : NamesOnly m m.resultShape := by
  simp only [resultShape]
  split
  · repeat' split
    all_goals first | exact namesOnly_ok _ | exact namesOnly_unsupported _
  · repeat' split
    all_goals first | exact namesOnly_ok _ | exact namesOnly_unsupported _
  · exact namesOnly_unsupported _

/-! ### Outcomes -/

theorem Conversion.display_of_undocumented {m : Method} {extras : List Auxiliary}
    {shape : ResultShape} {name : String}
    (h : ofShape m extras shape = .error (.skip (.undocumented name))) : name = m.display := by
  cases shape with
  | handle cls =>
    simp only [ofShape, ofHandle] at h
    split at h
    · split at h
      · cases h
      · cases h
    · split at h
      · cases h
      · split at h
        · cases h
          rfl
        · cases h
  | int isPredicate => cases isPredicate <;> cases h
  | scalar =>
    simp only [ofShape, alone] at h
    split at h <;> cases h
  | text =>
    simp only [ofShape, alone] at h
    split at h <;> cases h
  | userObject =>
    simp only [ofShape, alone] at h
    split at h <;> cases h
  | _ => cases h

theorem Method.display_of_wrap {m : Method} {name : String}
    (h : m.wrap = .skipped (.undocumented name)) : name = m.display := by
  simp only [wrap] at h
  split at h
  · next reason hreason =>
    cases h
    exact m.namesOnly_contributions name hreason
  · split at h
    · next reason hreason =>
      cases h
      exact m.namesOnly_resultShape name hreason
    · split at h
      · next reason hreason =>
        cases h
        exact Conversion.display_of_undocumented hreason
      · cases h
      · cases h

theorem Method.display_of_wrapOrVeto {m : Method} {name : String}
    (h : m.wrapOrVeto = .skipped (.undocumented name)) : name = m.display := by
  simp only [wrapOrVeto] at h
  split at h
  · exact display_of_wrap (m := m.veto) h
  · exact display_of_wrap h

end IslBindings
