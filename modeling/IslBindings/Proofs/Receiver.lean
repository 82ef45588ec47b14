import IslBindings.Method

/-!
# Receivers

The receiver of a method is its first argument, if that is an object of its class. It is called
`self`, and nothing else of the method depends on how it is called. A receiver that is changed in
place has a class without copies.
-/

namespace IslBindings

theorem ValueArgument.islClass?_eq_some_iff {arg : ValueArgument} {cls : String} :
    arg.islClass? = some cls ↔ arg.type.base = "isl_" ++ cls :=
  Text.afterStart?_eq_some_iff

namespace Method

variable (m : Method)

theorem receiver?_eq_some_iff {arg : ValueArgument} :
    m.receiver? = some arg ↔
      ∃ rest, m.args = .value arg :: rest ∧ arg.type.base = "isl_" ++ m.cls := by
  constructor
  · intro h
    simp only [receiver?] at h
    split at h
    · next a rest hargs =>
      split at h
      · next hbase =>
        cases h
        exact ⟨rest, hargs, hbase⟩
      · cases h
    · cases h
  · rintro ⟨rest, hargs, hbase⟩
    simp [receiver?, hargs, hbase]

theorem nameReceiver_cases :
    (m.receiver? = none ∧ m.nameReceiver = m) ∨
      ∃ arg rest, m.args = .value arg :: rest ∧ m.receiver? = some arg ∧
        m.nameReceiver = { m with args := .value { arg with name := "self" } :: rest } := by
  cases hr : m.receiver? with
  | none => exact .inl ⟨rfl, by simp [nameReceiver, hr]⟩
  | some arg =>
    obtain ⟨rest, hargs, -⟩ := m.receiver?_eq_some_iff.mp hr
    exact .inr ⟨arg, rest, hargs, rfl, by simp [nameReceiver, hr, hargs]⟩

theorem cls_nameReceiver : m.nameReceiver.cls = m.cls := by
  rcases m.nameReceiver_cases with ⟨-, h⟩ | ⟨arg, rest, -, -, h⟩ <;> rw [h]

theorem name_nameReceiver : m.nameReceiver.name = m.name := by
  rcases m.nameReceiver_cases with ⟨-, h⟩ | ⟨arg, rest, -, -, h⟩ <;> rw [h]

theorem cName_nameReceiver : m.nameReceiver.cName = m.cName := by
  rcases m.nameReceiver_cases with ⟨-, h⟩ | ⟨arg, rest, -, -, h⟩ <;> rw [h]

theorem result_nameReceiver : m.nameReceiver.result = m.result := by
  rcases m.nameReceiver_cases with ⟨-, h⟩ | ⟨arg, rest, -, -, h⟩ <;> rw [h]

theorem name_of_receiver {arg : ValueArgument} (h : m.nameReceiver.receiver? = some arg) :
    arg.name = "self" := by
  rcases m.nameReceiver_cases with ⟨hnone, heq⟩ | ⟨a, rest, -, -, heq⟩
  · rw [heq, hnone] at h
    cases h
  · rw [heq] at h
    obtain ⟨rest', hargs, -⟩ := (receiver?_eq_some_iff _).mp h
    cases hargs
    rfl

/-- The function takes the receiver and gives an object of its class back. -/
structure Mutates (m : Method) (receiver : ValueArgument) (rest : List Argument) : Prop where
  args : m.args = .value receiver :: rest
  base : receiver.type.base = "isl_" ++ m.cls
  depth : receiver.type.depth = .pointer
  ownership : receiver.type.ownership = some .take
  cls : m.cls ∈ Catalogue.nonCopyable
  resultBase : m.result.base = "isl_" ++ m.cls
  resultDepth : m.result.depth = .pointer
  resultOwnership : m.result.ownership = some .give

variable {m} in
theorem exists_mutates (h : m.isMutator = true) :
    ∃ receiver rest, m.receiver? = some receiver ∧ m.Mutates receiver rest := by
  rw [isMutator, Bool.and_eq_true, Option.any_eq_true] at h
  obtain ⟨-, receiver, hreceiver, h⟩ := h
  obtain ⟨rest, hargs, hbase⟩ := m.receiver?_eq_some_iff.mp hreceiver
  simp only [Bool.and_eq_true, beq_iff_eq] at h
  obtain ⟨⟨⟨⟨⟨htake, hdepth⟩, hresultDepth⟩, hresultBase⟩, hgive⟩, hcls⟩ := h
  rw [ValueArgument.islClass?_eq_some_iff.mpr hbase] at hcls
  exact ⟨receiver, rest, hreceiver, hargs, hbase, hdepth, htake, List.contains_iff_mem.mp hcls,
    hresultBase.trans hbase, hresultDepth, hgive⟩

end Method

end IslBindings
