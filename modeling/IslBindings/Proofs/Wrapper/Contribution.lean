import IslBindings.Proofs.Lists
import IslBindings.Wrapper.Contribution

/-!
# What arguments add

What a contribution is made of, for each of the shapes that may have none.
-/

namespace IslBindings

theorem Trampoline.fields_of_ofCallback {name : String} {c : Callback} {t : Trampoline}
    (h : ofCallback name c = .ok t) :
    t.name = name ∧ t.result = c.result ∧ t.inputs = c.args.filterMap Argument.value? := by
  rw [ofCallback] at h
  split at h
  · cases h
  · obtain ⟨objects, -, h⟩ := exists_of_bind_ok h
    obtain ⟨conversion, -, h⟩ := exists_of_bind_ok h
    cases h
    exact ⟨rfl, rfl, rfl⟩

namespace Contribution

variable {m : Method} {index : Nat} {arg : ValueArgument} {cls : String} {c : Contribution}

theorem of_ofCallback {cb : Callback} (h : ofCallback m cb = .ok c) :
    ∃ t, c.actuals = [.trampoline t, .callable cb.name] ∧ c.checks = [] ∧ c.locals = [] ∧
      c.fixups = [] := by
  obtain ⟨t, -, h⟩ := exists_of_bind_ok h
  cases h
  exact ⟨t.name, rfl, rfl, rfl, rfl⟩

theorem of_ofValueOrInt (h : ofValueOrInt m arg = .ok c) :
    c.actuals = [.handle (.temporary arg.name)] ∧ c.checks = [.takeValue arg.name] ∧
      c.locals = [] ∧ c.fixups = letGo arg (.temporary arg.name) := by
  rw [ofValueOrInt] at h
  split at h
  · cases h
  · cases h
    exact ⟨rfl, rfl, rfl, rfl⟩

theorem of_ofHandle (h : ofHandle m index arg cls = .ok c) :
    (index = 0 ∧ m.isMutator = true ∧ c = ofMutated m index arg cls) ∨
      (arg.type.ownership = some .take ∧ cls ∉ Catalogue.nonCopyable ∧
        c = ofCopied m index arg cls) ∨
      (arg.type.ownership = some .take ∧ cls ∈ Catalogue.nonCopyable ∧
        c = ofTaken m index arg cls) ∨
      (arg.type.ownership ≠ some .take ∧ c = ofLent m index arg cls) := by
  rw [ofHandle] at h
  split at h
  · next hmutated =>
    cases h
    exact .inl ⟨hmutated.1, hmutated.2, rfl⟩
  · split at h
    · cases h
    · split at h
      · next htake =>
        split at h
        · next hcls =>
          cases h
          exact .inr (.inr (.inl ⟨htake, List.contains_iff_mem.mp hcls, rfl⟩))
        · next hcls =>
          cases h
          exact .inr (.inl ⟨htake, fun hmem => hcls (List.contains_iff_mem.mpr hmem), rfl⟩)
      · next htake =>
        cases h
        exact .inr (.inr (.inr ⟨htake, rfl⟩))

theorem of_ofHandleOut (h : ofHandleOut arg cls = .ok c) :
    c.actuals = [.objectAddress arg.name] ∧ c.checks = [] ∧
      c.locals = [.declareObject cls arg.name] ∧ c.fixups = [.wrapObject cls arg.name] := by
  rw [ofHandleOut] at h
  split at h
  · cases h
    exact ⟨rfl, rfl, rfl, rfl⟩
  · cases h

end Contribution

end IslBindings
