import IslBindings.Generation
import IslBindings.Proofs.Wrapper.Acceptance

/-!
# One retry is enough

A method that asks to be wrapped again as one that returns a new object is wrapped in the
second run, so a run through a registry always ends with its output.
-/

namespace IslBindings

namespace Method

variable {m : Method}

theorem exists_wrapped_of_retry (h : m.wrap = .retry) : ∃ w, m.veto.wrap = .wrapped w :=
  veto_wrapped_iff.mpr (retry_iff.mp h).1

theorem wrap_ne_retry_of_veto (h : m.mutatorVeto = true) : m.wrap ≠ .retry := by
  intro hretry
  obtain ⟨-, hmut, -⟩ := retry_iff.mp hretry
  rw [isMutator_of_veto h] at hmut
  cases hmut

theorem wrapOrVeto_ne_retry : m.wrapOrVeto ≠ .retry := by
  cases hwrap : m.wrap with
  | retry =>
    simp only [wrapOrVeto, hwrap]
    exact wrap_ne_retry_of_veto rfl
  | _ => simp [wrapOrVeto, hwrap]

theorem exists_verdict (m : Method) (siblings : List Method) :
    ∃ v, m.verdict? siblings = some v := by
  simp only [verdict?]
  split
  · exact ⟨_, rfl⟩
  · split
    · exact ⟨_, rfl⟩
    · exact ⟨_, rfl⟩
    · exact ⟨_, rfl⟩
    · next hretry => exact absurd hretry wrapOrVeto_ne_retry

end Method

/-! ### Runs -/

namespace Entry

theorem succeeds_ofMethod (siblings : List Method) (m : Method) :
    Succeeds (ofMethod siblings m) := by
  obtain ⟨v, hv⟩ := m.exists_verdict siblings
  rw [ofMethod, hv]
  exact succeeds_ok _

theorem succeeds_ofClass (r : Registry) (cls : String) : Succeeds (ofClass r cls) :=
  succeeds_mapM_iff.mpr fun m _ => succeeds_ofMethod (r.methodsOf cls) m

theorem succeeds_ofClasses (r : Registry) (release : Option Nat) (classes : List String) :
    Succeeds (ofClasses r release classes) := by
  have hall : ∀ cls ∈ classes.filter (Catalogue.isAvailable · release), Succeeds (ofClass r cls) :=
    fun cls _ => succeeds_ofClass r cls
  obtain ⟨ess, hess⟩ := succeeds_mapM_iff.mpr hall
  rw [ofClasses, hess]
  exact succeeds_ok ess.flatten

end Entry

theorem Part.succeeds_generate (r : Registry) (release : Option Nat) (l : Ledger) (name : String)
    (classes : List String) : Succeeds (generate r release l name classes) := by
  obtain ⟨es, hes⟩ := Entry.succeeds_ofClasses r release classes
  exact succeeds_bind_iff.mpr ⟨es, hes, succeeds_ok _⟩

theorem Part.succeeds_generateAll (r : Registry) (release : Option Nat) (l : Ledger)
    (specs : List (String × List String)) : Succeeds (generateAll r release l specs) := by
  induction specs generalizing l with
  | nil => exact succeeds_ok []
  | cons s specs ih =>
    obtain ⟨name, classes⟩ := s
    obtain ⟨⟨p, l'⟩, hp⟩ := succeeds_generate r release l name classes
    obtain ⟨ps, hps⟩ := ih l'
    exact succeeds_bind_iff.mpr ⟨(p, l'), hp, succeeds_bind_iff.mpr ⟨ps, hps, succeeds_ok (p :: ps)⟩⟩

theorem Output.succeeds_ofRegistry (r : Registry) (release : Option Nat) :
    Succeeds (ofRegistry r release) := by
  obtain ⟨ps, hps⟩ := Part.succeeds_generateAll r release .empty Catalogue.parts
  exact succeeds_bind_iff.mpr ⟨ps, hps, succeeds_ok _⟩

/-- The second run of a method ends with a wrapper, and no run through a registry fails. -/
theorem second_run_succeeds :
    (∀ m : Method, (m.wrap = .retry → ∃ w, m.veto.wrap = .wrapped w) ∧
        (m.mutatorVeto = true → m.wrap ≠ .retry)) ∧
      ∀ (r : Registry) (release : Option Nat), ∃ o, Output.ofRegistry r release = .ok o := by
  refine ⟨fun m => ⟨?_, ?_⟩, fun r release => ?_⟩
  · exact Method.exists_wrapped_of_retry
  · exact Method.wrap_ne_retry_of_veto
  · exact Output.succeeds_ofRegistry r release

/-- A printer that is changed in place and tells whether it was exact. -/
def Method.samplePrinter : Method where
  cls := "printer"
  name := "flush"
  cName := "isl_printer_flush"
  result := ⟨some .give, "isl_printer", .pointer⟩
  args :=
    [.value { name := "self", isConst := false, type := ⟨some .take, "isl_printer", .pointer⟩ },
      .value { name := "exact", isConst := false, type := ⟨none, "int", .pointer⟩ }]
  isExported := true
  isConstructor := false
  mutatorVeto := false

theorem second_run_succeeds_printer :
    Method.samplePrinter.wrap = .retry ∧ (∃ w, Method.samplePrinter.veto.wrap = .wrapped w) ∧
      Method.samplePrinter.veto.wrap ≠ .retry := by
  have hretry : Method.samplePrinter.wrap = .retry := by decide +kernel
  exact ⟨hretry, (second_run_succeeds.1 Method.samplePrinter).1 hretry,
    (second_run_succeeds.1 Method.samplePrinter.veto).2 rfl⟩

end IslBindings
