import IslBindings.Proofs.Generation.Upcasts
import IslBindings.Proofs.Text.Occurrence
import IslBindings.Proofs.Wrapper.Printed

/-!
# What the exposers bind

Each statement of the exposers names a wrapper. The wrapper is defined in the same part, and
each wrapper of a part is bound there on the class of its method.
-/

namespace IslBindings

/-! ### Definitions -/

/-- The function of a wrapper starts a line of its block. -/
theorem Wrapper.occursIn_code (w : Wrapper) : Text.OccursIn ("\n" ++ w.text) ("\n" ++ w.code) := by
  obtain ⟨before, hbefore⟩ := Code.exists_line_feed w.trampolineLines
  refine ⟨before, "", ?_⟩
  rw [w.code_eq_text, ← String.append_assoc, hbefore, String.append_empty, String.append_assoc]

namespace Part

/-- The wrappers of the part define a function of the name, at the start of a line. -/
def Defines (p : Part) (name : String) : Prop :=
  ∃ b ∈ p.blocks, b.2.name = name ∧
    Text.OccursIn
      ("\n" ++ Code.functionText (b.2.conversion.cppType ++ " ") name b.2.inputs
        (b.2.body.flatMap Statement.lines))
      p.wrappers

theorem defines_of_mem_blocks {p : Part} {b : Method × Wrapper} (h : b ∈ p.blocks) :
    p.Defines b.2.name := by
  have hcode : Text.OccursIn ("\n" ++ b.2.code) p.wrappers :=
    (Text.OccursIn.of_mem (List.mem_map_of_mem h)).append_left banner
  exact ⟨b, h, rfl, b.2.occursIn_code.trans hcode⟩

end Part

namespace Method

variable {m : Method} {w : Wrapper}

theorem name_of_wrap (h : m.wrap = .wrapped w) : w.name = m.wrapperName := by
  obtain ⟨cs, shape, conversion, -, -, -, rfl⟩ := exists_assemble_of_wrap h
  rfl

/-- The second run keeps the name of the wrapper. -/
theorem name_of_wrapOrVeto (h : m.wrapOrVeto = .wrapped w) : w.name = m.wrapperName := by
  simp only [wrapOrVeto] at h
  split at h
  · exact name_of_wrap (m := m.veto) h
  · exact name_of_wrap h

end Method

/-! ### Statements -/

/-- A statement of the exposers that makes a wrapper a method of a class. -/
inductive Binding where
  | registration (m : Method) (w : Wrapper)
  | upcast (u : Upcast)
  deriving Repr

namespace Binding

def cls : Binding → String
  | registration m w => (Registration.ofWrapper m w).cls
  | upcast u => u.general

def wrapper : Binding → String
  | registration m w => (Registration.ofWrapper m w).wrapper
  | upcast u => u.method.wrapperName

def statement : Binding → String
  | registration m w => (Registration.ofWrapper m w).statement
  | upcast u => u.statement

/-- The statement makes a function a method of a class, or a static one. -/
def Makes (statement cls wrapper : String) : Prop :=
  ∃ kind ∈ ["", "_static"], ∃ name rest, statement =
    "wrap_" ++ cls ++ ".def" ++ kind ++ "(\"" ++ name ++ "\", isl::" ++ wrapper ++ ", " ++ rest

theorem makes_registration (r : Registration) : Makes r.statement r.cls r.wrapper := by
  have hkind : (if r.isStatic then "_static" else "") ∈ ["", "_static"] := by
    split <;> decide
  -- Behind the wrapper stands a comma, before the first argument or before the documentation.
  obtain ⟨rest, hrest⟩ : ∃ rest,
      String.join (r.argNames.map fun name => ", py::arg(\"" ++ name ++ "\")") ++ ", " =
        ", " ++ rest := by
    cases r.argNames with
    | nil => exact ⟨"", rfl⟩
    | cons name names =>
      refine ⟨"py::arg(\"" ++ name ++ "\")" ++
        String.join (names.map fun name => ", py::arg(\"" ++ name ++ "\")") ++ ", ", ?_⟩
      rw [List.map_cons, String.join_cons]
      simp only [← String.append_assoc]
      rfl
  unfold Registration.statement
  generalize String.join (r.argNames.map fun name => ", py::arg(\"" ++ name ++ "\")") = args
    at hrest ⊢
  have hbehind : ∀ last, args ++ (", " ++ last) = ", " ++ (rest ++ last) := by
    intro last
    rw [← String.append_assoc, hrest, String.append_assoc]
  refine ⟨_, hkind, r.publicName, rest ++ Code.literal r.doc ++ ");\n", ?_⟩
  simp only [String.append_assoc, hbehind]

theorem makes_statement (b : Binding) : Makes b.statement b.cls b.wrapper := by
  cases b with
  | registration m w => exact makes_registration (Registration.ofWrapper m w)
  | upcast u =>
    refine ⟨"", by decide, u.method.name,
      Code.literal (Fold.doc ⟨u.general, u.specific, []⟩) ++ ");\n", ?_⟩
    have hopen : ".def(\"" = ".def" ++ "" ++ "(\"" := by decide
    unfold statement cls wrapper Upcast.statement Fold.statement
    simp only [hopen, String.append_assoc]

end Binding

namespace Part

def bindings (p : Part) : List Binding :=
  p.blocks.map (fun b => .registration b.1 b.2) ++ p.upcasts.map .upcast

structure IsLinked (p : Part) : Prop where
  /-- A statement starts with the class, the name of the method and the wrapper. -/
  spelt : ∀ b ∈ p.bindings, Binding.Makes b.statement b.cls b.wrapper
  defined : ∀ b ∈ p.bindings, p.Defines b.wrapper
  /-- The functions that are defined are those of the wrappers, each behind its trampolines. -/
  definitions : p.wrappers = banner ++ String.join (p.blocks.map fun b =>
    "\n" ++ Code.print b.2.trampolineLines ++
      Code.functionText (b.2.conversion.cppType ++ " ") b.2.name b.2.inputs
        (b.2.body.flatMap Statement.lines))
  /-- Each wrapper that is defined is made a method of its own class. -/
  bound : ∀ name, p.Defines name → ∃ m w, Binding.registration m w ∈ p.bindings ∧
    (Binding.registration m w).wrapper = name ∧ (Binding.registration m w).cls = m.cls ∧
    w.name = name ∧ m.wrapOrVeto = .wrapped w
  statements : p.exposers = banner ++
    String.join (p.blocks.map fun b => (Binding.registration b.1 b.2).statement ++
      if Registration.makesConstructor b.1 then
        Code.print (Code.layout 0 (Registration.constructorSteps b.1.cls b.1.cName)) else "") ++
    String.join (p.folds.map fun f =>
      "\n// \x7b\x7b\x7b Upcasts from " ++ f.general ++ " to " ++ f.specific ++ "\n\n" ++
        String.join ((f.upcasts.map Binding.upcast).map Binding.statement) ++
        "\n// \x7d\x7d\x7d\n\n")

end Part

/-! ### Folds of a part -/

section Run

variable {r : Registry} {release : Option Nat} {o : Output}

theorem Part.mem_pairs_of_mem_folds {l : Ledger} {pairs : List (String × String)} {f : Fold}
    (h : f ∈ (foldPairs r release l pairs).1) : (f.general, f.specific) ∈ pairs := by
  induction pairs generalizing l with
  | nil => simp [foldPairs] at h
  | cons pair pairs ih =>
    obtain ⟨general, specific⟩ := pair
    rw [foldPairs] at h
    split at h
    · rcases List.mem_cons.mp h with rfl | h
      · exact List.mem_cons_self ..
      · exact List.mem_cons_of_mem _ (ih h)
    · exact List.mem_cons_of_mem _ (ih h)

theorem Part.mem_upcasts_of_generateAll {l : Ledger} {specs : List (String × List String)}
    {ps : List Part} (h : generateAll r release l specs = .ok ps) :
    ∀ p ∈ ps, ∀ f ∈ p.folds, (f.general, f.specific) ∈ Catalogue.upcasts p.name := by
  induction specs generalizing l ps with
  | nil =>
    cases h
    simp
  | cons s specs ih =>
    obtain ⟨name, classes⟩ := s
    obtain ⟨⟨p, l'⟩, hp, h⟩ := exists_of_bind_ok h
    obtain ⟨rest, hrest, h⟩ := exists_of_bind_ok h
    cases h
    obtain ⟨es, -, hp⟩ := exists_of_bind_ok hp
    cases hp
    refine List.forall_mem_cons.mpr ⟨fun f hf => ?_, ih hrest⟩
    exact mem_pairs_of_mem_folds hf

namespace Output

/-- What is forwarded to a class of a part has a wrapper in the part. -/
theorem wraps_of_mem_upcasts (ho : ofRegistry r release = .ok o) {p : Part} (hp : p ∈ o.parts)
    {u : Upcast} (hu : u ∈ p.upcasts) : p.wraps u.method.cls u.method.name = true := by
  obtain ⟨hoffered, hcandidate⟩ := List.mem_filter.mp
    (mem_candidates_of_mem_upcasts ho (List.mem_flatMap.mpr ⟨p, hp, hu⟩))
  have hcls : u.method.cls = u.specific := Upcast.cls_of_mem_offered hoffered
  have hwraps : o.wraps u.method.cls u.method.name = true :=
    (Bool.and_eq_true_iff.mp (Bool.and_eq_true_iff.mp hcandidate).2).2
  obtain ⟨f, hf, hu⟩ := List.mem_flatMap.mp hu
  obtain ⟨m, -, rfl⟩ := List.mem_map.mp hu
  obtain ⟨ps, hps, h⟩ := exists_of_bind_ok ho
  cases h
  exact wraps_of_pair ho hp (Part.mem_upcasts_of_generateAll hps p hp f hf) (.inr hcls) hwraps

/-- In every run the exposers of a part bind the wrappers of that part, and all of them. -/
theorem isLinked_ofRegistry (r : Registry) (release : Option Nat) :
    ∃ o, ofRegistry r release = .ok o ∧ ∀ p ∈ o.parts, p.IsLinked := by
  obtain ⟨o, ho⟩ := succeeds_ofRegistry r release
  refine ⟨o, ho, fun p hp => ?_⟩
  have hname : ∀ b ∈ p.blocks, b.2.name = b.1.wrapperName := fun b hb =>
    Method.name_of_wrapOrVeto (wrapOrVeto_of_mem_blocks ho (List.mem_flatMap.mpr ⟨p, hp, hb⟩))
  constructor
  case spelt => exact fun b _ => b.makes_statement
  case defined =>
    intro b hb
    rcases List.mem_append.mp hb with hb | hb
    · obtain ⟨b', hb', rfl⟩ := List.mem_map.mp hb
      show p.Defines b'.1.wrapperName
      rw [← hname b' hb']
      exact Part.defines_of_mem_blocks hb'
    · obtain ⟨u, hu, rfl⟩ := List.mem_map.mp hb
      obtain ⟨b, hb, hfor⟩ := List.any_eq_true.mp (wraps_of_mem_upcasts ho hp hu)
      obtain ⟨hcls, hmethod⟩ := Bool.and_eq_true_iff.mp hfor
      have hwrapper : b.2.name = u.method.wrapperName := by
        rw [hname b hb, Method.wrapperName, Method.wrapperName, beq_iff_eq.mp hcls,
          beq_iff_eq.mp hmethod]
      show p.Defines u.method.wrapperName
      rw [← hwrapper]
      exact Part.defines_of_mem_blocks hb
  case definitions =>
    rw [Part.wrappers]
    refine congrArg (fun texts => banner ++ String.join texts) (List.map_congr_left fun b _ => ?_)
    show "\n" ++ b.2.code = _
    rw [b.2.code_eq_text, ← String.append_assoc, Wrapper.text]
  case bound =>
    rintro name ⟨b, hb, rfl, -⟩
    refine ⟨b.1, b.2, List.mem_append_left _ (List.mem_map.mpr ⟨b, hb, rfl⟩), ?_, rfl, rfl, ?_⟩
    · exact (hname b hb).symm
    · exact wrapOrVeto_of_mem_blocks ho (List.mem_flatMap.mpr ⟨p, hp, hb⟩)
  case statements =>
    have hupcasts : ∀ f : Fold,
        (f.upcasts.map Binding.upcast).map Binding.statement = f.upcasts.map Upcast.statement :=
      fun f => List.map_map
    rw [Part.exposers, List.map_congr_left fun (f : Fold) _ => f.code_eq]
    simp only [hupcasts]
    rfl

end Output

end Run

end IslBindings
