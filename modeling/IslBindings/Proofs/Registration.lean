import IslBindings.Proofs.Registry.Contents
import IslBindings.Proofs.Wrapper.Alignment
import IslBindings.Registration

/-!
# Receivers and registrations

A registration leaves out the first parameter of a wrapper if the method has a receiver. That
parameter is the receiver, unless the function returns the object through it: then the wrapper has
no receiver, and its registration leaves out another argument.
-/

namespace IslBindings

/-! ### Parameters of a wrapper -/

theorem Method.parameters_of_wrapOrVeto {m : Method} {w : Wrapper} (h : m.wrapOrVeto = .wrapped w) :
    w.parameters.map (·.name) = Argument.inputs m.args ∧ ∀ p ∈ w.parameters, p.IsFor p.name := by
  simp only [wrapOrVeto] at h
  split at h
  · exact parameters_of_wrap (m := m.veto) h
  · exact parameters_of_wrap h

/-- The receiver of a class of the catalogue is given by the caller, unless it stands behind a
pointer to a pointer. -/
theorem Method.isOutput_receiver {m : Method} {arg : ValueArgument} (hcls : m.cls ∈ Catalogue.classes)
    (h : m.receiver? = some arg) : arg.isOutput = (arg.type.depth == .pointerToPointer) := by
  obtain ⟨rest, -, hbase⟩ := m.receiver?_eq_some_iff.mp h
  have hint : arg.type.base ≠ "int" := hbase ▸ isl_append_ne (by decide)
  have hbool : arg.type.base ≠ "isl_bool" := by
    intro heq
    have hno : ∀ c ∈ Catalogue.classes, "isl_" ++ c ≠ "isl_bool" := by decide +kernel
    exact hno m.cls hcls (hbase.symm.trans heq)
  simp [ValueArgument.isOutput, hint, hbool]

theorem Registry.exists_wrapped_of_any {r : Registry} {p : Method → Wrapper → Prop}
    [∀ m w, Decidable (p m w)]
    (h : (r.methods.any fun m =>
      match m.wrapOrVeto with
      | .wrapped w => decide (p m w)
      | _ => false) = true) :
    ∃ m ∈ r.methods, ∃ w, m.wrapOrVeto = .wrapped w ∧ p m w := by
  obtain ⟨m, hm, h⟩ := List.any_eq_true.mp h
  refine ⟨m, hm, ?_⟩
  split at h
  · next w hw => exact ⟨w, hw, of_decide_eq_true h⟩
  · cases h

/-! ### Statements -/

namespace Registration

/-- The names in a statement go with the parameters of the wrapper that it binds. -/
structure Follows (m : Method) (w : Wrapper) : Prop where
  statement : (ofWrapper m w).statement = "wrap_" ++ m.cls ++ ".def" ++
    (if m.isStatic then "_static" else "") ++ "(\"" ++ nameFor m ++ "\", isl::" ++ m.wrapperName ++
      String.join ((ofWrapper m w).argNames.map fun name => ", py::arg(\"" ++ name ++ "\")") ++
      ", " ++ Code.literal (ofWrapper m w).doc ++ ");\n"
  static : m.isStatic = true → (ofWrapper m w).argNames = w.parameters.map (·.name)
  receiver : ∀ arg, m.receiver? = some arg → arg.type.depth ≠ .pointerToPointer →
    arg.name = "self" ∧ ∃ p rest, w.parameters = p :: rest ∧ p.IsFor "self" ∧
      (ofWrapper m w).argNames = rest.map (·.name)
  /-- Without a receiver among the parameters the first of the others goes unnamed. -/
  output : ∀ arg, m.receiver? = some arg → arg.type.depth = .pointerToPointer →
    w.parameters.map (·.name) = Argument.inputs (m.args.drop 1) ∧
      (ofWrapper m w).argNames = (Argument.inputs (m.args.drop 1)).drop 1

theorem argNames_of_receiver {m : Method} {w : Wrapper} {arg : ValueArgument}
    (h : m.receiver? = some arg) :
    (ofWrapper m w).argNames = (w.parameters.map (·.name)).drop 1 := by
  have hstatic : m.isStatic = false := by rw [Method.isStatic, h]; rfl
  unfold ofWrapper
  rw [hstatic]
  rfl

/-- Every method of a reachable registry that has a wrapper is registered in this way. -/
theorem follows_of_wrapOrVeto {r : Registry} (hr : r.Reachable) {m : Method} (hm : m ∈ r.methods)
    {w : Wrapper} (hw : m.wrapOrVeto = .wrapped w) : Follows m w := by
  obtain ⟨hnames, hfor⟩ := Method.parameters_of_wrapOrVeto hw
  have hcls := hr.sound.placed m hm
  constructor
  case statement => rfl
  case static =>
    intro hstatic
    unfold ofWrapper
    rw [hstatic]
    rfl
  case receiver =>
    intro arg harg hdepth
    have hin : arg.isOutput = false := by
      rw [Method.isOutput_receiver hcls harg, beq_eq_false_iff_ne]
      exact hdepth
    obtain ⟨rest, hargs, -⟩ := m.receiver?_eq_some_iff.mp harg
    have hself : arg.name = "self" := by
      have hstatic : m.isStatic = false := by rw [Method.isStatic, harg]; rfl
      obtain ⟨a, as, hfirst, hname⟩ :=
        hr.forall_methods (fun _ _ _ _ h => h.first_of_not_isStatic) m hm hstatic
      rw [hargs, List.cons.injEq, Argument.value.injEq] at hfirst
      rw [hfirst.1, hname]
    refine ⟨hself, ?_⟩
    rw [hargs, Argument.inputs, if_neg (Bool.eq_false_iff.mp hin), hself] at hnames
    obtain ⟨p, ps, hparameters, hname, hrest⟩ := List.map_eq_cons_iff.mp hnames
    have hp := hfor p (hparameters ▸ List.mem_cons_self ..)
    rw [hname] at hp
    refine ⟨p, ps, hparameters, hp, ?_⟩
    rw [argNames_of_receiver harg, hparameters]
    rfl
  case output =>
    intro arg harg hdepth
    have hout : arg.isOutput = true := by
      rw [Method.isOutput_receiver hcls harg, hdepth]
      rfl
    obtain ⟨rest, hargs, -⟩ := m.receiver?_eq_some_iff.mp harg
    rw [hargs, Argument.inputs, if_pos hout] at hnames
    rw [argNames_of_receiver harg, hnames, hargs]
    exact ⟨rfl, rfl⟩

def withReceiver : Registry :=
  (Registry.empty.addAll
    ["isl_bool isl_set_is_subset(__isl_keep isl_set *set1, __isl_keep isl_set *set2);"]).1

theorem follows_of_wrapOrVeto_withReceiver :
    withReceiver.Reachable ∧ ∃ m ∈ withReceiver.methods, ∃ w, m.wrapOrVeto = .wrapped w ∧
      Follows m w ∧ m.isStatic = false ∧ w.argNames = ["self", "set2"] ∧
      (ofWrapper m w).argNames = ["set2"] := by
  have hr : withReceiver.Reachable := Registry.Reachable.empty.addAll _
  have hsubset : ∃ m ∈ withReceiver.methods, ∃ w, m.wrapOrVeto = .wrapped w ∧
      m.isStatic = false ∧ w.argNames = ["self", "set2"] ∧ (ofWrapper m w).argNames = ["set2"] :=
    Registry.exists_wrapped_of_any (by decide +kernel)
  obtain ⟨m, hm, w, hw, hcase⟩ := hsubset
  exact ⟨hr, m, hm, w, hw, follows_of_wrapOrVeto hr hm hw, hcase⟩

/-- The function returns its object through the first argument. -/
def withOutput : Registry :=
  (Registry.empty.addAll ["isl_stat isl_set_f(__isl_give isl_set **set, int x);"]).1

/-- The statement takes `x` for a receiver, which the wrapper does not have. -/
theorem unnamed_argument_withOutput :
    withOutput.Reachable ∧ ∃ m ∈ withOutput.methods, ∃ w, m.wrapOrVeto = .wrapped w ∧
      w.signature = "py::object set_f(int arg_x)" ∧ w.parameters.map (·.name) = ["x"] ∧
      (ofWrapper m w).isStatic = false ∧ (ofWrapper m w).argNames = [] :=
  ⟨Registry.Reachable.empty.addAll _, Registry.exists_wrapped_of_any (by decide +kernel)⟩

end Registration

end IslBindings
