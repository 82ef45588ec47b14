import IslBindings.Proofs.Wrapper.Contribution
import IslBindings.Wrapper

/-!
# Positions of arguments

The shapes of a signature go through its arguments in order, a callback together with the
slot after it. What a wrapper passes to the function stands where the arguments of the
signature stand.
-/

namespace IslBindings

namespace ArgShape

def name : ArgShape → String
  | .callback c => c.name
  | .scalar arg => arg.name
  | .text arg => arg.name
  | .flag arg => arg.name
  | .valueOrInt arg => arg.name
  | .handle arg _ => arg.name
  | .handleOut arg _ => arg.name

/-- The number of arguments that a shape stands for. -/
def width : ArgShape → Nat
  | .callback _ => 2
  | _ => 1

/-! ### The shape of a value -/

theorem of_ofValue {arg : ValueArgument} {index : Nat} {s : ArgShape}
    (h : ofValue arg index = .ok s) : s.name = arg.name ∧ s.width = 1 := by
  simp only [ofValue] at h
  repeat' split at h
  all_goals cases h
  all_goals exact ⟨rfl, rfl⟩

theorem handle_of_ofValue {arg arg' : ValueArgument} {index : Nat} {cls : String}
    (h : ofValue arg index = .ok (.handle arg' cls)) :
    arg' = arg ∧ arg.islClass? = some cls := by
  simp only [ofValue] at h
  repeat' split at h
  all_goals cases h
  next hcls => exact ⟨rfl, hcls⟩

theorem flag_of_ofValue {arg arg' : ValueArgument} {index : Nat}
    (h : ofValue arg index = .ok (.flag arg')) :
    arg'.type.base = "int" ∨ arg'.type.base = "isl_bool" := by
  simp only [ofValue] at h
  repeat' split at h
  all_goals cases h
  next hbase _ => exact hbase

/-! ### The shapes of a signature -/

/-- The arguments from a position on have these shapes, each at its position. -/
inductive Shapes : Nat → List Argument → List (Nat × ArgShape) → Prop where
  | nil {index : Nat} : Shapes index [] []
  | value {index : Nat} {arg : ValueArgument} {s : ArgShape} {args : List Argument}
      {shapes : List (Nat × ArgShape)} :
      ofValue arg index = .ok s → Shapes (index + 1) args shapes →
        Shapes index (.value arg :: args) ((index, s) :: shapes)
  | callback {index : Nat} {name : String} {result : CType} {inner : List Argument}
      {next : Argument} {args : List Argument} {shapes : List (Nat × ArgShape)} :
      Shapes (index + 2) args shapes →
        Shapes index (.callback name result inner :: next :: args)
          ((index, .callback ⟨name, result, inner⟩) :: shapes)

theorem shapes_of_ofArguments {index : Nat} {args : List Argument} {shapes : List (Nat × ArgShape)}
    (h : ofArguments index args = .ok shapes) : Shapes index args shapes := by
  induction index, args using ofArguments.induct generalizing shapes with
  | case1 index =>
    cases h
    exact .nil
  | case2 index arg rest ih =>
    rw [ofArguments] at h
    obtain ⟨s, hs, h⟩ := exists_of_bind_ok h
    obtain ⟨ss, hss, h⟩ := exists_of_bind_ok h
    cases h
    exact .value hs (ih hss)
  | case3 => cases h
  | case4 index name result inner next rest hnext ih =>
    rw [ofArguments, if_pos hnext] at h
    obtain ⟨ss, hss, h⟩ := exists_of_bind_ok h
    cases h
    exact .callback (ih hss)
  | case5 index name result inner next rest hnext hends =>
    rw [ofArguments, if_neg hnext, if_pos hends] at h
    cases h
  | case6 index name result inner next rest hnext hends =>
    rw [ofArguments, if_neg hnext, if_neg hends] at h
    cases h

namespace Shapes

variable {index : Nat} {args : List Argument} {shapes : List (Nat × ArgShape)}

theorem le (h : Shapes index args shapes) {p : Nat × ArgShape} (hp : p ∈ shapes) :
    index ≤ p.1 := by
  induction h with
  | nil => simp at hp
  | value _ _ ih =>
    rcases List.mem_cons.mp hp with rfl | hp
    · exact Nat.le_refl _
    · have hle := ih hp
      omega
  | callback _ ih =>
    rcases List.mem_cons.mp hp with rfl | hp
    · exact Nat.le_refl _
    · have hle := ih hp
      omega

theorem base_of_flag (h : Shapes index args shapes) {i : Nat} {arg : ValueArgument}
    (hp : (i, .flag arg) ∈ shapes) : arg.type.base = "int" ∨ arg.type.base = "isl_bool" := by
  induction h with
  | nil => simp at hp
  | value hs _ ih =>
    rcases List.mem_cons.mp hp with heq | hp
    · cases heq
      exact flag_of_ofValue hs
    · exact ih hp
  | callback _ ih =>
    rcases List.mem_cons.mp hp with heq | hp
    · cases heq
    · exact ih hp

theorem names_sublist (h : Shapes index args shapes) :
    (shapes.map (·.2.name)).Sublist (args.map Argument.name) := by
  induction h with
  | nil => exact .slnil
  | value hs _ ih =>
    rw [List.map_cons, List.map_cons, (of_ofValue hs).1]
    exact ih.cons_cons _
  | callback _ ih => exact (ih.cons _).cons_cons _

end Shapes

end ArgShape

/-! ### What is passed -/

namespace Contribution

theorem length_actuals {m : Method} {p : Nat × ArgShape} {c : Contribution}
    (h : ofShape m p = .ok c) : c.actuals.length = p.2.width := by
  obtain ⟨index, s⟩ := p
  cases s with
  | callback cb =>
    obtain ⟨t, hactuals, -⟩ := of_ofCallback h
    rw [hactuals]
    rfl
  | valueOrInt arg =>
    rw [(of_ofValueOrInt h).1]
    rfl
  | handle arg cls =>
    rcases of_ofHandle h with ⟨-, -, rfl⟩ | ⟨-, -, rfl⟩ | ⟨-, -, rfl⟩ | ⟨-, rfl⟩
    all_goals rfl
  | handleOut arg cls =>
    rw [(of_ofHandleOut h).1]
    rfl
  | _ =>
    cases h
    rfl

section Passed

variable {m : Method} {index : Nat} {args : List Argument} {shapes : List (Nat × ArgShape)}
  {cs : List Contribution}

/-- As much is passed as the signature has arguments. -/
theorem length_flatMap_actuals (h : ArgShape.Shapes index args shapes)
    (hrun : shapes.mapM (ofShape m) = .ok cs) :
    (cs.flatMap (·.actuals)).length = args.length := by
  induction h generalizing cs with
  | nil =>
    cases hrun
    rfl
  | value hs _ ih =>
    obtain ⟨c, cs, hc, hcs, rfl⟩ := exists_of_mapM_cons hrun
    have hlength : c.actuals.length = 1 := (length_actuals hc).trans (ArgShape.of_ofValue hs).2
    rw [List.flatMap_cons, List.length_append, ih hcs, hlength, List.length_cons]
    omega
  | callback _ ih =>
    obtain ⟨c, cs, hc, hcs, rfl⟩ := exists_of_mapM_cons hrun
    have hlength : c.actuals.length = 2 := length_actuals hc
    rw [List.flatMap_cons, List.length_append, ih hcs, hlength, List.length_cons, List.length_cons]
    omega

theorem getElem?_actuals_cons {c : Contribution} {width i : Nat} {x : Option Actual}
    (hlength : c.actuals.length = width) (hle : index + width ≤ i)
    (h : (cs.flatMap (·.actuals))[i - (index + width)]? = x) :
    ((c :: cs).flatMap (·.actuals))[i - index]? = x := by
  rw [List.flatMap_cons, List.getElem?_append_right (by omega), hlength, Nat.sub_sub]
  exact h

theorem getElem?_actuals (h : ArgShape.Shapes index args shapes)
    (hrun : shapes.mapM (ofShape m) = .ok cs) {p : Nat × ArgShape} (hp : p ∈ shapes) :
    ∃ c, ofShape m p = .ok c ∧ (cs.flatMap (·.actuals))[p.1 - index]? = c.actuals[0]? := by
  induction h generalizing cs with
  | nil => simp at hp
  | @value index arg s args shapes hs hrest ih =>
    obtain ⟨c, cs, hc, hcs, rfl⟩ := exists_of_mapM_cons hrun
    have hlength : c.actuals.length = 1 := (length_actuals hc).trans (ArgShape.of_ofValue hs).2
    rcases List.mem_cons.mp hp with rfl | hp
    · refine ⟨c, hc, ?_⟩
      rw [List.flatMap_cons, Nat.sub_self, List.getElem?_append_left (by omega)]
    · obtain ⟨d, hd, hget⟩ := ih hcs hp
      exact ⟨d, hd, getElem?_actuals_cons hlength (hrest.le hp) hget⟩
  | callback hrest ih =>
    obtain ⟨c, cs, hc, hcs, rfl⟩ := exists_of_mapM_cons hrun
    have hlength : c.actuals.length = 2 := length_actuals hc
    rcases List.mem_cons.mp hp with rfl | hp
    · refine ⟨c, hc, ?_⟩
      rw [List.flatMap_cons, Nat.sub_self, List.getElem?_append_left (by omega)]
    · obtain ⟨d, hd, hget⟩ := ih hcs hp
      exact ⟨d, hd, getElem?_actuals_cons hlength (hrest.le hp) hget⟩

end Passed

end Contribution

end IslBindings
