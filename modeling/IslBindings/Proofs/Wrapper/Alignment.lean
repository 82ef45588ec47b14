import IslBindings.Proofs.Wrapper.WellShaped

/-!
# Arguments, parameters and documentation

A wrapper passes one value for each argument of the function, in the order of the signature. Its
parameters, their names and the lines that document them go through the same arguments, but for
the slots behind callbacks and the pointers through which the function returns something.
-/

namespace IslBindings

/-! ### What a signature asks for -/

/-- The function returns something through the argument. -/
def ValueArgument.isOutput (arg : ValueArgument) : Bool :=
  arg.type.depth == .pointerToPointer ||
    (arg.type.depth == .pointer && (arg.type.base == "int" || arg.type.base == "isl_bool"))

/-- What is passed for a value at a position. -/
def ValueArgument.passed (index : Nat) (arg : ValueArgument) : String :=
  match arg.type.depth with
  | .value => "arg_" ++ arg.name
  | .pointerToPointer => "&ret_" ++ arg.name
  | .pointer =>
    if arg.isOutput then "&arg_" ++ arg.name
    else if arg.type.base = "char" then
      if arg.type.ownership = some .take ∨ arg.type.ownership = some .give then
        "strdup(arg_" ++ arg.name ++ ")"
      else "arg_" ++ arg.name
    else if arg.type.base = "isl_val" ∧ 0 < index then "unique_arg_" ++ arg.name ++ "->m_data"
    else if arg.type.ownership = some .take ∧
        arg.type.base ∉ ["isl_ctx", "isl_printer", "isl_access_info"] then
      "auto_arg_" ++ arg.name ++ "->m_data"
    else "arg_" ++ arg.name ++ ".m_data"

namespace Argument

/-- What is passed for the arguments from a position on. A callback and the slot behind it take a
trampoline and the host callable. -/
def passed (m : Method) : Nat → List Argument → List String
  | index, .value arg :: rest => arg.passed index :: passed m (index + 1) rest
  | index, .callback name _ _ :: _ :: rest =>
    ("cb_" ++ m.cls ++ "_" ++ m.name ++ "_" ++ name) :: ("py_" ++ name ++ ".ptr()") ::
      passed m (index + 2) rest
  | _, _ => []

/-- The arguments that the caller gives. -/
def inputs : List Argument → List String
  | .value arg :: rest => if arg.isOutput then inputs rest else arg.name :: inputs rest
  | .callback name _ _ :: _ :: rest => name :: inputs rest
  | _ => []

end Argument

/-- A parameter and its documentation are about the argument of this name. -/
structure Parameter.IsFor (p : Parameter) (name : String) : Prop where
  named : p.name = name
  declaration : ∃ type, p.declaration = type ++ "arg_" ++ name ∨
    p.declaration = type ++ "py_" ++ name
  doc : ∃ text, p.doc = ":param " ++ name ++ ": " ++ text

/-! ### What one argument adds -/

namespace ArgShape

/-- The function returns something through an argument of the shape. -/
def isOutput : ArgShape → Bool
  | .flag _ => true
  | .handleOut .. => true
  | _ => false

theorem isOutput_of_suits {index : Nat} {arg : ValueArgument} {s : ArgShape}
    (h : Suits index arg s) : s.isOutput = arg.isOutput := by
  cases h with
  | scalar hdepth _ => simp [isOutput, ValueArgument.isOutput, hdepth]
  | text hdepth hbase => simp [isOutput, ValueArgument.isOutput, hdepth, hbase]
  | flag hdepth hbase _ => simp [isOutput, ValueArgument.isOutput, hdepth, hbase]
  | valueOrInt hdepth hbase _ => simp [isOutput, ValueArgument.isOutput, hdepth, hbase]
  | handle hdepth hbase hbool _ =>
    have hint : arg.type.base ≠ "int" := hbase ▸ isl_append_ne (by decide)
    simp [isOutput, ValueArgument.isOutput, hdepth, hint, hbool]
  | handleOut hdepth _ => simp [isOutput, ValueArgument.isOutput, hdepth]

end ArgShape

namespace Contribution

variable {m : Method} {index : Nat} {arg : ValueArgument} {s : ArgShape} {c : Contribution}

theorem parameter_of_ofHandle {cls : String} (h : ofHandle m index arg cls = .ok c) :
    ∃ p, c.parameter = some p ∧ p.IsFor arg.name := by
  have hborrowed : "isl::" ++ cls ++ " const &arg_" ++ arg.name =
      "isl::" ++ cls ++ " const &" ++ "arg_" ++ arg.name := by
    rw [show " const &arg_" = " const &" ++ "arg_" by decide, ← String.append_assoc]
  have htaken : "isl::" ++ cls ++ " &arg_" ++ arg.name =
      "isl::" ++ cls ++ " &" ++ "arg_" ++ arg.name := by
    rw [show " &arg_" = " &" ++ "arg_" by decide, ← String.append_assoc]
  obtain hc | hc | hc | hc := of_ofHandle h
  · obtain ⟨-, -, rfl⟩ := hc
    exact ⟨_, rfl, rfl, ⟨"py::object ", .inr rfl⟩, ⟨_, rfl⟩⟩
  · obtain ⟨-, -, rfl⟩ := hc
    exact ⟨_, rfl, rfl, ⟨_, .inl hborrowed⟩, ⟨_, rfl⟩⟩
  · obtain ⟨-, -, rfl⟩ := hc
    exact ⟨_, rfl, rfl, ⟨_, .inl htaken⟩, ⟨_, rfl⟩⟩
  · obtain ⟨-, rfl⟩ := hc
    exact ⟨_, rfl, rfl, ⟨_, .inl hborrowed⟩, ⟨_, rfl⟩⟩

/-- An argument adds a parameter of its own name, unless the function returns something
through it. -/
theorem parameter_of_ofShape (h : ofShape m (index, s) = .ok c) :
    if s.isOutput then c.parameter = none else ∃ p, c.parameter = some p ∧ p.IsFor s.name := by
  cases s with
  | callback cb =>
    obtain ⟨t, -, h⟩ := exists_of_bind_ok h
    cases h
    exact ⟨_, rfl, rfl, ⟨"py::object ", .inr rfl⟩, ⟨_, rfl⟩⟩
  | scalar arg =>
    cases h
    have hdeclaration : arg.type.base ++ " arg_" = arg.type.base ++ " " ++ "arg_" := by
      rw [String.append_assoc]
      rfl
    exact ⟨_, rfl, rfl, ⟨_, .inl (congrArg (· ++ arg.name) hdeclaration)⟩, ⟨_, rfl⟩⟩
  | text arg =>
    cases h
    have hdeclaration : arg.qualifier ++ "char *arg_" = arg.qualifier ++ "char *" ++ "arg_" := by
      rw [String.append_assoc]
      rfl
    exact ⟨_, rfl, rfl, ⟨_, .inl (congrArg (· ++ arg.name) hdeclaration)⟩, ⟨_, rfl⟩⟩
  | flag arg =>
    cases h
    rfl
  | valueOrInt arg =>
    simp only [ofShape, ofValueOrInt] at h
    split at h
    · cases h
    · cases h
      exact ⟨_, rfl, rfl, ⟨"py::object ", .inr rfl⟩, ⟨_, rfl⟩⟩
  | handle arg cls => exact parameter_of_ofHandle h
  | handleOut arg cls =>
    simp only [ofShape, ofHandleOut] at h
    split at h
    · cases h
      rfl
    · cases h

end Contribution

/-! ### What all arguments add -/

namespace Contribution

section Run

variable {m : Method} {index : Nat} {args : List Argument} {shapes : List (Nat × ArgShape)}
  {cs : List Contribution}

theorem inputs_of_shapes (h : ArgShape.Shapes index args shapes)
    (hrun : shapes.mapM (ofShape m) = .ok cs) :
    (cs.filterMap (·.parameter)).map (·.name) = Argument.inputs args := by
  induction h generalizing cs with
  | nil =>
    cases hrun
    rfl
  | value hs _ ih =>
    obtain ⟨c, cs, hc, hcs, rfl⟩ := exists_of_mapM_cons hrun
    have hparameter := parameter_of_ofShape hc
    rw [ArgShape.isOutput_of_suits (ArgShape.suits_of_ofValue hs)] at hparameter
    rw [filterMap_cons_toList, List.map_append, ih hcs, Argument.inputs]
    split at hparameter
    · next hout => rw [if_pos hout, hparameter]; rfl
    · next hout =>
      obtain ⟨p, hp, hfor⟩ := hparameter
      rw [if_neg hout, hp, ← (ArgShape.of_ofValue hs).1, ← hfor.named]
      rfl
  | callback _ ih =>
    obtain ⟨c, cs, hc, hcs, rfl⟩ := exists_of_mapM_cons hrun
    obtain ⟨p, hp, hfor⟩ := parameter_of_ofShape hc
    rw [filterMap_cons_toList, List.map_append, ih hcs, Argument.inputs, hp]
    exact congrArg (· :: _) hfor.named

theorem isFor_of_mem_parameters (hrun : shapes.mapM (ofShape m) = .ok cs) {p : Parameter}
    (hp : p ∈ cs.filterMap (·.parameter)) : p.IsFor p.name := by
  obtain ⟨c, hc, hcp⟩ := List.mem_filterMap.mp hp
  obtain ⟨⟨i, s⟩, -, hshape⟩ := exists_of_mem_mapM hrun hc
  have hparameter := parameter_of_ofShape hshape
  split at hparameter
  · rw [hparameter] at hcp
    cases hcp
  · obtain ⟨q, hq, hfor⟩ := hparameter
    rw [hq, Option.some.injEq] at hcp
    rw [← hcp, hfor.named]
    exact hfor

end Run

end Contribution

/-! ### Wrappers -/

namespace Wrapper

end Wrapper

namespace Method

variable {m : Method} {w : Wrapper}

theorem parameters_of_wrap (h : m.wrap = .wrapped w) :
    w.parameters.map (·.name) = Argument.inputs m.args ∧ ∀ p ∈ w.parameters, p.IsFor p.name := by
  obtain ⟨shapes, extras, shape, hargs, hrun, -⟩ := exists_of_wrap h
  have hshapes := ArgShape.shapes_of_ofArguments hargs
  exact ⟨Contribution.inputs_of_shapes hshapes hrun,
    fun p hp => Contribution.isFor_of_mem_parameters hrun hp⟩

end Method

end IslBindings
