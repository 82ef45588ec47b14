import IslBindings.Proofs.Header.Division

/-!
# Texts one behind the other

A text whose runs all have an end, and which leaves no line open, does not matter to what is found
behind it. So a declaration that closes its parentheses takes nothing with it, however malformed
it is.
-/

namespace IslBindings.Header

open Text

/-- The scan of the text ends closed: comments, blocks and declarations have their ends, and
neither the last line nor a backslash is left open. -/
structure EndsClosed (a : String) : Prop where
  row : EndsRow a.toList
  uncontinued : ∀ l ∈ lines a.toList, endsWithBackslash (withoutMarkers (trim l)) = false
  finished : ∃ runs, IsDivision runs (logicalLines a.toList) ∧ ∀ r ∈ runs, r.IsFinished

/-- The text is one declaration that closes its parentheses. -/
structure IsOneDeclaration (item : String) (ls : List (List Char)) : Prop where
  row : EndsRow item.toList
  uncontinued : ∀ l ∈ lines item.toList, endsWithBackslash (withoutMarkers (trim l)) = false
  division : IsDivision [⟨.declaration, ls⟩] (logicalLines item.toList)
  balanced : isBalanced (collected ls) = true
  notForward : declaresStruct (collected ls) = false

theorem EndsClosed.stateAfter_eq_idle {a : String} (h : EndsClosed a) :
    stateAfter .idle (logicalLines a.toList) = .idle := by
  obtain ⟨runs, hruns, hfinished⟩ := h.finished
  exact hruns.stateAfter_eq_idle_iff.mpr hfinished

theorem endsClosed_of_idle {a : String} (hrow : EndsRow a.toList)
    (huncontinued : ∀ l ∈ lines a.toList, endsWithBackslash (withoutMarkers (trim l)) = false)
    (hrest : stateAfter .idle (logicalLines a.toList) = .idle) : EndsClosed a := by
  obtain ⟨runs, hruns⟩ := exists_isDivision (logicalLines a.toList)
  exact ⟨hrow, huncontinued, runs, hruns, hruns.stateAfter_eq_idle_iff.mp hrest⟩

namespace IsOneDeclaration

variable {item : String} {ls : List (List Char)}

theorem stateAfter_eq_idle (h : IsOneDeclaration item ls) :
    stateAfter .idle (logicalLines item.toList) = .idle := by
  refine h.division.stateAfter_eq_idle_iff.mpr (List.forall_mem_singleton.mpr ?_)
  exact .inr h.balanced

theorem prototypes_eq (h : IsOneDeclaration item ls) :
    prototypes item = [String.ofList (trim (collected ls))] := by
  rw [prototypes, h.division.searchFrom_eq]
  simp [Run.found?, h.notForward]

end IsOneDeclaration

/-- Behind a text that ends closed, and behind a declaration that closes its parentheses, the rest
of a header is read as if neither were there. -/
theorem prototypes_append_of_endsClosed {a : String} (ha : EndsClosed a) (b : String) :
    prototypes (a ++ b) = prototypes a ++ prototypes b ∧
      ∀ item ls, IsOneDeclaration item ls → prototypes (a ++ (item ++ b)) =
        prototypes a ++ String.ofList (trim (collected ls)) :: prototypes b := by
  have happend := prototypes_append_of_idle ha.row ha.uncontinued ha.stateAfter_eq_idle
  refine ⟨happend b, fun item ls hitem => ?_⟩
  rw [happend, prototypes_append_of_idle hitem.row hitem.uncontinued hitem.stateAfter_eq_idle,
    hitem.prototypes_eq, List.singleton_append]

def sampleClosed : String :=
  "/* one;\n two */\nstruct isl_x \x7b\nint a;\n\x7d\nint isl_a_f(int x,\n\tint y);\n"

/-- A line that closes a parenthesis before it opens one. -/
def sampleMalformed : List Char := "int )isl_a_g 3 [( int x".toList

theorem isOneDeclaration_sampleMalformed :
    IsOneDeclaration (String.ofList (sampleMalformed ++ ['\n'])) [sampleMalformed] := by
  have hlines : logicalLines (String.ofList (sampleMalformed ++ ['\n'])).toList =
      [sampleMalformed] := by
    decide +kernel
  have hread : IsRead sampleMalformed :=
    ⟨by decide, fun h => absurd (List.isPrefixOf_iff_prefix.mpr h) (by decide)⟩
  have houtside : IsOutside sampleMalformed :=
    ⟨occursIn_eq_false_iff.mp (by decide), by decide⟩
  have haside : ¬IsAside sampleMalformed := fun h => absurd (isAside_iff.mp h) (by decide +kernel)
  have hrun : Run.IsRun ⟨.declaration, [sampleMalformed]⟩ :=
    ⟨⟨_, _, rfl, .declaration hread houtside haside⟩, isShortest_singleton _ _⟩
  refine ⟨.inr (by decide +kernel), by decide +kernel, ?_, by decide +kernel, by decide +kernel⟩
  rw [hlines]
  exact .last hrun

theorem prototypes_append_sampleClosed :
    EndsClosed sampleClosed ∧
      prototypes (sampleClosed ++ "int isl_a_h(int x);\n") =
        prototypes sampleClosed ++ prototypes "int isl_a_h(int x);\n" ∧
      prototypes (sampleClosed ++ (String.ofList (sampleMalformed ++ ['\n']) ++
          "int isl_a_h(int x);\n")) =
        prototypes sampleClosed ++ String.ofList (trim (collected [sampleMalformed])) ::
          prototypes "int isl_a_h(int x);\n" := by
  have hclosed : EndsClosed sampleClosed :=
    endsClosed_of_idle (.inr (by decide +kernel)) (by decide +kernel) (by decide +kernel)
  obtain ⟨happend, hitem⟩ := prototypes_append_of_endsClosed hclosed "int isl_a_h(int x);\n"
  exact ⟨hclosed, happend, hitem _ _ isOneDeclaration_sampleMalformed⟩

end IslBindings.Header
