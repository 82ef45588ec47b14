import IslBindings.Proofs.Wrapper.Stages

/-!
# The text of a wrapper

A wrapper is printed as one function behind its trampolines. The lines of that function prepare
the call, call, let go of what the function has taken, and convert the result. None of the lines
before the conversion returns or looks at the result.
-/

namespace IslBindings

namespace Wrapper

def linesBefore (w : Wrapper) : List String := w.beforeCall.flatMap Statement.lines

def linesBetween (w : Wrapper) : List String := w.fixups.flatMap Statement.lines

def linesAfter (w : Wrapper) : List String := w.conversion.statements.flatMap Statement.lines

/-- What the call passes, as it is printed. -/
def passed (w : Wrapper) : List String := w.actuals.map Actual.expression

/-- The line of the call. -/
def callLine (w : Wrapper) : String :=
  Statement.capture w.captured ++ w.function ++ "(" ++ ", ".intercalate w.passed ++ ");"

def inputs (w : Wrapper) : String := ", ".intercalate (w.parameters.map (·.declaration))

/-- The function of the wrapper, without the trampolines. -/
def text (w : Wrapper) : String :=
  Code.functionText (w.conversion.cppType ++ " ") w.name w.inputs (w.body.flatMap Statement.lines)

theorem lines_body (w : Wrapper) :
    w.body.flatMap Statement.lines =
      w.linesBefore ++ w.callLine :: (w.linesBetween ++ w.linesAfter) := by
  rw [body, List.flatMap_append, List.flatMap_append, List.flatMap_append, List.append_assoc,
    List.append_assoc]
  rfl

theorem code_eq_text (w : Wrapper) : w.code = Code.print w.trampolineLines ++ w.text := by
  have hindent : Code.indent 1 = Code.indented := funext Code.indent_one
  rw [w.code_eq, text, Code.functionText, hindent, Code.print_map_indented, signature, inputs]
  simp only [String.append_assoc]
  rfl

theorem passed_of_actuals {w : Wrapper} {i : Nat} {a : Actual} (h : w.actuals[i]? = some a) :
    w.passed[i]? = some a.expression := by
  rw [passed, List.getElem?_map, h]
  rfl

end Wrapper

/-- The code of a method's wrapper: the call of its C function, between what prepares the call and
what is made of the result. -/
theorem Method.code_of_wrap {m : Method} {w : Wrapper} (hw : m.wrap = .wrapped w) :
    w.code = Code.print w.trampolineLines ++
      Code.functionText (w.conversion.cppType ++ " ") m.wrapperName w.inputs
        (w.linesBefore ++
          (Statement.capture w.captured ++ m.cName ++ "(" ++ ", ".intercalate w.passed ++ ");") ::
            (w.linesBetween ++ w.linesAfter)) := by
  obtain ⟨cs, shape, conversion, -, -, -, heq⟩ := exists_assemble_of_wrap hw
  have hname : w.name = m.wrapperName := by rw [heq]; rfl
  have hfunction : w.function = m.cName := by rw [heq]; rfl
  rw [w.code_eq_text, Wrapper.text, w.lines_body, Wrapper.callLine, hname, hfunction]

theorem Statement.lines_infix_of_mem {t : Statement} {l : List Statement} (ht : t ∈ l) :
    t.lines <:+: l.flatMap lines := by
  rw [List.flatMap_def]
  exact List.infix_of_mem_flatten (List.mem_map_of_mem ht)

/-! ### Lines that conclude -/

/-- The line returns, or looks at the result of the call. -/
def Concludes (line : String) : Prop :=
  ∃ word ∈ ["return", "if (result", "if (!result"],
    word.toList <+: line.toList.dropWhile (· = ' ')

namespace Statement

theorem not_concludes_of_release {t : Statement} (ht : t.stage = .release) :
    ∀ line ∈ t.lines, ¬Concludes line := by
  cases t with
  | invalidate h => cases h <;> simp [lines, Held.invalidation, Concludes, String.toList_append]
  | wrapObject cls name => simp [lines, Concludes, String.toList_append]
  | _ => cases ht

theorem not_concludes_of_preparation {t : Statement} (ht : t.stage = .preparation)
    (hflag : ∀ base name, t = .declareFlag base name → base = "int" ∨ base = "isl_bool") :
    ∀ line ∈ t.lines, ¬Concludes line := by
  cases t with
  | takeValue name => simp [lines, takeValueLines, Concludes, String.toList_append]
  | copyHandle label cls name => simp [lines, copyHandleLines, Concludes, String.toList_append]
  | setContext cls name =>
    rw [lines]
    split <;> simp [Concludes, String.toList_append]
  | declareFlag base name =>
    rcases hflag base name rfl with rfl | rfl <;> simp [lines, Concludes, String.toList_append]
  | declareContext => simp [lines, Concludes]
  | bindReceiver => simp [lines, Concludes, String.toList_append]
  | requireValid => simp [lines, Concludes, String.toList_append]
  | declareObject => simp [lines, Concludes, String.toList_append]
  | resetError => simp [lines, Concludes]
  | _ => cases ht

end Statement

end IslBindings
