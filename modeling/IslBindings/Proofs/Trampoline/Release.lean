import IslBindings.Proofs.Code.Layout
import IslBindings.Proofs.Lists
import IslBindings.Trampoline

/-!
# Lines of a trampoline

By which lines a trampoline wraps an object, hands it over and lets go of it. The lines are
counted by the names of the objects, for which no two objects have one in common.
-/

namespace IslBindings

/-! ### Lines about one object -/

namespace CallbackObject

def declaration (o : CallbackObject) : String :=
  "isl::" ++ o.cls ++ " *wrapped_arg_" ++ o.name ++ " = nullptr;"

def wrapping (o : CallbackObject) : String :=
  "wrapped_arg_" ++ o.name ++ " = new isl::" ++ o.cls ++ "(c_arg_" ++ o.name ++ ");"

/-- Makes what the host callable is handed. -/
def handle (o : CallbackObject) : String :=
  "py::object arg_" ++ o.name ++ "(handle_from_new_ptr(wrapped_arg_" ++ o.name ++ "));"

/-- Hands objects to the host callable. -/
def hostCall (objects : List CallbackObject) : String :=
  "py::object retval = py_cb(" ++ ", ".intercalate (objects.map fun o => "arg_" ++ o.name) ++ ");"

def invalidation (o : CallbackObject) : String := "wrapped_arg_" ++ o.name ++ "->invalidate();"

def reset (o : CallbackObject) : String := "wrapped_arg_" ++ o.name ++ " = nullptr;"

def guardedInvalidation (o : CallbackObject) : String :=
  "if (wrapped_arg_" ++ o.name ++ ") wrapped_arg_" ++ o.name ++ "->invalidate();"

theorem invalidation_inj {o p : CallbackObject} (h : o.invalidation = p.invalidation) :
    o.name = p.name := by
  have hchars := congrArg String.toList h
  simp only [invalidation, String.toList_append, List.append_cancel_left_eq,
    List.append_cancel_right_eq] at hchars
  exact String.toList_inj.mp hchars

theorem guardedInvalidation_inj {o p : CallbackObject}
    (h : o.guardedInvalidation = p.guardedInvalidation) : o.name = p.name := by
  unfold guardedInvalidation at h
  have hchars := congrArg String.toList h
  simp only [String.toList_append, List.append_assoc, List.append_cancel_left_eq] at hchars
  generalize ") wrapped_arg_".toList = middle, "->invalidate();".toList = last at hchars
  have hlength := congrArg List.length hchars
  simp only [List.length_append] at hlength
  exact String.toList_inj.mp (List.append_inj hchars (by omega)).1

theorem head?_guardedInvalidation (o : CallbackObject) :
    o.guardedInvalidation.toList.head? = some 'i' := by
  have hfront : "if (wrapped_arg_".toList = 'i' :: "f (wrapped_arg_".toList := by decide
  unfold guardedInvalidation
  simp only [String.toList_append, hfront, List.cons_append, List.head?_cons]

end CallbackObject

namespace CallbackAct

/-- The object that a statement lets go of, if only after a test. -/
def invalidatedName? : CallbackAct → Option String
  | .release o => some o.name
  | .releaseIfHeld o => some o.name
  | _ => none

theorem count_invalidation_release (p o : CallbackObject) :
    (release p).lines.count o.invalidation = [p.name].count o.name := by
  have hreset : p.reset ≠ o.invalidation := by
    intro heq
    have hlast := congrArg (fun line : String => line.toList.reverse.take 2) heq
    simp [CallbackObject.reset, CallbackObject.invalidation] at hlast
  have hiff : (p.invalidation == o.invalidation) = (p.name == o.name) := by
    rw [Bool.eq_iff_iff, beq_iff_eq, beq_iff_eq]
    refine ⟨CallbackObject.invalidation_inj, fun hname => ?_⟩
    rw [CallbackObject.invalidation, CallbackObject.invalidation, hname]
  show [p.invalidation, p.reset].count o.invalidation = _
  rw [List.count_cons, List.count_singleton, List.count_singleton, hiff,
    beq_eq_false_iff_ne.mpr hreset]
  simp

theorem count_invalidation_convert (r : CallbackResult) (o : CallbackObject) :
    (convert r).lines.count o.invalidation = 0 := by
  rw [List.count_eq_zero]
  intro hmem
  cases r <;>
    simp [lines, conversionLines, noneIsError, CallbackObject.invalidation,
      ← String.toList_inj] at hmem

theorem count_guarded_releaseIfHeld (p o : CallbackObject) :
    (releaseIfHeld p).lines.count o.guardedInvalidation = [p.name].count o.name := by
  have hiff : (p.guardedInvalidation == o.guardedInvalidation) = (p.name == o.name) := by
    rw [Bool.eq_iff_iff, beq_iff_eq, beq_iff_eq]
    refine ⟨CallbackObject.guardedInvalidation_inj, fun hname => ?_⟩
    unfold CallbackObject.guardedInvalidation
    rw [hname]
  show [p.guardedInvalidation].count o.guardedInvalidation = _
  rw [List.count_singleton, List.count_singleton, hiff]

theorem count_guarded_of_head {a : CallbackAct}
    (h : ∀ line ∈ a.lines, line.toList.head? ≠ some 'i') (o : CallbackObject) :
    a.lines.count o.guardedInvalidation = 0 := by
  rw [List.count_eq_zero]
  intro hmem
  exact h _ hmem o.head?_guardedInvalidation

theorem head?_fail (r : CallbackResult) :
    ∀ line ∈ (fail r).lines, line.toList.head? ≠ some 'i' := by
  have hfront : "return ".toList = 'r' :: "eturn ".toList := by decide
  intro line hline
  rw [List.mem_singleton.mp hline]
  simp only [String.toList_append, hfront, List.cons_append, List.head?_cons]
  decide

end CallbackAct

namespace Trampoline

/-! ### Code -/

def inputText (t : Trampoline) : String :=
  ", ".intercalate (t.inputs.map fun a => a.spelling ++ "c_arg_" ++ a.name)

/-- The lines of a body: the setup, and the blocks of the three ways out. -/
def bodyLines (setup onReturn onException onError : List String) : List String :=
  setup ++ ["try", "\x7b"] ++ onReturn.map Code.indented ++
    ["\x7d", "catch (py::python_error &err)", "\x7b"] ++ onException.map Code.indented ++
    ["\x7d", "catch (std::exception &e)", "\x7b"] ++ onError.map Code.indented ++ ["\x7d"]

def body (t : Trampoline) : List String :=
  bodyLines (t.setup.flatMap CallbackAct.lines) (t.onReturn.flatMap CallbackAct.lines)
    (t.onException.flatMap CallbackAct.lines) (t.onError.flatMap CallbackAct.lines)

def text (t : Trampoline) : String :=
  Code.functionText ("static " ++ t.result.spelling) t.name t.inputText t.body

theorem code_eq_text (t : Trampoline) : t.code = t.text := by
  have hindent : Code.indent 1 = Code.indented := funext Code.indent_one
  have htwice : Code.indent 2 = Code.indented ∘ Code.indented := funext Code.indent_two
  have hlayout : Code.layout 0 t.steps =
      t.signature :: "\x7b" :: (t.body.map Code.indented ++ ["\x7d"]) := by
    simp only [body, steps, Code.braced, actSteps, List.cons_append, List.append_assoc,
      List.nil_append, Code.layout, Code.layout_lines_append, Code.indent_zero, bodyLines, Nat.zero_add, hindent,
      htwice, List.map_append, List.map_cons, List.map_nil, List.map_map]
    rfl
  rw [code, hlayout, Code.print_cons, Code.print_cons, Code.print_append, Code.print_map_indented,
    text, Code.functionText, signature, inputText]
  simp only [String.append_assoc]
  rfl

end Trampoline

end IslBindings
