import IslBindings.Code.Layout
import Mathlib.Data.List.Induction

/-!
# Functions in generated code

What the layout of a function prints: its signature, and between braces the lines of its body,
each indented once.
-/

namespace IslBindings.Code

def indented (line : String) : String := if line = "" then "" else "  " ++ line

/-- The definition of a function; what stands before its name ends in a blank or a star. -/
def functionText (front name inputs : String) (body : List String) : String :=
  front ++ name ++ "(" ++ inputs ++ ")\n\x7b\n" ++ String.join (body.map (indented · ++ "\n")) ++
    "\x7d\n"

theorem indent_one (line : String) : indent 1 line = indented line := rfl

theorem indent_two (line : String) : indent 2 line = indented (indented line) := by
  by_cases h : line = ""
  · rw [h]
    rfl
  · have hline : "  " ++ line ≠ "" := by simp [← String.toList_inj]
    rw [indent, indented, if_neg h, indented, if_neg h, if_neg hline, ← String.append_assoc]
    rfl

theorem layout_lines_append (depth : Nat) (lines : List String) (rest : List Step) :
    layout depth (lines.map Step.line ++ rest) = lines.map (indent depth) ++ layout depth rest := by
  induction lines with
  | nil => rfl
  | cons line lines ih =>
    rw [List.map_cons, List.cons_append, layout, ih, List.map_cons, List.cons_append]

theorem print_append (lines more : List String) :
    print (lines ++ more) = print lines ++ print more := by
  rw [print, List.map_append, String.join_append, print, print]

theorem print_cons (line : String) (lines : List String) :
    print (line :: lines) = line ++ "\n" ++ print lines := by
  rw [print, List.map_cons, String.join_cons, print]

theorem print_flatMap {α : Type} (f : α → List String) (l : List α) :
    print (l.flatMap f) = String.join (l.map fun a => print (f a)) := by
  induction l with
  | nil => rfl
  | cons a l ih => rw [List.flatMap_cons, print_append, ih, List.map_cons, String.join_cons]

theorem print_map_indented (lines : List String) :
    print (lines.map indented) = String.join (lines.map (indented · ++ "\n")) := by
  rw [print, List.map_map]
  rfl

/-- Behind a line feed and whole lines a line starts. -/
theorem exists_line_feed (lines : List String) : ∃ before, "\n" ++ print lines = before ++ "\n" := by
  induction lines using List.reverseRecOn with
  | nil => exact ⟨"", rfl⟩
  | append_singleton lines line =>
    refine ⟨"\n" ++ print lines ++ line, ?_⟩
    rw [print_append, print_cons]
    simp only [String.append_assoc]
    rfl

end IslBindings.Code
