import IslBindings.Text.Blank
import IslBindings.Text.Lines

/-!
# Directives

A directive line starts, after blanks, with `#`; a directive line that ends, before
blanks, in a backslash makes the next line part of it. Directives are emptied and
every other line stays, so line numbers do not move. The main statements: emptying
keeps the number of lines, leaves no line that starts a directive, and a second
pass changes nothing.
-/

namespace IslBindings.Header

open Text

def startsDirective (line : List Char) : Bool := (trimStart line).head? == some '#'

def endsInBackslash (line : List Char) : Bool := (trimEnd line).getLast? == some '\\'

/-- Empties the lines of directives; the flag says that the line before asks for more. -/
def emptyDirectives : Bool → List (List Char) → List (List Char)
  | _, [] => []
  | inside, line :: rest =>
    if inside || startsDirective line then [] :: emptyDirectives (endsInBackslash line) rest
    else line :: emptyDirectives false rest

/-- The text with its directives emptied and a line feed after every line. -/
def withoutDirectives (text : List Char) : List Char :=
  unlines (emptyDirectives false (lines text))

theorem emptyDirectives_nil (inside : Bool) : emptyDirectives inside [] = [] := by
  rw [emptyDirectives]

theorem emptyDirectives_kept {line : List Char} (rest : List (List Char))
    (h : startsDirective line = false) :
    emptyDirectives false (line :: rest) = line :: emptyDirectives false rest := by
  simp [emptyDirectives, h]

theorem length_emptyDirectives (inside : Bool) (ls : List (List Char)) :
    (emptyDirectives inside ls).length = ls.length := by
  induction ls generalizing inside with
  | nil => rw [emptyDirectives_nil]
  | cons line rest ih =>
    rw [emptyDirectives]
    split
    · rw [List.length_cons, List.length_cons, ih]
    · rw [List.length_cons, List.length_cons, ih]

theorem startsDirective_of_mem_emptyDirectives {inside : Bool} {ls : List (List Char)}
    {line : List Char} (h : line ∈ emptyDirectives inside ls) : startsDirective line = false := by
  induction ls generalizing inside with
  | nil =>
    rw [emptyDirectives_nil] at h
    exact absurd h (by simp)
  | cons l rest ih =>
    rw [emptyDirectives] at h
    split at h
    · rcases List.mem_cons.mp h with rfl | h
      · rfl
      · exact ih h
    · next hl =>
      rcases List.mem_cons.mp h with rfl | h
      · simp only [Bool.or_eq_true, not_or, Bool.not_eq_true] at hl
        exact hl.2
      · exact ih h

/-- Lines of which none starts a directive stay as they are. -/
theorem emptyDirectives_of_forall {ls : List (List Char)}
    (h : ∀ l ∈ ls, startsDirective l = false) : emptyDirectives false ls = ls := by
  induction ls with
  | nil => rw [emptyDirectives_nil]
  | cons line rest ih =>
    rw [emptyDirectives_kept rest (h line (List.mem_cons_self ..)),
      ih fun l hl => h l (List.mem_cons_of_mem _ hl)]

theorem emptyDirectives_emptyDirectives (inside : Bool) (ls : List (List Char)) :
    emptyDirectives false (emptyDirectives inside ls) = emptyDirectives inside ls :=
  emptyDirectives_of_forall fun _ => startsDirective_of_mem_emptyDirectives

end IslBindings.Header
