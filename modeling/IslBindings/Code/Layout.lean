/-!
# Layout of generated code

Generated code is a list of steps: lines, and lines that open or close a block. A
block is indented by two spaces; a step may hold an indented line of its own. Empty
lines are not indented.
-/

namespace IslBindings.Code

inductive Step where
  | line (text : String)
  /-- What follows is one level deeper. -/
  | opening (text : String)
  /-- This and what follows is one level less deep, if there is one. -/
  | closing (text : String)
  deriving DecidableEq, Repr

def indent (depth : Nat) (text : String) : String :=
  if text = "" then "" else String.join (List.replicate depth "  ") ++ text

def layout : Nat → List Step → List String
  | _, [] => []
  | depth, .line text :: rest => indent depth text :: layout depth rest
  | depth, .opening text :: rest => indent depth text :: layout (depth + 1) rest
  | depth, .closing text :: rest => indent (depth - 1) text :: layout (depth - 1) rest

def print (lines : List String) : String := String.join (lines.map (· ++ "\n"))

def braced (steps : List Step) : List Step := .opening "\x7b" :: steps ++ [.closing "\x7d"]

theorem indent_zero (text : String) : indent 0 text = text := by
  simp only [indent]
  split
  · next h => exact h.symm
  · exact String.empty_append

theorem length_layout (depth : Nat) (steps : List Step) :
    (layout depth steps).length = steps.length := by
  induction steps generalizing depth with
  | nil => rfl
  | cons s rest ih =>
    cases s with
    | line _ => rw [layout, List.length_cons, List.length_cons, ih]
    | opening _ => rw [layout, List.length_cons, List.length_cons, ih]
    | closing _ => rw [layout, List.length_cons, List.length_cons, ih]

end IslBindings.Code
