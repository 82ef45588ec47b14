/-!
# Sets of code points

A set of code points is a list of ranges, first and last code point of each.
-/

namespace IslBindings.Text

def inRanges (ranges : List (Nat × Nat)) (n : Nat) : Bool :=
  ranges.any fun r => r.1 ≤ n && n ≤ r.2

theorem inRanges_nil (n : Nat) : inRanges [] n = false := rfl

theorem inRanges_cons (lo hi : Nat) (ranges : List (Nat × Nat)) (n : Nat) :
    inRanges ((lo, hi) :: ranges) n = true ↔ (lo ≤ n ∧ n ≤ hi) ∨ inRanges ranges n = true := by
  simp [inRanges]

end IslBindings.Text
