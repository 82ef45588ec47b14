/-!
# C types with ownership

An ownership annotation, a pointer depth and the type words make the type of an
argument or of a result. The main statements: each annotation and each depth is
read back from its spelling.
-/

namespace IslBindings

/-! ### Ownership -/

/-- Who owns a value that crosses a call. -/
inductive Ownership where
  /-- The callee consumes the value. -/
  | take
  /-- The callee hands the value to the caller. -/
  | give
  /-- The callee borrows the value. -/
  | keep
  /-- The value is inert. -/
  | null
  deriving DecidableEq, Repr, Inhabited

namespace Ownership

def word : Ownership → String
  | .take => "__isl_take"
  | .give => "__isl_give"
  | .keep => "__isl_keep"
  | .null => "__isl_null"

def ofWord? (w : String) : Option Ownership :=
  if w = "__isl_take" then some .take
  else if w = "__isl_give" then some .give
  else if w = "__isl_keep" then some .keep
  else if w = "__isl_null" then some .null
  else none

theorem ofWord?_word (o : Ownership) : ofWord? o.word = some o := by
  cases o <;> rfl

theorem eq_word_of_ofWord? {w : String} {o : Ownership} (h : ofWord? w = some o) : w = o.word := by
  simp only [ofWord?] at h
  split at h
  · next hw => cases h; exact hw
  · split at h
    · next hw => cases h; exact hw
    · split at h
      · next hw => cases h; exact hw
      · split at h
        · next hw => cases h; exact hw
        · cases h

theorem ofWord?_eq_some_iff {w : String} {o : Ownership} : ofWord? w = some o ↔ w = o.word :=
  ⟨eq_word_of_ofWord?, fun h => h ▸ ofWord?_word o⟩

end Ownership

/-! ### Pointer depth -/

inductive Depth where
  | value
  | pointer
  | pointerToPointer
  deriving DecidableEq, Repr, Inhabited

namespace Depth

def ofStars? : Nat → Option Depth
  | 0 => some .value
  | 1 => some .pointer
  | 2 => some .pointerToPointer
  | _ => none

def count : Depth → Nat
  | .value => 0
  | .pointer => 1
  | .pointerToPointer => 2

def stars : Depth → String
  | .value => ""
  | .pointer => "*"
  | .pointerToPointer => "**"

theorem ofStars?_count (d : Depth) : ofStars? d.count = some d := by
  cases d <;> rfl

theorem ofStars?_eq_some_iff {n : Nat} {d : Depth} : ofStars? n = some d ↔ n = d.count := by
  constructor
  · intro h
    match n with
    | 0 => cases h; rfl
    | 1 => cases h; rfl
    | 2 => cases h; rfl
    | _ + 3 => cases h
  · rintro rfl
    exact ofStars?_count d

end Depth

/-! ### Types -/

structure CType where
  ownership : Option Ownership
  /-- The type words with single spaces, such as `isl_set` or `unsigned long`. -/
  base : String
  depth : Depth
  deriving DecidableEq, Repr, Inhabited

namespace CType

def spelling (t : CType) : String := t.base ++ " " ++ t.depth.stars

end CType

end IslBindings
