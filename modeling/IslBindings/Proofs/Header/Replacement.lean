import IslBindings.Proofs.Header.Apart

/-!
# The replacement of a macro

What C makes of the lexemes of a macro's body. Operands that `##` joins make a chain. The chains
stand in the text one behind the other, each behind the white space that the body has there, and
their lexemes are found again in it if no chain runs on into what stands behind it.
-/

namespace IslBindings.Header

open Text

/-! ### Operands -/

/-- What a lexeme of a body stands for, and the white space before it. -/
structure Operand where
  /-- There is a `##` before it. -/
  isPasted : Bool
  gap : List Char
  value : List Piece
  deriving DecidableEq, Repr

/-- A parameter stands for its argument. -/
def valueOf (bound : Bindings) (l : List Char) : List Piece :=
  match bound.lookup l with
  | some arg => scan arg
  | none => [.lexeme l]

/-- The argument of the parameter that comes first, and what stands behind the parameter. -/
def parameterAt? (bound : Bindings) : List Piece → Option (List Char × List Piece)
  | .space _ :: rest => parameterAt? bound rest
  | .lexeme l :: rest => (bound.lookup l).map (·, rest)
  | _ => none

theorem eq_append_of_parameterAt? {bound : Bindings} {ps behind : List Piece} {arg : List Char}
    (h : parameterAt? bound ps = some (arg, behind)) :
    ∃ front w, ps = front ++ .lexeme w :: behind ∧ Piece.lexemesOf front = [] ∧
      bound.lookup w = some arg := by
  induction ps with
  | nil => cases h
  | cons p ps ih =>
    cases p with
    | space c =>
      obtain ⟨front, w, rfl, hfront, hw⟩ := ih h
      exact ⟨.space c :: front, w, rfl, hfront, hw⟩
    | comment s => cases h
    | lexeme l =>
      obtain ⟨a, hl, heq⟩ := Option.map_eq_some_iff.mp h
      cases heq
      exact ⟨[], l, rfl, rfl, hl⟩

theorem length_lt_of_parameterAt? {bound : Bindings} {ps behind : List Piece} {arg : List Char}
    (h : parameterAt? bound ps = some (arg, behind)) : behind.length < ps.length := by
  obtain ⟨front, w, rfl, -⟩ := eq_append_of_parameterAt? h
  rw [List.length_append, List.length_cons]
  omega

/-- The operands of a body, with the white space before each. Where one is missing, behind the
last lexeme too, it is empty. -/
def operands (bound : Bindings) (isPasted : Bool) (gap : List Char) : List Piece → List Operand
  | [] => [⟨isPasted, gap, []⟩]
  | .space c :: rest => operands bound isPasted (gap ++ [c]) rest
  | .comment _ :: rest => operands bound isPasted (gap ++ [' ']) rest
  | .lexeme l :: rest =>
    if l = ['#', '#'] then operands bound true [] rest
    else match _h : if l = ['#'] then parameterAt? bound rest else none with
      | some (arg, behind) =>
        ⟨isPasted, gap, [.lexeme (stringLiteral arg)]⟩ :: operands bound false [] behind
      | none => ⟨isPasted, gap, valueOf bound l⟩ :: operands bound false [] rest
termination_by ps => ps.length
decreasing_by
  · exact Nat.lt_succ_self _
  · exact Nat.lt_succ_self _
  · exact Nat.lt_succ_self _
  · split at _h
    · exact Nat.lt_succ_of_lt (length_lt_of_parameterAt? _h)
    · cases _h
  · exact Nat.lt_succ_self _

def Macro.bindings (m : Macro) (args : List (List Char)) : Bindings :=
  (m.params.map String.toList).zip args

def Macro.operands (m : Macro) (args : List (List Char)) : List Operand :=
  Header.operands (m.bindings args) false [] (scan m.body)

section Operands

variable {bound : Bindings} {isPasted : Bool} {gap l arg : List Char} {rest behind : List Piece}

end Operands

/-! ### The rule -/

/-- Operands that are joined by `##`, and the white space before them. -/
structure Chain where
  gap : List Char
  pieces : List Piece
  isJoined : Bool
  /-- A `##` in it has nothing before it. -/
  isHollow : Bool
  deriving DecidableEq, Repr

def Chain.start (gap : List Char) (value : List Piece) : Chain := ⟨gap, value, false, false⟩

def Chain.spaced (c : Chain) : List Piece := c.gap.map .space ++ c.pieces

/-- The chains in their order, each behind its white space. -/
def arrange (cs : List Chain) : List Piece := cs.flatMap Chain.spaced

theorem arrange_singleton (c : Chain) : arrange [c] = c.spaced := List.flatMap_singleton ..

theorem arrange_append (cs ds : List Chain) : arrange (cs ++ ds) = arrange cs ++ arrange ds :=
  List.flatMap_append

theorem textOf_spaces (gap : List Char) : Piece.textOf (gap.map .space) = gap := by
  rw [Piece.textOf, List.flatMap_map]
  exact List.flatMap_singleton' gap

theorem textOf_spaced (c : Chain) : Piece.textOf c.spaced = c.gap ++ Piece.textOf c.pieces := by
  rw [Chain.spaced, textOf_append, textOf_spaces]

section Paste

variable {ps qs : List Piece}

def StartsInLexeme (ps : List Piece) : Prop := ∀ p, ps.head? = some p → ∃ l, p = .lexeme l

def EndsInLexeme (ps : List Piece) : Prop := ∀ p, ps.getLast? = some p → ∃ l, p = .lexeme l

end Paste

end IslBindings.Header
