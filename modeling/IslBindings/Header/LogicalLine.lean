import IslBindings.Text.Alphanumeric
import IslBindings.Text.Lines
import IslBindings.Text.Search

/-!
# Logical lines

What the search for prototypes sees of a header: trimmed lines with `\` continuations
joined, `__isl_subclass(...)` markers and directives gone, and a break after each
semicolon that a word follows on the same line.
-/

namespace IslBindings.Header

open Text

/-! ### Subclass markers -/

def subclassMarker : List Char := "__isl_subclass".toList

/-- The text after a parenthesised argument, which blanks may precede. -/
def afterArgument? (s : List Char) : Option (List Char) :=
  match trimStart s with
  | '(' :: rest => (cutAt? [')'] rest).map (·.2)
  | _ => none

theorem length_le_of_afterArgument? {s tail : List Char} (h : afterArgument? s = some tail) :
    tail.length ≤ s.length := by
  simp only [afterArgument?] at h
  split at h
  · next rest hs =>
    obtain ⟨⟨before, after⟩, hc, rfl⟩ := Option.map_eq_some_iff.mp h
    have h1 := length_le_of_cutAt? hc
    have h2 := (trimStart_isSuffix s).length_le
    rw [hs, List.length_cons] at h2
    exact Nat.le_trans h1 (Nat.le_trans (Nat.le_succ _) h2)
  · exact absurd h (by simp)

/-- The argument that a marker at the start of the text carries is dropped with the marker. -/
def afterMarker? (s : List Char) : Option (List Char) :=
  if subclassMarker.isPrefixOf s then afterArgument? (s.drop subclassMarker.length) else none

theorem length_lt_of_afterMarker? {s tail : List Char} (h : afterMarker? s = some tail) :
    tail.length < s.length := by
  simp only [afterMarker?] at h
  split at h
  · next hp =>
    have h1 := length_le_of_afterArgument? h
    have h2 := (List.isPrefixOf_iff_prefix.mp hp).length_le
    have h3 : subclassMarker.length = 14 := by decide
    rw [List.length_drop] at h1
    omega
  · exact absurd h (by simp)

/-- The text without its markers; a marker that no argument follows stays. -/
def withoutMarkers (s : List Char) : List Char :=
  match _h : afterMarker? s with
  | some tail => withoutMarkers tail
  | none =>
    match s with
    | [] => []
    | c :: rest => c :: withoutMarkers rest
termination_by s.length
decreasing_by
  · exact length_lt_of_afterMarker? ‹_›
  · exact Nat.lt_succ_self _

/-! ### Breaks inside a line -/

/-- A word starts here, after spaces and tabs. -/
def wordFollows (s : List Char) : Bool :=
  match s.dropWhile isSpaceOrTab with
  | [] => false
  | c :: _ => isWordChar c

/-- Breaks the line after each semicolon that a word follows. -/
def breakAfterSemicolons : List Char → List (List Char)
  | [] => [[]]
  | c :: rest =>
    if c = ';' && wordFollows rest then [c] :: breakAfterSemicolons rest
    else match breakAfterSemicolons rest with
      | [] => [[c]]
      | piece :: more => (c :: piece) :: more

/-- The logical lines of one joined line: none for a directive. -/
def piecesOf (line : List Char) : List (List Char) :=
  if (trimStart line).head? == some '#' then [] else (breakAfterSemicolons line).map trim

/-! ### Continuations -/

def endsWithBackslash (line : List Char) : Bool := line.getLast? == some '\\'

/-- Walks the lines of a text; `pending` is a line that a backslash has left open. -/
def logicalFrom : Option (List Char) → List (List Char) → List (List Char)
  | none, [] => []
  | some line, [] => piecesOf (line.reverse.dropWhile (· == '\\')).reverse
  | pending, raw :: rest =>
    let line := match pending with
      | none => withoutMarkers (trim raw)
      | some start => start ++ trim raw
    if endsWithBackslash line then logicalFrom (some line.dropLast) rest
    else piecesOf line ++ logicalFrom none rest

def logicalLines (text : List Char) : List (List Char) := logicalFrom none (lines text)

theorem logicalFrom_none_nil : logicalFrom none [] = [] := by
  rw [logicalFrom]

/-- A line that no backslash leaves open stands for itself. -/
theorem logicalFrom_closed {raw : List Char} (rest : List (List Char))
    (h : endsWithBackslash (withoutMarkers (trim raw)) = false) :
    logicalFrom none (raw :: rest) =
      piecesOf (withoutMarkers (trim raw)) ++ logicalFrom none rest := by
  simp [logicalFrom, h]

/-- Lines of which none is left open can be read one by one. -/
theorem logicalFrom_append (ls ms : List (List Char))
    (h : ∀ l ∈ ls, endsWithBackslash (withoutMarkers (trim l)) = false) :
    logicalFrom none (ls ++ ms) = logicalFrom none ls ++ logicalFrom none ms := by
  induction ls with
  | nil => rw [logicalFrom_none_nil, List.nil_append, List.nil_append]
  | cons l ls ih =>
    have hl := h l (List.mem_cons_self ..)
    rw [List.cons_append, logicalFrom_closed _ hl, logicalFrom_closed _ hl,
      ih fun m hm => h m (List.mem_cons_of_mem _ hm), List.append_assoc]

end IslBindings.Header
