import IslBindings.Toml.Moment
import IslBindings.Toml.Number

/-!
# TOML documents

A document is a list of statements, one a line: a key with its value, or the header of
a table or of a table in an array. Values are strings, numbers, booleans, dates and
times, arrays and tables. The main statement: the keys of a table are apart, none of
them leads to a place inside the value of another.
-/

namespace IslBindings.Toml

open Text

/-- The parts of a key, with dots between them. -/
abbrev Key := List String

inductive Value where
  | text (s : String)
  | number (n : Number)
  | boolean (b : Bool)
  /-- A date, a time or both. -/
  | moment
  | array (items : List Value)
  | table (entries : List (Key × Value))
  deriving Repr

inductive Statement where
  | assign (key : Key) (value : Value)
  | tableHeader (key : Key)
  | arrayHeader (key : Key)
  deriving Repr

/-! ### Gaps -/

def skipBlanks (s : List Char) : List Char := s.dropWhile isSpaceOrTab

/-- The text after a comment, which ends before the end of its line. -/
def afterComment? (s : List Char) : Option (List Char) :=
  if (s.takeWhile isInLine).any isForbidden then none else some (s.dropWhile isInLine)

theorem length_le_of_afterComment? {s rest : List Char} (h : afterComment? s = some rest) :
    rest.length ≤ s.length := by
  simp only [afterComment?] at h
  split at h
  · exact absurd h (by simp)
  · simp only [Option.some.injEq] at h
    rw [← h]
    exact (List.dropWhile_suffix _).length_le

/-- The text after blanks, line ends and comments. -/
def skipGaps? : List Char → Option (List Char)
  | [] => some []
  | c :: rest =>
    if isSpaceOrTab c || c == '\n' || (c == '\r' && rest.head? == some '\n') then skipGaps? rest
    else if c = '#' then
      match h : afterComment? rest with
      | some next =>
        have := length_le_of_afterComment? h
        skipGaps? next
      | none => none
    else some (c :: rest)
termination_by s => s.length
decreasing_by
  · exact Nat.lt_succ_self _
  · exact Nat.lt_succ_of_le this

/-- The next line, after blanks and perhaps a comment at the end of this one. -/
def nextLine? (s : List Char) : Option (List Char) :=
  let rest := match skipBlanks s with
    | '#' :: comment => afterComment? comment
    | rest => some rest
  match rest with
  | some [] => some []
  | some ('\n' :: rest) => some rest
  | some ('\r' :: '\n' :: rest) => some rest
  | _ => none

/-! ### Keys -/

def isKeyChar (c : Char) : Bool :=
  ('a' ≤ c && c ≤ 'z') || ('A' ≤ c && c ≤ 'Z') || ('0' ≤ c && c ≤ '9') || c == '_' || c == '-'

/-- A quoted part of a key, or one of letters, digits, underscores and dashes. -/
def keyPart? (s : List Char) : Option (String × List Char) :=
  match s.takeWhile isKeyChar with
  | [] => lineString? s
  | part => some (String.ofList part, s.dropWhile isKeyChar)

/-- Arrays and tables stand in one another at most so deep, and no key has more parts. -/
def nestingLimit : Nat := 80

/-- A key of at most so many parts. -/
def keyWithin? : Nat → List Char → Option (Key × List Char)
  | 0, _ => none
  | limit + 1, s => do
    let (part, s) ← keyPart? (skipBlanks s)
    match skipBlanks s with
    | '.' :: s =>
      let (parts, s) ← keyWithin? limit s
      return (part :: parts, s)
    | s => return ([part], s)

def key? (s : List Char) : Option (Key × List Char) := keyWithin? nestingLimit s

/-- Neither key is the start of the other. -/
def Key.isApart (k l : Key) : Bool := !k.isPrefixOf l && !l.isPrefixOf k

def areApart (keys : List Key) : Bool := decide (keys.Pairwise fun k l => k.isApart l)

theorem areApart_iff {keys : List Key} :
    areApart keys ↔ keys.Pairwise fun k l => ¬ k <+: l ∧ ¬ l <+: k := by
  simp only [areApart, Key.isApart, decide_eq_true_eq, Bool.and_eq_true, Bool.not_eq_true',
    ← List.isPrefixOf_iff_prefix, Bool.not_eq_true]

/-! ### Unquoted values -/

/-- A character of an unquoted value. -/
def isScalarChar (c : Char) : Bool := !"=,[]\x7b\x7d# \t\r\n".toList.contains c

/-- A character that an unquoted value may start with, or go on with behind blanks. -/
def startsScalar (c : Char) : Bool := isScalarChar c && c != '"' && c != '\''

/-- An unquoted value, and what follows it. The blanks between its words are part of it. -/
def cutScalar (s : List Char) : List Char × List Char :=
  let word := s.takeWhile isScalarChar
  let rest := s.dropWhile isScalarChar
  let next := rest.dropWhile isSpaceOrTab
  if next.length < rest.length ∧ next.head?.any startsScalar then
    let (more, after) := cutScalar next
    (word ++ rest.takeWhile isSpaceOrTab ++ more, after)
  else (word, rest)
termination_by s.length
decreasing_by
  next h => exact Nat.lt_of_lt_of_le h.1 (List.dropWhile_suffix _).length_le

/-- A boolean, a number, or a date or time. -/
def scalar? (word : List Char) : Option Value :=
  if word = "true".toList then some (.boolean true)
  else if word = "false".toList then some (.boolean false)
  else if isMoment word then some .moment
  else (number? word).map .number

/-! ### Values -/

mutual

/-- A value, and what follows it. So many more arrays and tables may stand in one another, and
`fuel` bounds the steps, where each item is a step behind the one before it. -/
def valueWithin? : Nat → Nat → List Char → Option (Value × List Char)
  | 0, _, _ => none
  | fuel + 1, room, s =>
    match s with
    | '[' :: s =>
      if room = 0 then none
      else (itemsWithin? fuel (room - 1) s).map fun (items, s) => (.array items, s)
    | '\x7b' :: s =>
      if room = 0 then none
      else match entriesWithin? fuel (room - 1) s with
        | some (entries, s) =>
          if areApart (entries.map (·.1)) then some (.table entries, s) else none
        | none => none
    | s =>
      match string? s with
      | some (text, s) => some (.text text, s)
      | none =>
        let (word, rest) := cutScalar s
        (scalar? word).map fun v => (v, rest)

/-- The items of an array up to its bracket. A comma may stand before the bracket. -/
def itemsWithin? : Nat → Nat → List Char → Option (List Value × List Char)
  | 0, _, _ => none
  | fuel + 1, room, s => do
    match ← skipGaps? s with
    | ']' :: s => return ([], s)
    | s =>
      let (item, s) ← valueWithin? fuel room s
      match ← skipGaps? s with
      | ']' :: s => return ([item], s)
      | ',' :: s =>
        let (items, s) ← itemsWithin? fuel room s
        return (item :: items, s)
      | _ => failure

/-- The entries of a table between braces up to its brace. A comma may stand before the brace. -/
def entriesWithin? : Nat → Nat → List Char → Option (List (Key × Value) × List Char)
  | 0, _, _ => none
  | fuel + 1, room, s => do
    match ← skipGaps? s with
    | '\x7d' :: s => return ([], s)
    | s =>
      let (key, s) ← key? s
      match ← skipGaps? s with
      | '=' :: s =>
        let (value, s) ← valueWithin? fuel room (← skipGaps? s)
        match ← skipGaps? s with
        | '\x7d' :: s => return ([(key, value)], s)
        | ',' :: s =>
          let (entries, s) ← entriesWithin? fuel room s
          return ((key, value) :: entries, s)
        | _ => failure
      | _ => failure

end

/-- A value, and what follows it. Two steps read at least one character. -/
def value? (s : List Char) : Option (Value × List Char) :=
  valueWithin? (2 * s.length + 2) nestingLimit s

/-! ### Statements -/

def statement? (s : List Char) : Option (Statement × List Char) := do
  match s with
  | '[' :: '[' :: s =>
    match ← key? s with
    | (key, ']' :: ']' :: s) => return (.arrayHeader key, s)
    | _ => failure
  | '[' :: s =>
    match ← key? s with
    | (key, ']' :: s) => return (.tableHeader key, s)
    | _ => failure
  | s =>
    match ← key? s with
    | (key, '=' :: s) =>
      let (value, s) ← value? (skipBlanks s)
      return (.assign key value, s)
    | _ => failure

/-- The statements of at most `fuel` lines. -/
def statementsWithin? : Nat → List Char → Option (List Statement)
  | 0, s => if s.isEmpty then some [] else none
  | fuel + 1, s =>
    match skipBlanks s with
    | [] => some []
    | c :: rest => do
      if c = '#' ∨ !isInLine c then
        statementsWithin? fuel (← nextLine? (c :: rest))
      else
        let (statement, s) ← statement? (c :: rest)
        return statement :: (← statementsWithin? fuel (← nextLine? s))

/-- The statements of a document; `none` if it is none. A byte order mark may stand first. -/
def statements? (text : String) : Option (List Statement) :=
  let s := match text.toList with
    | '\uFEFF' :: s => s
    | s => s
  statementsWithin? s.length s

end IslBindings.Toml
