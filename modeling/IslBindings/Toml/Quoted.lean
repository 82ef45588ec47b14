import IslBindings.Text.Blank

/-!
# Quoted text in TOML

Basic strings have escapes, literal strings have none; either may stand between three
quotes and then runs over lines. The main statement: a cut at the closing quote loses
only that quote.
-/

namespace IslBindings.Toml

open Text

/-- A control character other than the tab, which no line may hold. -/
def isForbidden (c : Char) : Bool := (c.toNat < 0x20 && c != '\t') || c.toNat == 0x7F

/-- The character is part of a line. -/
def isInLine (c : Char) : Bool := c != '\n' && c != '\r'

/-- The text after the line end that it may start with. -/
def skipLineEnd : List Char → List Char
  | '\n' :: rest => rest
  | '\r' :: '\n' :: rest => rest
  | s => s

/-! ### Escapes -/

def hexValue? (c : Char) : Option Nat :=
  if '0' ≤ c ∧ c ≤ '9' then some (c.toNat - 48)
  else if 'a' ≤ c ∧ c ≤ 'f' then some (c.toNat - 87)
  else if 'A' ≤ c ∧ c ≤ 'F' then some (c.toNat - 55)
  else none

def ofHex? (digits : List Char) : Option Char := do
  let values ← digits.mapM hexValue?
  let code := values.foldl (fun n d => 16 * n + d) 0
  if code.isValidChar then some (Char.ofNat code) else none

/-- The number of digits after the letter of an escape by code point. -/
def codeLength? (c : Char) : Option Nat :=
  if c = 'x' then some 2
  else if c = 'u' then some 4
  else if c = 'U' then some 8
  else none

def named? (c : Char) : Option Char :=
  if c = 'b' then some '\x08'
  else if c = 't' then some '\t'
  else if c = 'n' then some '\n'
  else if c = 'f' then some '\x0c'
  else if c = 'r' then some '\r'
  else if c = 'e' then some '\x1b'
  else if c = '"' ∨ c = '\\' then some c
  else none

/-- The character is text as it stands; lines may end in text that runs over lines. -/
def isPlain (overLines : Bool) (c : Char) (rest : List Char) : Bool :=
  !isForbidden c ||
    (overLines && (c == '\n' || (c == '\r' && rest.head? == some '\n')))

/-- The text after blanks and line ends. -/
def skipBlankLines : List Char → List Char
  | [] => []
  | c :: rest =>
    if isSpaceOrTab c || c == '\n' || (c == '\r' && rest.head? == some '\n') then
      skipBlankLines rest
    else c :: rest

theorem length_skipBlankLines_le (s : List Char) : (skipBlankLines s).length ≤ s.length := by
  induction s with
  | nil => exact Nat.le_refl _
  | cons c rest ih =>
    rw [skipBlankLines]
    split
    · exact Nat.le_succ_of_le ih
    · exact Nat.le_refl _

/-- What follows a backslash at the end of a line, without the blanks before the next text;
`none` if the line does not end. -/
def afterLineEnd? (s : List Char) : Option (List Char) :=
  let rest := s.dropWhile isSpaceOrTab
  if (skipLineEnd rest).length < rest.length then some (skipBlankLines rest) else none

theorem length_le_of_afterLineEnd? {s rest : List Char} (h : afterLineEnd? s = some rest) :
    rest.length ≤ s.length := by
  simp only [afterLineEnd?] at h
  split at h
  · simp only [Option.some.injEq] at h
    rw [← h]
    exact Nat.le_trans (length_skipBlankLines_le _) (List.dropWhile_suffix _).length_le
  · exact absurd h (by simp)

/-- The text that the inside of a basic string stands for. -/
def unescape? (overLines : Bool) : List Char → Option (List Char)
  | [] => some []
  | c :: rest =>
    if c = '\\' then
      match rest with
      | [] => none
      | kind :: after =>
        match codeLength? kind with
        | some n =>
          if after.length < n then none
          else match ofHex? (after.take n) with
            | some c => (unescape? overLines (after.drop n)).map (c :: ·)
            | none => none
        | none =>
          match named? kind with
          | some c => (unescape? overLines after).map (c :: ·)
          | none =>
            match ha : afterLineEnd? (kind :: after) with
            | some next =>
              have := length_le_of_afterLineEnd? ha
              if overLines then unescape? overLines next else none
            | none => none
    else if isPlain overLines c rest then (unescape? overLines rest).map (c :: ·)
    else none
termination_by s => s.length
decreasing_by
  all_goals subst_vars
  · simp only [List.length_cons, List.length_drop]
    omega
  · simp only [List.length_cons]
    omega
  · simp only [List.length_cons] at this ⊢
    omega
  · exact Nat.lt_succ_self _

/-- The text of a literal string, as it stands. -/
def verbatim? (overLines : Bool) : List Char → Option (List Char)
  | [] => some []
  | c :: rest =>
    if isPlain overLines c rest then (verbatim? overLines rest).map (c :: ·) else none

/-! ### Quotes -/

/-- What stands before the closing quote, and what follows it. The flag says that a backslash
stands before the text. -/
def cutQuote? (quote : Char) (escapes : Bool) : Bool → List Char → Option (List Char × List Char)
  | _, [] => none
  | true, c :: rest => (cutQuote? quote escapes false rest).map fun (inner, s) => (c :: inner, s)
  | false, c :: rest =>
    if c = quote then some ([], rest)
    else (cutQuote? quote escapes (escapes && c == '\\') rest).map fun (inner, s) =>
      (c :: inner, s)

theorem eq_append_of_cutQuote? {quote : Char} {escapes escaped : Bool} {s inner after : List Char}
    (h : cutQuote? quote escapes escaped s = some (inner, after)) :
    s = inner ++ quote :: after := by
  induction s generalizing escaped inner after with
  | nil => simp [cutQuote?] at h
  | cons c rest ih =>
    have step : ∀ flag, ((cutQuote? quote escapes flag rest).map fun (i, r) => (c :: i, r)) =
        some (inner, after) → c :: rest = inner ++ quote :: after := by
      intro flag hd
      rcases hr : cutQuote? quote escapes flag rest with - | ⟨i, r⟩
      · simp [hr] at hd
      · simp only [hr, Option.map_some, Option.some.injEq, Prod.mk.injEq] at hd
        rw [← hd.1, ← hd.2, List.cons_append, ← ih hr]
    cases escaped with
    | true =>
      rw [cutQuote?] at h
      exact step false h
    | false =>
      rw [cutQuote?] at h
      split at h
      · next hc =>
        simp only [Option.some.injEq, Prod.mk.injEq] at h
        rw [← h.1, ← h.2, hc, List.nil_append]
      · exact step _ h

/-- The same for three quotes; one or two more quotes belong to the text. -/
def cutQuotes? (quote : Char) (escapes : Bool) :
    Bool → List Char → Option (List Char × List Char)
  | _, [] => none
  | true, c :: rest => (cutQuotes? quote escapes false rest).map fun (inner, s) => (c :: inner, s)
  | false, c :: rest =>
    if c = quote ∧ rest.take 2 = [quote, quote] then
      let extra := ((rest.drop 2).take 2).takeWhile (· == quote)
      some (extra, (rest.drop 2).drop extra.length)
    else (cutQuotes? quote escapes (escapes && c == '\\') rest).map fun (inner, s) =>
      (c :: inner, s)

/-- A string on one line, and what follows it. -/
def lineString? : List Char → Option (String × List Char)
  | '"' :: s => do
    let (inner, rest) ← cutQuote? '"' true false s
    return (String.ofList (← unescape? false inner), rest)
  | '\'' :: s => do
    let (inner, rest) ← cutQuote? '\'' false false s
    return (String.ofList (← verbatim? false inner), rest)
  | _ => none

/-- A string, and what follows it. A line end directly after three quotes is no text. -/
def string? : List Char → Option (String × List Char)
  | '"' :: '"' :: '"' :: s => do
    let (inner, rest) ← cutQuotes? '"' true false (skipLineEnd s)
    return (String.ofList (← unescape? true inner), rest)
  | '\'' :: '\'' :: '\'' :: s => do
    let (inner, rest) ← cutQuotes? '\'' false false (skipLineEnd s)
    return (String.ofList (← verbatim? true inner), rest)
  | s => lineString? s

end IslBindings.Toml
