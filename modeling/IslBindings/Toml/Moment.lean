import IslBindings.Text.Alphanumeric

/-!
# Dates and times in TOML

A date, a time of the day, or both with or without the distance from the standard time.
A minute may have a leap second, and a time may leave out its seconds. The main
statement: no month is longer than thirty-one days.
-/

namespace IslBindings.Toml

open Text

/-! ### Fields -/

/-- The number in the digits at the start of a text, of which there are to be `width`, and what
follows them. -/
def field? (width : Nat) (s : List Char) : Option (Nat × List Char) :=
  let digits := s.takeWhile isAsciiDigit
  if digits.length = width then
    some (digits.foldl (fun n c => 10 * n + (c.toNat - 48)) 0, s.dropWhile isAsciiDigit)
  else none

def fieldUpTo? (limit : Nat) (s : List Char) : Option (Nat × List Char) :=
  (field? 2 s).filter fun (n, _) => n ≤ limit

def after? (c : Char) : List Char → Option (List Char)
  | [] => none
  | d :: rest => if d = c then some rest else none

/-! ### Dates -/

def isLeapYear (year : Nat) : Bool :=
  year % 4 == 0 && (year % 100 != 0 || year % 400 == 0)

def daysOfMonth (year month : Nat) : Nat :=
  if month = 2 then if isLeapYear year then 29 else 28
  else if [4, 6, 9, 11].contains month then 30
  else 31

theorem daysOfMonth_le (year month : Nat) : daysOfMonth year month ≤ 31 := by
  rw [daysOfMonth]
  repeat' split
  all_goals decide

def afterDate? (s : List Char) : Option (List Char) := do
  let (year, s) ← field? 4 s
  let (month, s) ← fieldUpTo? 12 (← after? '-' s)
  let (day, s) ← fieldUpTo? (daysOfMonth year month) (← after? '-' s)
  if month = 0 ∨ day = 0 then none else some s

/-! ### Times -/

/-- The text after the digits behind the point of a second. -/
def afterDecimals? : List Char → Option (List Char)
  | '.' :: s => if s.head?.any isAsciiDigit then some (s.dropWhile isAsciiDigit) else none
  | s => some s

def afterTime? (s : List Char) : Option (List Char) := do
  let (_, s) ← fieldUpTo? 23 s
  let (_, s) ← fieldUpTo? 59 (← after? ':' s)
  match s with
  | ':' :: s =>
    let (_, s) ← fieldUpTo? 60 s
    afterDecimals? s
  | s => return s

/-- The text is a distance from the standard time, or nothing. -/
def isOffset : List Char → Bool
  | [] => true
  | c :: s =>
    if c = 'Z' ∨ c = 'z' then s.isEmpty
    else (c == '+' || c == '-') &&
      (do let (_, s) ← fieldUpTo? 23 s
          let (_, s) ← fieldUpTo? 59 (← after? ':' s)
          return s) == some []

/-! ### Moments -/

/-- The text is a date, a time, or a date and a time with a `T` or a space between them. -/
def isMoment (s : List Char) : Bool :=
  match afterDate? s with
  | none => afterTime? s == some []
  | some [] => true
  | some (c :: s) => (c == 'T' || c == 't' || c == ' ') && (afterTime? s).any isOffset

end IslBindings.Toml
