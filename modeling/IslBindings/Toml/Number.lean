import IslBindings.Text.Alphanumeric
import IslBindings.Toml.Quoted

/-!
# Numbers in TOML

Decimal integers with a sign, hexadecimal, octal and binary ones without, and floats.
Underscores may divide the digits into groups. The main statement: a text without
underscores is one group.

An integer need not have a value. The letter of a radix may stand without digits, and a
decimal integer may go on with almost anything behind an underscore.
-/

namespace IslBindings.Toml

open Text

inductive Number where
  /-- With the value, if there is one. -/
  | integer (value : Option Int)
  | float
  deriving DecidableEq, Repr

/-! ### Digits -/

def isDigitOf (radix : Nat) (c : Char) : Bool := (hexValue? c).any (· < radix)

/-- The number with the digits; `none` without digits. -/
def natural? (radix : Nat) (digits : List Char) : Option Nat :=
  if digits.isEmpty || !digits.all (isDigitOf radix) then none
  else some (digits.foldl (fun n c => radix * n + (hexValue? c).getD 0) 0)

/-- Every underscore has a digit on either side. The flag says that a digit stands before the
text. -/
def isGrouped (isDigit : Char → Bool) : Bool → List Char → Bool
  | _, [] => true
  | before, c :: rest =>
    if c = '_' then before && rest.head?.any isDigit && isGrouped isDigit false rest
    else isGrouped isDigit (isDigit c) rest

theorem isGrouped_of_forall_ne {isDigit : Char → Bool} {before : Bool} {s : List Char}
    (h : ∀ c ∈ s, c ≠ '_') : isGrouped isDigit before s := by
  induction s generalizing before with
  | nil => rfl
  | cons c rest ih =>
    rw [isGrouped, if_neg (h c List.mem_cons_self)]
    exact ih fun d hd => h d (List.mem_cons_of_mem _ hd)

def withoutUnderscores (s : List Char) : List Char := s.filter (· != '_')

/-! ### Integers -/

def radixOf? (letter : Char) : Option Nat :=
  if letter = 'x' then some 16
  else if letter = 'o' then some 8
  else if letter = 'b' then some 2
  else none

/-- An integer, without the zero and the letter of its radix. -/
def radixInteger? (radix : Nat) (s : List Char) : Option Number :=
  let digits := withoutUnderscores s
  if digits.all (isDigitOf radix) && isGrouped (isDigitOf radix) false s then
    some (.integer ((natural? radix digits).map Int.ofNat))
  else none

/-- A decimal integer, without its sign. Only zero starts with a zero. The digits about an
underscore may be hexadecimal, and behind the first one anything but a space may stand. -/
def decimalInteger? (sign : Option Int) (s : List Char) : Option Number :=
  let rest := s.dropWhile isAsciiDigit
  if s ≠ [] ∧ (s.head? = some '0' → s = ['0']) ∧ (rest = [] ∨ rest.head? = some '_') ∧
      ' ' ∉ s ∧ isGrouped (isDigitOf 16) false s then
    some (.integer ((natural? 10 (withoutUnderscores s)).map fun n => sign.getD 1 * Int.ofNat n))
  else none

/-! ### Floats -/

/-- The number of the digits at the start of a text, and what follows them. -/
def countDigits (s : List Char) : Nat × List Char :=
  let isPart := fun c => isAsciiDigit c || c == '_'
  ((s.takeWhile isPart).countP isAsciiDigit, s.dropWhile isPart)

/-- The text after a fraction, which it need not start with. -/
def afterFraction? : List Char → Option (List Char)
  | '.' :: s =>
    let (count, rest) := countDigits s
    if count = 0 then none else some rest
  | s => some s

/-- The text is an exponent, or nothing. -/
def isExponent : List Char → Bool
  | [] => true
  | mark :: s =>
    let (count, rest) := countDigits (match s with
      | '+' :: s => s
      | '-' :: s => s
      | s => s)
    (mark == 'e' || mark == 'E') && count != 0 && rest.isEmpty

/-- The text of a float without its sign. A whole part of several digits starts with no zero. -/
def isFloat (s : List Char) : Bool :=
  let (count, rest) := countDigits s
  count != 0 && (count == 1 || s.head? != some '0') &&
    (afterFraction? rest).any isExponent && isGrouped isAsciiDigit false s

def isFloatMark (c : Char) : Bool := c == '.' || c == 'e' || c == 'E'

/-! ### Numbers -/

/-- The sign of a number as a factor, and what follows it. -/
def splitSign : List Char → Option Int × List Char
  | '+' :: s => (some 1, s)
  | '-' :: s => (some (-1), s)
  | s => (none, s)

def unsigned? (sign : Option Int) (s : List Char) : Option Number :=
  if s = "inf".toList ∨ s = "nan".toList then some .float
  else if s.any isFloatMark then if isFloat s then some .float else none
  else decimalInteger? sign s

def number? (word : List Char) : Option Number :=
  let (sign, s) := splitSign word
  match s with
  | '0' :: letter :: digits =>
    match radixOf? letter with
    | some radix => if sign.isSome then none else radixInteger? radix digits
    | none => unsigned? sign s
  | _ => unsigned? sign s

end IslBindings.Toml
