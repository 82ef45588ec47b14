/-!
# Digests

SHA-256 of a byte sequence, by which cached headers are found again. The main
statements: the padded message starts with the message and fills whole blocks.
-/

namespace IslBindings.Digest

/-! ### Constants -/

/-- The first 32 bits of the fractional parts of the square roots of the first eight primes. -/
def initialWords : List UInt32 := [
  0x6a09e667, 0xbb67ae85, 0x3c6ef372, 0xa54ff53a, 0x510e527f, 0x9b05688c, 0x1f83d9ab, 0x5be0cd19]

/-- The first 32 bits of the fractional parts of the cube roots of the first 64 primes. -/
def roundWords : List UInt32 := [
  0x428a2f98, 0x71374491, 0xb5c0fbcf, 0xe9b5dba5, 0x3956c25b, 0x59f111f1, 0x923f82a4, 0xab1c5ed5,
  0xd807aa98, 0x12835b01, 0x243185be, 0x550c7dc3, 0x72be5d74, 0x80deb1fe, 0x9bdc06a7, 0xc19bf174,
  0xe49b69c1, 0xefbe4786, 0x0fc19dc6, 0x240ca1cc, 0x2de92c6f, 0x4a7484aa, 0x5cb0a9dc, 0x76f988da,
  0x983e5152, 0xa831c66d, 0xb00327c8, 0xbf597fc7, 0xc6e00bf3, 0xd5a79147, 0x06ca6351, 0x14292967,
  0x27b70a85, 0x2e1b2138, 0x4d2c6dfc, 0x53380d13, 0x650a7354, 0x766a0abb, 0x81c2c92e, 0x92722c85,
  0xa2bfe8a1, 0xa81a664b, 0xc24b8b70, 0xc76c51a3, 0xd192e819, 0xd6990624, 0xf40e3585, 0x106aa070,
  0x19a4c116, 0x1e376c08, 0x2748774c, 0x34b0bcb5, 0x391c0cb3, 0x4ed8aa4a, 0x5b9cca4f, 0x682e6ff3,
  0x748f82ee, 0x78a5636f, 0x84c87814, 0x8cc70208, 0x90befffa, 0xa4506ceb, 0xbef9a3f7, 0xc67178f2]

/-! ### Padding -/

/-- The `count` low bytes of a number, the highest first. -/
def bigEndian : Nat → Nat → List UInt8
  | 0, _ => []
  | count + 1, n => UInt8.ofNat (n >>> (8 * count)) :: bigEndian count n

/-- What follows a message: a set bit, zeros, and the number of bits in eight bytes. -/
def padding (size : Nat) : List UInt8 :=
  0x80 :: List.replicate ((119 - size % 64) % 64) 0 ++ bigEndian 8 (8 * size)

def pad (message : List UInt8) : List UInt8 := message ++ padding message.length

theorem length_bigEndian (count n : Nat) : (bigEndian count n).length = count := by
  induction count with
  | zero => rfl
  | succ count ih => rw [bigEndian, List.length_cons, ih]

theorem isPrefix_pad (message : List UInt8) : message <+: pad message := List.prefix_append ..

theorem length_pad_mod (message : List UInt8) : (pad message).length % 64 = 0 := by
  simp only [pad, padding, List.length_append, List.length_cons, List.length_replicate,
    length_bigEndian]
  omega

/-! ### Compression -/

/-- The words of four bytes each; bytes that fill no word are dropped. -/
def wordsOf : List UInt8 → List UInt32
  | a :: b :: c :: d :: rest =>
    (a.toUInt32 <<< 24 ||| b.toUInt32 <<< 16 ||| c.toUInt32 <<< 8 ||| d.toUInt32) :: wordsOf rest
  | _ => []

def rotate (x count : UInt32) : UInt32 := x >>> count ||| x <<< (32 - count)

structure State where
  a : UInt32
  b : UInt32
  c : UInt32
  d : UInt32
  e : UInt32
  f : UInt32
  g : UInt32
  h : UInt32
  deriving DecidableEq, Repr

namespace State

def toList (s : State) : List UInt32 := [s.a, s.b, s.c, s.d, s.e, s.f, s.g, s.h]

def ofList (ws : List UInt32) : State where
  a := ws.getD 0 0
  b := ws.getD 1 0
  c := ws.getD 2 0
  d := ws.getD 3 0
  e := ws.getD 4 0
  f := ws.getD 5 0
  g := ws.getD 6 0
  h := ws.getD 7 0

def add (s t : State) : State := ofList (List.zipWith (· + ·) s.toList t.toList)

def round (s : State) (word : UInt32) : State :=
  let choice := (s.e &&& s.f) ^^^ (~~~s.e &&& s.g)
  let majority := (s.a &&& s.b) ^^^ (s.a &&& s.c) ^^^ (s.b &&& s.c)
  let t := s.h + (rotate s.e 6 ^^^ rotate s.e 11 ^^^ rotate s.e 25) + choice + word
  let u := (rotate s.a 2 ^^^ rotate s.a 13 ^^^ rotate s.a 22) + majority
  { a := t + u, b := s.a, c := s.b, d := s.c, e := s.d + t, f := s.e, g := s.f, h := s.g }

end State

/-- The word of the schedule after sixteen others. -/
def nextWord (ws : List UInt32) : UInt32 :=
  let x := ws.getD 1 0
  let y := ws.getD 14 0
  ws.getD 0 0 + (rotate x 7 ^^^ rotate x 18 ^^^ x >>> 3) + ws.getD 9 0 +
    (rotate y 17 ^^^ rotate y 19 ^^^ y >>> 10)

/-- The rounds of some constants; the next sixteen words of the schedule move along. -/
def rounds : List UInt32 → State → List UInt32 → State
  | [], s, _ => s
  | k :: ks, s, ws => rounds ks (s.round (k + ws.getD 0 0)) (ws.drop 1 ++ [nextWord ws])

/-- The chaining value after a block of sixteen words. -/
def compress (s : State) (block : List UInt32) : State := s.add (rounds roundWords s block)

def absorb (s : State) : List UInt32 → State
  | [] => s
  | w :: ws => absorb (compress s ((w :: ws).take 16)) (ws.drop 15)
termination_by ws => ws.length
decreasing_by exact Nat.lt_succ_of_le (List.drop_suffix 15 ws).length_le

/-! ### Digests -/

def hexDigit (n : Nat) : Char := Char.ofNat (if n < 10 then 48 + n else 87 + n)

def hexWord (w : UInt32) : List Char :=
  (bigEndian 4 w.toNat).flatMap fun b => [hexDigit (b.toNat / 16), hexDigit (b.toNat % 16)]

/-- SHA-256 in hexadecimal digits. -/
def sha256 (message : List UInt8) : String :=
  String.ofList ((absorb (.ofList initialWords) (wordsOf (pad message))).toList.flatMap hexWord)

end IslBindings.Digest
