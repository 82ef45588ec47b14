import IslBindings.Text.Blank

/-!
# Texts as bytes

The UTF-8 bytes of a text, and its cuts at byte offsets. The main statements: a text is cut at an
offset exactly if a character starts there or the text ends there, and a byte below 128 is a
whole character, so that the text is cut on both sides of it.
-/

namespace IslBindings.Text

variable {s t a m : List Char} {c : Char} {b : UInt8} {i j : Nat}

/-! ### Bytes -/

def bytes (s : List Char) : List UInt8 := s.flatMap String.utf8EncodeChar

def isAscii (c : Char) : Bool := c.toNat < 128

theorem bytes_nil : bytes [] = [] := rfl

theorem bytes_cons (c : Char) (s : List Char) :
    bytes (c :: s) = String.utf8EncodeChar c ++ bytes s :=
  List.flatMap_cons

theorem bytes_append (s t : List Char) : bytes (s ++ t) = bytes s ++ bytes t :=
  List.flatMap_append

theorem length_bytes_cons (c : Char) (s : List Char) :
    (bytes (c :: s)).length = c.utf8Size + (bytes s).length := by
  rw [bytes_cons, List.length_append, String.length_utf8EncodeChar]

theorem utf8EncodeChar_of_isAscii (h : isAscii c = true) :
    String.utf8EncodeChar c = [c.toUInt8] := by
  rw [isAscii, decide_eq_true_iff] at h
  refine String.utf8EncodeChar_eq_singleton (Char.utf8Size_eq_one_iff.mpr ?_)
  exact UInt32.le_iff_toNat_le.mpr (Nat.le_of_lt_succ h)

theorem bytes_cons_of_isAscii (h : isAscii c = true) (s : List Char) :
    bytes (c :: s) = c.toUInt8 :: bytes s := by
  rw [bytes_cons, utf8EncodeChar_of_isAscii h, List.singleton_append]

theorem toNat_ofUInt8 (b : UInt8) : (Char.ofUInt8 b).toNat = b.toNat := UInt8.toNat_toUInt32 b

theorem ofUInt8_toUInt8 (h : isAscii c = true) : Char.ofUInt8 c.toUInt8 = c := by
  rw [isAscii, decide_eq_true_iff] at h
  rw [← Char.toNat_inj, toNat_ofUInt8]
  exact Nat.mod_eq_of_lt (Nat.lt_trans h (by decide))

/-- No byte of a longer character is a character by itself. -/
theorem isAscii_of_mem_utf8EncodeChar (h : isAscii c = false) (hb : b ∈ String.utf8EncodeChar c) :
    isAscii (Char.ofUInt8 b) = false := by
  rw [isAscii, decide_eq_false_iff_not] at h
  have hbyte : ∀ n : Nat, 128 ≤ n → n < 256 → isAscii (Char.ofUInt8 (UInt8.ofNat n)) = false := by
    intro n hle hlt
    rw [isAscii, decide_eq_false_iff_not, toNat_ofUInt8, UInt8.toNat_ofNat_of_lt' hlt]
    omega
  have hlarge : ¬c.val.toNat ≤ 127 := fun hle => h (Nat.lt_succ_of_le hle)
  simp only [String.utf8EncodeChar, hlarge, if_false] at hb
  split at hb
  · simp only [List.mem_cons, List.not_mem_nil, or_false] at hb
    rcases hb with rfl | rfl
    all_goals exact hbyte _ (by omega) (by omega)
  · split at hb
    · simp only [List.mem_cons, List.not_mem_nil, or_false] at hb
      rcases hb with rfl | rfl | rfl
      all_goals exact hbyte _ (by omega) (by omega)
    · simp only [List.mem_cons, List.not_mem_nil, or_false] at hb
      rcases hb with rfl | rfl | rfl | rfl
      all_goals exact hbyte _ (by omega) (by omega)

/-- A byte that is a character by itself stands where that character does. -/
theorem exists_append_of_getElem?_bytes (h : (bytes s)[i]? = some b)
    (hb : isAscii (Char.ofUInt8 b) = true) :
    ∃ a t, s = a ++ Char.ofUInt8 b :: t ∧ (bytes a).length = i := by
  induction s generalizing i with
  | nil => simp [bytes_nil] at h
  | cons c s ih =>
    rw [bytes_cons] at h
    by_cases hi : i < (String.utf8EncodeChar c).length
    · rw [List.getElem?_append_left hi] at h
      have hmem := List.mem_of_getElem? h
      cases hc : isAscii c with
      | false => simp [isAscii_of_mem_utf8EncodeChar hc hmem] at hb
      | true =>
        rw [utf8EncodeChar_of_isAscii hc] at hi hmem
        rw [List.mem_singleton.mp hmem, ofUInt8_toUInt8 hc]
        exact ⟨[], s, rfl, (Nat.lt_one_iff.mp hi).symm⟩
    · rw [List.getElem?_append_right (Nat.le_of_not_lt hi)] at h
      obtain ⟨a, t, rfl, ha⟩ := ih h
      refine ⟨c :: a, t, rfl, ?_⟩
      rw [bytes_cons, List.length_append, ha]
      omega

/-! ### Cuts at byte offsets -/

/-- What stands before an offset and what starts at it; none inside a character. -/
def cutAtByte? : Nat → List Char → Option (List Char × List Char)
  | 0, s => some ([], s)
  | _ + 1, [] => none
  | n + 1, c :: rest =>
    if c.utf8Size ≤ n + 1 then
      (cutAtByte? (n + 1 - c.utf8Size) rest).map fun (before, after) => (c :: before, after)
    else none

theorem cutAtByte?_append (a t : List Char) :
    cutAtByte? (bytes a).length (a ++ t) = some (a, t) := by
  induction a with
  | nil => simp [bytes_nil, cutAtByte?]
  | cons c a ih =>
    obtain ⟨n, hn⟩ := Nat.exists_eq_succ_of_ne_zero (Nat.ne_of_gt (Char.utf8Size_pos c))
    have hlength : (bytes (c :: a)).length = n + (bytes a).length + 1 := by
      rw [length_bytes_cons, hn]
      omega
    rw [hlength, List.cons_append, cutAtByte?, if_pos (by omega),
      show n + (bytes a).length + 1 - c.utf8Size = (bytes a).length by omega, ih]
    rfl

theorem of_cutAtByte? (h : cutAtByte? i s = some (a, t)) : s = a ++ t ∧ (bytes a).length = i := by
  induction s generalizing i a with
  | nil =>
    cases i with
    | zero =>
      cases h
      exact ⟨rfl, rfl⟩
    | succ n => cases h
  | cons c s ih =>
    cases i with
    | zero =>
      cases h
      exact ⟨rfl, rfl⟩
    | succ n =>
      simp only [cutAtByte?] at h
      split at h
      · next hle =>
        obtain ⟨⟨x, y⟩, hcut, heq⟩ := Option.map_eq_some_iff.mp h
        cases heq
        obtain ⟨rfl, hx⟩ := ih hcut
        exact ⟨rfl, by rw [length_bytes_cons, hx]; omega⟩
      · cases h

theorem cutAtByte?_eq_some_iff :
    cutAtByte? i s = some (a, t) ↔ s = a ++ t ∧ (bytes a).length = i := by
  refine ⟨of_cutAtByte?, ?_⟩
  rintro ⟨rfl, rfl⟩
  exact cutAtByte?_append a t

theorem append_inj_of_bytes {a b s t : List Char} (h : a ++ s = b ++ t)
    (hlength : (bytes a).length = (bytes b).length) : a = b ∧ s = t := by
  have hcut := cutAtByte?_append a s
  rw [h, hlength, cutAtByte?_append, Option.some.injEq, Prod.mk.injEq] at hcut
  exact ⟨hcut.1.symm, hcut.2.symm⟩

/-- The text between two byte offsets. -/
def slice? (s : List Char) (start stop : Nat) : Option (List Char) :=
  if start ≤ stop then
    (cutAtByte? start s).bind fun (_, rest) =>
      (cutAtByte? (stop - start) rest).map fun (inside, _) => inside
  else none

theorem slice?_eq_some_iff :
    slice? s i j = some m ↔
      ∃ a t, s = a ++ (m ++ t) ∧ (bytes a).length = i ∧ (bytes (a ++ m)).length = j := by
  simp only [slice?]
  split
  · next hle =>
    simp only [Option.bind_eq_some_iff, Option.map_eq_some_iff, Prod.exists, cutAtByte?_eq_some_iff,
      bytes_append, List.length_append]
    constructor
    · rintro ⟨a, rest, ⟨rfl, ha⟩, inside, t, ⟨rfl, hinside⟩, rfl⟩
      exact ⟨a, t, rfl, ha, by omega⟩
    · rintro ⟨a, t, rfl, ha, hm⟩
      exact ⟨a, m ++ t, ⟨rfl, ha⟩, m, t, ⟨rfl, by omega⟩, rfl⟩
  · next hlt =>
    simp only [reduceCtorEq, false_iff, bytes_append, List.length_append]
    rintro ⟨a, t, -, ha, hm⟩
    omega

/-! ### Blanks -/

def isBlankByte (b : UInt8) : Bool := isAsciiBlank (Char.ofUInt8 b)

theorem isAscii_of_isAsciiBlank (h : isAsciiBlank c = true) : isAscii c = true := by
  simp only [isAsciiBlank, Bool.or_eq_true, beq_iff_eq] at h
  rcases h with (((rfl | rfl) | rfl) | rfl) | rfl <;> rfl

theorem isAsciiBlank_eq_false (h : isAscii c = false) : isAsciiBlank c = false :=
  Bool.eq_false_iff.mpr fun hblank => by simp [isAscii_of_isAsciiBlank hblank] at h

theorem takeWhile_bytes (s : List Char) :
    (bytes s).takeWhile isBlankByte = bytes (s.takeWhile isAsciiBlank) := by
  induction s with
  | nil => rfl
  | cons c s ih =>
    cases hc : isAscii c with
    | true =>
      rw [bytes_cons_of_isAscii hc, List.takeWhile_cons, List.takeWhile_cons, isBlankByte,
        ofUInt8_toUInt8 hc]
      split
      · rw [ih, bytes_cons_of_isAscii hc]
      · rfl
    | false =>
      -- The first byte of a longer character already ends the blanks.
      obtain ⟨b, bs, hbs⟩ := List.exists_cons_of_ne_nil (String.utf8EncodeChar_ne_nil (c := c))
      have hmem : b ∈ String.utf8EncodeChar c := hbs ▸ List.mem_cons_self ..
      have hb : isBlankByte b = false :=
        isAsciiBlank_eq_false (isAscii_of_mem_utf8EncodeChar hc hmem)
      rw [bytes_cons, hbs, List.cons_append, List.takeWhile_cons, List.takeWhile_cons, hb,
        isAsciiBlank_eq_false hc]
      rfl

end IslBindings.Text
