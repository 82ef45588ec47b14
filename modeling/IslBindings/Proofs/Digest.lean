import IslBindings.Digest

/-!
# Digests as names

A digest is written in 64 hexadecimal digits. Texts with the same bytes are the same.
-/

namespace IslBindings.Digest

/-! ### Bytes -/

theorem toList_loop (bytes : ByteArray) (i : Nat) (before : List UInt8) :
    ByteArray.toList.loop bytes i before = before.reverse ++ bytes.data.toList.drop i := by
  induction i, before using ByteArray.toList.loop.induct bytes with
  | case1 i before hlt ih =>
    have hi : i < bytes.data.toList.length := by simpa using hlt
    have hget : bytes.get! i = bytes.data.toList[i] := by
      rw [Array.getElem_toList]
      exact getElem!_pos bytes.data i (by simpa using hlt)
    rw [ByteArray.toList.loop, if_pos hlt, ih, List.drop_eq_getElem_cons hi, hget, List.reverse_cons,
      List.append_assoc]
    rfl
  | case2 i before hge =>
    have hle : bytes.data.toList.length ≤ i := by simpa using hge
    rw [ByteArray.toList.loop, if_neg hge, List.drop_eq_nil_of_le hle, List.append_nil]

theorem toList_eq (bytes : ByteArray) : bytes.toList = bytes.data.toList := by
  rw [ByteArray.toList, toList_loop]
  rfl

theorem text_eq_of_bytes {s t : String} (h : s.toUTF8.toList = t.toUTF8.toList) : s = t := by
  rw [toList_eq, toList_eq, Array.toList_inj] at h
  exact String.toByteArray_inj.mp (ByteArray.ext h)

/-! ### Digits -/

def hexDigits : List Char := "0123456789abcdef".toList

theorem hexDigit_mem {n : Nat} (h : n < 16) : hexDigit n ∈ hexDigits := by
  have hall : ∀ i < 16, hexDigit i ∈ hexDigits := by decide
  exact hall n h

theorem length_hexWord (w : UInt32) : (hexWord w).length = 8 := rfl

theorem mem_hexWord {w : UInt32} {c : Char} (h : c ∈ hexWord w) : c ∈ hexDigits := by
  obtain ⟨b, -, hc⟩ := List.mem_flatMap.mp h
  have hb : b.toNat < 256 := b.toNat_lt
  simp only [List.mem_cons, List.not_mem_nil, or_false] at hc
  rcases hc with rfl | rfl
  · exact hexDigit_mem (by omega)
  · exact hexDigit_mem (by omega)

theorem mem_sha256 {message : List UInt8} {c : Char} (h : c ∈ (sha256 message).toList) :
    c ∈ hexDigits := by
  rw [sha256, String.toList_ofList] at h
  obtain ⟨w, -, hw⟩ := List.mem_flatMap.mp h
  exact mem_hexWord hw

theorem length_sha256 (message : List UInt8) : (sha256 message).toList.length = 64 := by
  rw [sha256, String.toList_ofList, List.length_flatMap]
  simp [length_hexWord, State.toList]

end IslBindings.Digest
