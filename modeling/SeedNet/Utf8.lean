import Mathlib.Data.List.Basic

/-! # The UTF-8 bytes of a text

An ASCII character is its own byte, and every byte of another character has its high bit set
(`encode_ascii`, `le_of_mem_encode`).  So a property that only ASCII bytes have can be read off the characters or
off the bytes (`forall_bytes_iff`). -/

namespace Utf8

/-- `str::as_bytes`, for the characters of the string. -/
def bytes (t : List Char) : List UInt8 := t.flatMap String.utf8EncodeChar

theorem data_toByteArray (s : String) : s.toByteArray.data.toList = bytes s.toList := by
  rw [← String.utf8Encode_toList, List.utf8Encode, List.data_toByteArray, bytes]

theorem length_bytes (s : String) : (bytes s.toList).length = s.utf8ByteSize := by
  rw [← data_toByteArray, Array.length_toList]
  rfl

variable {c : Char} {t : List Char}

theorem encode_ascii (h : c.toNat < 128) : String.utf8EncodeChar c = [c.toNat.toUInt8] := by
  have hle : c.val.toNat ≤ 127 := Nat.lt_succ_iff.mp h
  rw [String.utf8EncodeChar, if_pos hle]
  rfl

theorem le_of_mem_encode (h : 128 ≤ c.toNat) {b : UInt8} (hb : b ∈ String.utf8EncodeChar c) : 128 ≤ b.toNat := by
  have hgt : ¬ c.val.toNat ≤ 127 := Nat.not_le.mpr h
  rw [String.utf8EncodeChar, if_neg hgt] at hb
  split_ifs at hb <;> simp only [List.mem_cons, List.not_mem_nil, or_false] at hb
  · rcases hb with rfl | rfl <;> rw [UInt8.toNat_ofNat'] <;> omega
  · rcases hb with rfl | rfl | rfl <;> rw [UInt8.toNat_ofNat'] <;> omega
  · rcases hb with rfl | rfl | rfl | rfl <;> rw [UInt8.toNat_ofNat'] <;> omega

theorem bytes_ascii (h : ∀ c ∈ t, c.toNat < 128) : bytes t = t.map fun c => c.toNat.toUInt8 := by
  induction t with
  | nil => rfl
  | cons c t ih =>
      rw [bytes, List.flatMap_cons, encode_ascii (h c List.mem_cons_self), List.map_cons, List.singleton_append]
      exact congrArg _ (ih fun d hd => h d (List.mem_cons_of_mem c hd))

/-- The characters of which a property of ASCII bytes holds. -/
theorem forall_bytes_iff {p : UInt8 → Prop} (hp : ∀ b, p b → b.toNat < 128) :
    (∀ b ∈ bytes t, p b) ↔ ∀ c ∈ t, c.toNat < 128 ∧ p c.toNat.toUInt8 := by
  constructor
  · intro h c hc
    have hsub : ∀ b ∈ String.utf8EncodeChar c, p b := fun b hb => h b (List.mem_flatMap.mpr ⟨c, hc, hb⟩)
    by_cases hlt : c.toNat < 128
    · rw [encode_ascii hlt] at hsub
      exact ⟨hlt, hsub _ List.mem_cons_self⟩
    · -- every character has a byte
      obtain ⟨b, hb⟩ := List.exists_mem_of_length_pos (l := String.utf8EncodeChar c) (by
        rw [String.length_utf8EncodeChar]
        exact c.utf8Size_pos)
      have hhigh := le_of_mem_encode (Nat.not_lt.mp hlt) hb
      exact absurd (hp b (hsub b hb)) (Nat.not_lt.mpr hhigh)
  · intro h b hb
    rw [bytes_ascii fun c hc => (h c hc).1] at hb
    obtain ⟨c, hc, rfl⟩ := List.mem_map.mp hb
    exact (h c hc).2

end Utf8
