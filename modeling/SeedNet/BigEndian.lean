import Mathlib.Algebra.Ring.Nat
import Mathlib.Data.List.Basic
import Mathlib.Data.List.Induction

/-! # Numbers in big-endian order

`encode k n` are the last `k` base-256 digits of `n` as bytes, and `decode` is the number that bytes stand for.  Each
undoes the other, up to `256 ^ k`. -/

namespace BigEndian

/-- The number that bytes stand for. -/
def decode (bytes : List UInt8) : ℕ := bytes.foldl (fun (n : ℕ) (b : UInt8) => 256 * n + b.toNat) 0

/-- The last `k` digits, the most significant one first. -/
def encode : ℕ → ℕ → List UInt8
  | 0, _ => []
  | k + 1, n => encode k (n / 256) ++ [n.toUInt8]

@[simp] theorem decode_append_singleton (bytes : List UInt8) (b : UInt8) :
    decode (bytes ++ [b]) = 256 * decode bytes + b.toNat := List.foldl_append

theorem decode_encode {k n : ℕ} (h : n < 256 ^ k) : decode (encode k n) = n := by
  induction k generalizing n with
  | zero => exact (Nat.lt_one_iff.mp h).symm
  | succ k ih =>
      have hlt : n / 256 < 256 ^ k := Nat.div_lt_of_lt_mul (by rwa [← Nat.pow_succ'])
      rw [encode, decode_append_singleton, ih hlt, Nat.toUInt8_eq, UInt8.toNat_ofNat', Nat.div_add_mod]

theorem encode_decode (bytes : List UInt8) : encode bytes.length (decode bytes) = bytes := by
  induction bytes using List.reverseRecOn with
  | nil => rfl
  | append_singleton bytes b ih =>
      have hb : b.toNat < 256 := b.toNat_lt
      have hdigit : (256 * decode bytes + b.toNat).toUInt8 = b := by
        rw [Nat.toUInt8_eq, ← UInt8.toNat_inj, UInt8.toNat_ofNat', Nat.mul_add_mod, Nat.mod_eq_of_lt hb]
      have hrest : (256 * decode bytes + b.toNat) / 256 = decode bytes := by omega
      rw [List.length_append, List.length_singleton, encode, decode_append_singleton, hdigit, hrest, ih]

theorem decode_lt (bytes : List UInt8) : decode bytes < 256 ^ bytes.length := by
  induction bytes using List.reverseRecOn with
  | nil => exact Nat.one_pos
  | append_singleton bytes b ih =>
      have hb : b.toNat < 256 := b.toNat_lt
      rw [decode_append_singleton, List.length_append, List.length_singleton, Nat.pow_succ]
      omega

/-- Bytes of one length are equal if they stand for the same number. -/
theorem eq_of_decode_eq {a b : List UInt8} (hlen : a.length = b.length) (h : decode a = decode b) : a = b := by
  rw [← encode_decode a, ← encode_decode b, hlen, h]

end BigEndian
