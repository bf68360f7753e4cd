import Mathlib.Data.Nat.Digits.Defs

/-! # Digits as characters

`number` reads the digits of a number in any radix up to 16, and `number_toDigits` says that it reads back what
`Nat.toDigits` writes. -/

namespace Digits

/-- A hexadecimal digit, in either case. -/
def IsDigit (c : Char) : Prop := '0' ≤ c ∧ c ≤ '9' ∨ 'a' ≤ c ∧ c ≤ 'f' ∨ 'A' ≤ c ∧ c ≤ 'F'

instance (c : Char) : Decidable (IsDigit c) := inferInstanceAs (Decidable (_ ∨ _))

def value (c : Char) : ℕ :=
  if c ≤ '9' then c.toNat - '0'.toNat
  else if c ≤ 'F' then c.toNat - 'A'.toNat + 10
  else c.toNat - 'a'.toNat + 10

/-- The number that digits denote. -/
def number (base : ℕ) (t : List Char) : ℕ := t.foldl (fun n c => n * base + value c) 0

/-- A digit in the radix. -/
def isDigit (radix : ℕ) (c : Char) : Bool := decide (IsDigit c) && decide (value c < radix)

theorem isDigit_digitChar : ∀ v < 16, IsDigit (Nat.digitChar v) := by decide

@[simp] theorem value_digitChar : ∀ v < 16, value (Nat.digitChar v) = v := by decide

theorem toNat_lt_of_isDigit {c : Char} (h : IsDigit c) : c.toNat < 128 := by
  rcases h with ⟨-, h⟩ | ⟨-, h⟩ | ⟨-, h⟩ <;>
  · have hle := UInt32.le_iff_toNat_le.mp (Char.le_def.mp h)
    exact Nat.lt_of_le_of_lt hle (by decide)

/-! ### Numbers -/

variable {radix n : ℕ}

theorem mem_toDigits (hradix : 1 < radix) {c : Char} (hc : c ∈ Nat.toDigits radix n) :
    ∃ v < radix, c = Nat.digitChar v := by
  induction n using Nat.strong_induction_on with
  | _ n ih =>
      rw [Nat.toDigits_eq_if hradix] at hc
      split at hc
      · next hlt => exact ⟨n, hlt, List.mem_singleton.mp hc⟩
      · next hge =>
          rcases List.mem_append.mp hc with hc | hc
          · exact ih (n / radix) (Nat.div_lt_self (by omega) hradix) hc
          · exact ⟨n % radix, Nat.mod_lt n (by omega), List.mem_singleton.mp hc⟩

theorem number_toDigits (hradix : 1 < radix) (hle : radix ≤ 16) (n : ℕ) :
    number radix (Nat.toDigits radix n) = n := by
  induction n using Nat.strong_induction_on with
  | _ n ih =>
      rw [Nat.toDigits_eq_if hradix]
      split
      · next hlt =>
          rw [number, List.foldl_cons, List.foldl_nil, value_digitChar n (by omega), Nat.zero_mul, Nat.zero_add]
      · next hge =>
          have hrest := ih (n / radix) (Nat.div_lt_self (by omega) hradix)
          have hmod : n % radix < radix := Nat.mod_lt n (by omega)
          rw [number] at hrest ⊢
          rw [List.foldl_append, hrest, List.foldl_cons, List.foldl_nil, value_digitChar _ (by omega),
            Nat.mul_comm, Nat.div_add_mod]

theorem isDigit_toDigits (hradix : 1 < radix) (hle : radix ≤ 16) :
    ∀ c ∈ Nat.toDigits radix n, isDigit radix c = true := by
  intro c hc
  obtain ⟨v, hv, rfl⟩ := mem_toDigits hradix hc
  have hdigit : IsDigit (Nat.digitChar v) := isDigit_digitChar v (by omega)
  rw [isDigit, value_digitChar v (by omega), decide_eq_true hdigit, decide_eq_true hv, Bool.and_self]

end Digits
