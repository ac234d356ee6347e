import Mathlib.Data.Nat.Bitwise

/-!
# Disjoint bit fields as sums

Or-ing fields that do not overlap adds them, masking with a power of two reads
one bit, and masking with ones takes a remainder. With these a packed word is a
sum of multiples of powers of two, which linear arithmetic takes apart again.
-/

namespace RaspiOrbSlam.Foundation.BitFields

/-- A field above bit `k` and a field below it. -/
theorem or_eq_add {a b k : Nat} (ha : 2 ^ k ∣ a) (hb : b < 2 ^ k) : a ||| b = a + b := by
  obtain ⟨c, rfl⟩ := ha
  exact (Nat.two_pow_add_eq_or_of_lt hb c).symm

theorem or_shiftLeft_eq_add {a b k : Nat} (ha : a < 2 ^ k) : a ||| b <<< k = a + b * 2 ^ k := by
  rw [Nat.shiftLeft_eq, Nat.or_comm, or_eq_add (Nat.dvd_mul_left _ _) ha, Nat.add_comm]

/-- One more byte of a number, above its lowest `k` bits. -/
theorem mod_or_byte (n k : Nat) :
    n % 2 ^ k ||| (n / 2 ^ k % 2 ^ 8) <<< k = n % 2 ^ (k + 8) := by
  rw [or_shiftLeft_eq_add (Nat.mod_lt _ (Nat.two_pow_pos _)), Nat.pow_add, Nat.mod_mul,
    Nat.mul_comm]

/-- The byte above the lowest `k` bits of a number. -/
theorem shiftRight_and_byte (n k : Nat) : (n >>> k &&& 0xFF) % 2 ^ 8 = n / 2 ^ k % 2 ^ 8 := by
  have hmask : n >>> k &&& 0xFF = n >>> k % 2 ^ 8 := Nat.and_two_pow_sub_one_eq_mod _ 8
  rw [hmask, Nat.mod_mod, Nat.shiftRight_eq_div_pow]

/-- A byte that is put back in its place fits where the number fits. -/
theorem byte_mul_lt (n : Nat) {k m : Nat} (h : k + 8 ≤ m) : n / 2 ^ k % 2 ^ 8 * 2 ^ k < 2 ^ m := by
  calc
    n / 2 ^ k % 2 ^ 8 * 2 ^ k < 2 ^ 8 * 2 ^ k :=
      Nat.mul_lt_mul_of_pos_right (Nat.mod_lt _ (by decide)) (Nat.two_pow_pos _)
    _ = 2 ^ (k + 8) := by rw [← Nat.pow_add, Nat.add_comm]
    _ ≤ 2 ^ m := Nat.pow_le_pow_right (by decide) h

/-- The value of one bit of a number. -/
def bit (n i : Nat) : Nat := n / 2 ^ i % 2

theorem bit_lt (n i : Nat) : bit n i < 2 := Nat.mod_lt _ (by decide)

theorem and_two_pow_ne_zero_iff (n i : Nat) : n &&& 2 ^ i ≠ 0 ↔ bit n i = 1 := by
  rw [Nat.and_two_pow, bit, Nat.testBit_eq_decide_div_mod_eq]
  by_cases h : n / 2 ^ i % 2 = 1 <;> simp [h]

theorem toNat_and_two_pow_ne_zero (n i : Nat) :
    (decide (n &&& 2 ^ i ≠ 0)).toNat = bit n i := by
  have hlt := bit_lt n i
  by_cases h : n &&& 2 ^ i ≠ 0
  · rw [decide_eq_true h, (and_two_pow_ne_zero_iff n i).mp h]
    rfl
  · have hne := mt (and_two_pow_ne_zero_iff n i).mpr h
    rw [decide_eq_false h, Bool.toNat_false]
    omega

/-- The value that at least two of three bits have. -/
def majority (i j k : Nat) : Nat := if i + j + k ≥ 2 then 1 else 0

end RaspiOrbSlam.Foundation.BitFields
