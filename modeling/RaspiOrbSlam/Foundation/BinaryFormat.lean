import Mathlib.Algebra.Order.Field.Power
import Mathlib.Algebra.Order.Field.Rat
import Mathlib.Algebra.Order.Monoid.Unbundled.WithTop
import Mathlib.Tactic.Linarith
import Mathlib.Tactic.Positivity

/-!
# Magnitudes in a binary format

A pattern of a binary interchange format is a sign, an exponent field and a
fraction field. The largest exponent field stands for infinity and for the NaNs,
the smallest for zero and the subnormal numbers. Comparing a magnitude with a
power of two is comparing the exponent field.
-/

namespace RaspiOrbSlam.Foundation

structure BinaryFormat where
  exponentBits : Nat
  fractionBits : Nat

namespace BinaryFormat

variable (fmt : BinaryFormat)

def bias : Int := 2 ^ (fmt.exponentBits - 1) - 1

/-- The exponent field of infinity and of the NaNs. -/
def maxField : Nat := 2 ^ fmt.exponentBits - 1

/-- The magnitude of a pattern with these fields; a NaN has none. -/
def magnitude? (e f : Nat) : Option (WithTop ℚ) :=
  if e = fmt.maxField then if f = 0 then some ⊤ else none
  else if e = 0 then some ((f * 2 ^ (1 - fmt.bias - fmt.fractionBits) : ℚ) : WithTop ℚ)
  else some (((2 ^ fmt.fractionBits + f) * 2 ^ (e - fmt.bias - fmt.fractionBits) : ℚ) : WithTop ℚ)

/-- The power of two with the exponent field `n`. -/
def power (n : Nat) : WithTop ℚ := (((2 : ℚ) ^ ((n : Int) - fmt.bias) : ℚ) : WithTop ℚ)

theorem power_le_power {m n : Nat} (h : m ≤ n) : fmt.power m ≤ fmt.power n := by
  apply WithTop.coe_le_coe.mpr
  apply zpow_le_zpow_right₀ one_le_two
  omega

theorem scale (n : Nat) :
    (2 : ℚ) ^ fmt.fractionBits * 2 ^ ((n : Int) - fmt.bias - fmt.fractionBits) =
      2 ^ ((n : Int) - fmt.bias) := by
  rw [← zpow_natCast, ← zpow_add₀ two_ne_zero]
  congr 1
  omega

/-- A subnormal magnitude is below the smallest normal one. -/
theorem subnormal_lt {f : Nat} (hf : f < 2 ^ fmt.fractionBits) :
    ((f * 2 ^ (1 - fmt.bias - fmt.fractionBits) : ℚ) : WithTop ℚ) < fmt.power 1 := by
  apply WithTop.coe_lt_coe.mpr
  have hscale := fmt.scale 1
  rw [Nat.cast_one] at hscale
  rw [Nat.cast_one, ← hscale]
  have hcast : (f : ℚ) < 2 ^ fmt.fractionBits := by exact_mod_cast hf
  exact mul_lt_mul_of_pos_right hcast (by positivity)

/-- A normal magnitude lies between the powers of its exponent field and of the next. -/
theorem normal_bounds (e : Nat) {f : Nat} (hf : f < 2 ^ fmt.fractionBits) :
    let q : ℚ := (2 ^ fmt.fractionBits + f) * 2 ^ (e - fmt.bias - fmt.fractionBits)
    fmt.power e ≤ q ∧ (q : WithTop ℚ) < fmt.power (e + 1) := by
  intro q
  have hcast : (f : ℚ) < 2 ^ fmt.fractionBits := by exact_mod_cast hf
  have hnonneg : (0 : ℚ) ≤ f := Nat.cast_nonneg f
  have hpos : (0 : ℚ) < 2 ^ ((e : Int) - fmt.bias - fmt.fractionBits) := by positivity
  constructor
  · apply WithTop.coe_le_coe.mpr
    rw [← fmt.scale e]
    apply mul_le_mul_of_nonneg_right _ hpos.le
    linarith
  · apply WithTop.coe_lt_coe.mpr
    have hnext : (2 : ℚ) ^ (((e + 1 : Nat) : Int) - fmt.bias) =
        (2 ^ fmt.fractionBits + 2 ^ fmt.fractionBits) *
          2 ^ ((e : Int) - fmt.bias - fmt.fractionBits) := by
      rw [← two_mul, mul_assoc, fmt.scale e, ← zpow_one_add₀ two_ne_zero]
      congr 1
      push_cast
      omega
    rw [hnext]
    apply mul_lt_mul_of_pos_right _ hpos
    linarith

/-- Whether a magnitude is below a power of two is decided by the exponent field. -/
theorem magnitude_lt_power_iff {e f n : Nat} (hf : f < 2 ^ fmt.fractionBits) (hn : 1 ≤ n)
    (hmax : n ≤ fmt.maxField) {q : WithTop ℚ} (hq : fmt.magnitude? e f = some q) :
    q < fmt.power n ↔ e < n := by
  rw [magnitude?] at hq
  split at hq
  · next he =>
    split at hq
    · cases hq
      simp only [not_top_lt, false_iff]
      omega
    · cases hq
  · split at hq
    · next he =>
      cases hq
      refine iff_of_true ?_ (by omega)
      exact (fmt.subnormal_lt hf).trans_le (fmt.power_le_power hn)
    · cases hq
      obtain ⟨hlow, hhigh⟩ := fmt.normal_bounds e hf
      constructor
      · intro hlt
        by_contra hge
        exact absurd (hlow.trans_lt hlt) (not_lt.mpr (fmt.power_le_power (Nat.le_of_not_lt hge)))
      · intro hlt
        exact hhigh.trans_le (fmt.power_le_power hlt)

/-- Only the largest exponent field has patterns without a magnitude. -/
theorem magnitude_eq_none_iff {e f : Nat} :
    fmt.magnitude? e f = none ↔ e = fmt.maxField ∧ f ≠ 0 := by
  rw [magnitude?]
  split
  · next he => split <;> simp_all
  · next he => split <;> simp_all

end BinaryFormat

end RaspiOrbSlam.Foundation
