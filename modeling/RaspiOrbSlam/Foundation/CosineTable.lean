import Mathlib.Analysis.SpecialFunctions.Trigonometric.Basic
import Mathlib.Tactic.IntervalCases

/-! # The cosines of the multiples of a sixteenth of a half turn

Rational approximations, from the formula for half the angle and the symmetries
of the cosine. -/

namespace RaspiOrbSlam.Foundation

open Real

/-- The cosine of half an angle from that of the angle. -/
theorem cos_half_close {x q e p d : ℝ} (hcos : 0 ≤ cos x) (hdouble : |cos (2 * x) - p| ≤ d)
    (hlow : 2 * (q - e) ^ 2 ≤ 1 + p - d) (hhigh : 1 + p + d ≤ 2 * (q + e) ^ 2)
    (hpos : 0 ≤ q + e) : |cos x - q| ≤ e := by
  rw [cos_two_mul, abs_le] at hdouble
  rw [abs_le]
  constructor
  · by_contra hlt
    have hsq : cos x ^ 2 < (q - e) ^ 2 := pow_lt_pow_left₀ (by linarith) hcos (by decide)
    linarith
  · by_contra hgt
    have hsq : (q + e) ^ 2 < cos x ^ 2 := pow_lt_pow_left₀ (by linarith) hpos (by decide)
    linarith

/-- The cosine of `m` sixteenths of a half turn. -/
noncomputable def cosine16 (m : ℕ) : ℝ := cos (m * (π / 16))

theorem cosine16_double (m : ℕ) : cos (2 * (m * (π / 16))) = cosine16 (2 * m) := by
  rw [cosine16]
  push_cast
  ring_nf

theorem cosine16_sub {m : ℕ} (hm : m ≤ 16) : cosine16 (16 - m) = -cosine16 m := by
  rw [cosine16, cosine16, ← cos_pi_sub]
  push_cast [hm]
  ring_nf

theorem cosine16_add (m : ℕ) : cosine16 (16 + m) = -cosine16 m := by
  rw [cosine16, cosine16, ← cos_add_pi]
  push_cast
  ring_nf

theorem cosine16_add_mul (m n : ℕ) : cosine16 (m + 32 * n) = cosine16 m := by
  have hangle : ((m + 32 * n : ℕ) : ℝ) * (π / 16) = m * (π / 16) + n * (2 * π) := by
    push_cast
    ring
  rw [cosine16, cosine16, hangle, cos_add_nat_mul_two_pi]

theorem cosine16_nonneg {m : ℕ} (hm : m ≤ 8) : 0 ≤ cosine16 m := by
  have hm' : (m : ℝ) ≤ 8 := by exact_mod_cast hm
  have hpi := pi_pos
  apply cos_nonneg_of_neg_pi_div_two_le_of_le
  · have : 0 ≤ (m : ℝ) * (π / 16) := by positivity
    linarith
  · have := mul_le_mul_of_nonneg_right hm' (by positivity : 0 ≤ π / 16)
    linarith

/-- The first quarter of the turn in ten digits. -/
def quarterTable : ℕ → ℚ
  | 0 => 1
  | 1 => 9807852804 / 10 ^ 10
  | 2 => 9238795325 / 10 ^ 10
  | 3 => 8314696123 / 10 ^ 10
  | 4 => 7071067812 / 10 ^ 10
  | 5 => 5555702330 / 10 ^ 10
  | 6 => 3826834324 / 10 ^ 10
  | 7 => 1950903220 / 10 ^ 10
  | _ => 0

/-- A step from the double angle, with the error that it admits. -/
theorem cosine16_half {m : ℕ} (hm : m ≤ 8) {q e p d : ℚ} (hdouble : |cosine16 (2 * m) - p| ≤ d)
    (hcheck : 2 * (q - e) ^ 2 ≤ 1 + p - d ∧ 1 + p + d ≤ 2 * (q + e) ^ 2 ∧ 0 ≤ q + e) :
    |cosine16 m - q| ≤ e := by
  obtain ⟨hlow, hhigh, hpos⟩ := hcheck
  rw [← cosine16_double] at hdouble
  exact cos_half_close (cosine16_nonneg hm) hdouble (by exact_mod_cast hlow)
    (by exact_mod_cast hhigh) (by exact_mod_cast hpos)

theorem cosine16_sub_close {m k : ℕ} (hmk : m + k = 16) {q e : ℚ} (h : |cosine16 k - q| ≤ e) :
    |cosine16 m - (-q : ℚ)| ≤ e := by
  obtain rfl : m = 16 - k := by omega
  rwa [cosine16_sub (by omega), Rat.cast_neg, neg_sub_neg, abs_sub_comm]

theorem cosine16_add_close {m k : ℕ} (hmk : m = 16 + k) {q e : ℚ} (h : |cosine16 k - q| ≤ e) :
    |cosine16 m - (-q : ℚ)| ≤ e := by
  rwa [hmk, cosine16_add, Rat.cast_neg, neg_sub_neg, abs_sub_comm]

theorem cosine16_eight : cosine16 8 = 0 := by
  rw [cosine16, ← cos_pi_div_two]
  push_cast
  ring_nf

theorem cosine16_four_close : |cosine16 4 - quarterTable 4| ≤ (1 / 10 ^ 10 : ℚ) :=
  cosine16_half (by decide) (p := 0) (d := 0) (by simp [cosine16_eight]) (by decide +kernel)

theorem cosine16_two_close : |cosine16 2 - quarterTable 2| ≤ (3 / 10 ^ 10 : ℚ) :=
  cosine16_half (by decide) cosine16_four_close (by decide +kernel)

theorem cosine16_six_close : |cosine16 6 - quarterTable 6| ≤ (3 / 10 ^ 10 : ℚ) :=
  cosine16_half (by decide) (cosine16_sub_close (by decide) cosine16_four_close) (by decide +kernel)

theorem quarterTable_close {m : ℕ} (hm : m ≤ 8) :
    |cosine16 m - quarterTable m| ≤ (1 / 10 ^ 9 : ℚ) := by
  have hmono : ∀ {e : ℚ} {x : ℝ}, |x| ≤ e → e ≤ 1 / 10 ^ 9 → |x| ≤ (1 / 10 ^ 9 : ℚ) := by
    intro e x hx he
    exact hx.trans (by exact_mod_cast he)
  interval_cases m
  · simp [cosine16, quarterTable]
  · exact cosine16_half (by decide) cosine16_two_close (by decide +kernel)
  · exact hmono cosine16_two_close (by decide +kernel)
  · exact cosine16_half (by decide) cosine16_six_close (by decide +kernel)
  · exact hmono cosine16_four_close (by decide +kernel)
  · exact cosine16_half (by decide) (cosine16_sub_close (by decide) cosine16_six_close)
      (by decide +kernel)
  · exact hmono cosine16_six_close (by decide +kernel)
  · exact cosine16_half (by decide) (cosine16_sub_close (by decide) cosine16_two_close)
      (by decide +kernel)
  · simp [cosine16_eight, quarterTable]

/-- The whole turn. -/
def cosineTable (m : ℕ) : ℚ :=
  let m := m % 32
  if m ≤ 8 then quarterTable m
  else if m ≤ 16 then -quarterTable (16 - m)
  else if m ≤ 24 then -quarterTable (m - 16)
  else quarterTable (32 - m)

theorem cosineTable_close (m : ℕ) : |cosine16 m - cosineTable m| ≤ (1 / 10 ^ 9 : ℚ) := by
  obtain ⟨k, n, hk, rfl⟩ : ∃ k n, k < 32 ∧ m = k + 32 * n := ⟨m % 32, m / 32, by omega, by omega⟩
  have hmod : (k + 32 * n) % 32 = k := by omega
  rw [cosine16_add_mul, cosineTable, hmod]
  by_cases h8 : k ≤ 8
  · simpa only [h8, if_true] using quarterTable_close h8
  by_cases h16 : k ≤ 16
  · obtain ⟨j, hj, rfl⟩ : ∃ j ≤ 8, k = 16 - j := ⟨16 - k, by omega, by omega⟩
    have hback : 16 - (16 - j) = j := by omega
    simpa only [h8, h16, if_true, if_false, hback] using
      cosine16_sub_close (by omega) (quarterTable_close hj)
  by_cases h24 : k ≤ 24
  · obtain ⟨j, hj, rfl⟩ : ∃ j ≤ 8, k = 16 + j := ⟨k - 16, by omega, by omega⟩
    have hback : 16 + j - 16 = j := by omega
    simpa only [h8, h16, h24, if_true, if_false, hback] using
      cosine16_add_close rfl (quarterTable_close hj)
  · obtain ⟨j, hj, rfl⟩ : ∃ j ≤ 8, k = 16 + (16 - j) := ⟨32 - k, by omega, by omega⟩
    have hback : 32 - (16 + (16 - j)) = j := by omega
    have hsub : 16 - j + j = 16 := by omega
    have h := cosine16_add_close rfl (cosine16_sub_close hsub (quarterTable_close hj))
    rw [neg_neg] at h
    simpa only [h8, h16, h24, if_false, hback] using h

end RaspiOrbSlam.Foundation
