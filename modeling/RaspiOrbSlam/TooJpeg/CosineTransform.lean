import RaspiOrbSlam.Foundation.CosineTable
import RaspiOrbSlam.TooJpeg.Precision
import Mathlib.Algebra.BigOperators.Field

/-! # The transform that the format defines

The two-dimensional discrete cosine transform, and how far the quantized
coefficients of the encoder are from it. -/

namespace RaspiOrbSlam.TooJpeg

open Foundation

/-- The factor of the constant basis function. -/
noncomputable def weight (k : Fin 8) : ℝ := if (k : ℕ) = 0 then 1 / √(2 : ℕ) else 1

/-- The coefficient in row `r` and column `c` of the transform of 8x8 samples. -/
noncomputable def discreteCosine (v : Fin 8 → Fin 8 → ℝ) (r c : Fin 8) : ℝ :=
  1 / 4 * weight r * weight c * ∑ i : Fin 8, ∑ j : Fin 8,
    v i j * cosine16 ((2 * i + 1) * r) * cosine16 ((2 * j + 1) * c)

/-- The samples that a decoder computes from coefficients. -/
noncomputable def inverseCosine (F : Fin 8 → Fin 8 → ℝ) (i j : Fin 8) : ℝ :=
  1 / 4 * ∑ r : Fin 8, ∑ c : Fin 8, weight r * weight c * F r c *
    cosine16 ((2 * i + 1) * r) * cosine16 ((2 * j + 1) * c)

/-- A basis function, scaled so that the constant one is 1. -/
noncomputable def basis (k i : Fin 8) : ℝ :=
  √(2 : ℕ) * weight k * cosine16 ((2 * i + 1) * k)

theorem weight_eq (k : Fin 8) : weight k = if k = 0 then 1 / √2 else 1 := by
  simp only [weight, Nat.cast_ofNat, Fin.ext_iff, Fin.val_zero]

theorem discreteCosine_eq (v : Fin 8 → Fin 8 → ℝ) (r c : Fin 8) :
    discreteCosine v r c = 1 / 8 * ∑ i, ∑ j, basis r i * basis c j * v i j := by
  have hroot : √(2 : ℝ) * √2 = 2 := Real.mul_self_sqrt (by norm_num)
  rw [discreteCosine, Finset.mul_sum, Finset.mul_sum]
  apply Finset.sum_congr rfl
  intro i _
  rw [Finset.mul_sum, Finset.mul_sum]
  apply Finset.sum_congr rfl
  intro j _
  simp only [basis, Nat.cast_ofNat]
  linear_combination (1 / 8 * weight r * weight c * v i j *
    cosine16 ((2 * i + 1) * r) * cosine16 ((2 * j + 1) * c)) * (-hroot)

/-- The basis functions of the program. -/
def programBasis (k i : Fin 8) : ℚ :=
  (cosineProgram k).coefficient i / (aanScaleFactors k).number

theorem exactCoefficient_eq (v : Fin 8 → Fin 8 → ℚ) (r c : Fin 8) :
    exactCoefficient v r c = 1 / 8 * ∑ i, ∑ j, programBasis r i * programBasis c j * v i j := by
  have hr := (aanScaleFactors_bounds r).1
  have hc := (aanScaleFactors_bounds c).1
  rw [exactCoefficient, exactTransform, LinearProgram.exact_eq_sum, Finset.sum_div, Finset.mul_sum]
  apply Finset.sum_congr rfl
  intro i _
  rw [LinearProgram.exact_eq_sum, Finset.mul_sum, Finset.sum_div, Finset.mul_sum]
  apply Finset.sum_congr rfl
  intro j _
  rw [programBasis, programBasis, scaling]
  field_simp

/-- The basis in digits, next to that of the program. -/
theorem programBasis_close : ∀ k i, |programBasis k i -
      (if k = 0 then 1 else 14142135624 / 10 ^ 10 * cosineTable ((2 * i + 1) * k))| ≤
    28 / 10 ^ 8 ∧ |programBasis k i| ≤ 142 / 100 := by
  decide +kernel

theorem sqrt_two_close : |14142135624 / 10 ^ 10 - √2| ≤ 1 / 10 ^ 10 := by
  have hlow : 14142135623 / 10 ^ 10 ≤ √2 := Real.le_sqrt' (by norm_num) |>.mpr (by norm_num)
  have hhigh : √2 ≤ 14142135625 / 10 ^ 10 := Real.sqrt_le_iff.mpr (by norm_num)
  rw [abs_le]
  constructor <;> linarith

theorem abs_mul_sub_mul_le (a b x y : ℝ) : |a * b - x * y| ≤ |a| * |b - y| + |a - x| * |y| := by
  have hsplit : a * b - x * y = a * (b - y) + (a - x) * y := by ring
  rw [hsplit, ← abs_mul, ← abs_mul]
  exact abs_add_le _ _

theorem abs_cast_le {x e : ℚ} (h : |x| ≤ e) : |(x : ℝ)| ≤ (e : ℝ) := by
  exact_mod_cast h

theorem basis_close (k i : Fin 8) : |(programBasis k i : ℝ) - basis k i| ≤ 3 / 10 ^ 7 := by
  have hprogram := (programBasis_close k i).1
  split at hprogram
  case isTrue hk =>
    have hone : basis k i = 1 := by
      rw [basis, weight_eq, if_pos hk, hk, cosine16]
      simp
    have hcast := abs_cast_le hprogram
    rw [hone]
    push_cast at hcast
    linarith
  case isFalse hk =>
    obtain ⟨m, hm⟩ : ∃ m, (2 * (i : ℕ) + 1) * k = m := ⟨_, rfl⟩
    have hbasis : basis k i = √2 * cosine16 m := by
      rw [basis, weight_eq, if_neg hk, mul_one, hm, Nat.cast_ofNat]
    rw [hm] at hprogram
    have htable := cosineTable_close m
    have hcast := abs_cast_le hprogram
    have hcos : |cosine16 m| ≤ 1 := Real.abs_cos_le_one _
    have hproduct : |14142135624 / 10 ^ 10 * (cosineTable m : ℝ) - √2 * cosine16 m| ≤
        1 / 10 ^ 8 := by
      apply (abs_mul_sub_mul_le _ _ _ _).trans
      rw [abs_sub_comm (cosineTable m : ℝ)]
      calc
        _ ≤ |(14142135624 / 10 ^ 10 : ℝ)| * (1 / 10 ^ 9 : ℚ) + 1 / 10 ^ 10 * 1 := by
          gcongr
          exact sqrt_two_close
        _ ≤ 1 / 10 ^ 8 := by
          rw [abs_of_pos (by norm_num)]
          norm_num
    push_cast at hcast
    rw [hbasis]
    have := abs_sub_le (programBasis k i : ℝ) (14142135624 / 10 ^ 10 * cosineTable m)
      (√2 * cosine16 m)
    linarith

/-- The constants of the program make up the basis of the transform. -/
theorem exactCoefficient_close {v : Fin 8 → Fin 8 → ℚ} (hv : ∀ i j, |v i j| ≤ 129) (r c : Fin 8) :
    |(exactCoefficient v r c : ℝ) - discreteCosine (fun i j => v i j) r c| ≤ 1 / 1000 := by
  have hterm : ∀ i j, |(programBasis r i * programBasis c j * v i j : ℝ) -
      basis r i * basis c j * v i j| ≤ 9 / 10 ^ 7 * 129 := by
    intro i j
    have hr := abs_cast_le (programBasis_close r i).2
    have hc := basis_close c j
    have hv' := abs_cast_le (hv i j)
    push_cast at hr hv'
    have hbasis : |basis c j| ≤ 143 / 100 := by
      have hprogram := abs_cast_le (programBasis_close c j).2
      have := abs_sub_abs_le_abs_sub (basis c j) (programBasis c j)
      rw [abs_sub_comm] at this
      push_cast at hprogram
      linarith
    have hproduct : |(programBasis r i * programBasis c j : ℝ) - basis r i * basis c j| ≤
        9 / 10 ^ 7 := by
      apply (abs_mul_sub_mul_le _ _ _ _).trans
      calc
        _ ≤ 142 / 100 * (3 / 10 ^ 7) + 3 / 10 ^ 7 * (143 / 100) := by
          gcongr
          exact basis_close r i
        _ ≤ (9 / 10 ^ 7 : ℝ) := by norm_num
    rw [← sub_mul, abs_mul]
    gcongr
  rw [exactCoefficient_eq, discreteCosine_eq]
  push_cast
  rw [← mul_sub, ← Finset.sum_sub_distrib, abs_mul]
  simp only [← Finset.sum_sub_distrib]
  calc
    _ ≤ |(1 / 8 : ℝ)| * ∑ i : Fin 8, ∑ j : Fin 8, 9 / 10 ^ 7 * 129 := by
      gcongr
      apply (Finset.abs_sum_le_sum_abs _ _).trans
      apply Finset.sum_le_sum
      intro i _
      apply (Finset.abs_sum_le_sum_abs _ _).trans
      apply Finset.sum_le_sum
      intro j _
      exact hterm i j
    _ ≤ 1 / 1000 := by
      simp only [Finset.sum_const, Finset.card_univ, Fintype.card_fin]
      norm_num

/-- The encoder's integers, in units of the quantization step, are the transform of the samples
up to half a step and an eighth. -/
theorem Samples.level_accuracy {block : Nat → Float32} {v : Fin 8 → Fin 8 → ℚ} {h : ℚ}
    {quant : Fin 64 → UInt8} (hs : Samples block v h) (hquant : ∀ i, quant i ≠ 0) (i : Fin 64) :
    |((level (scaleBlock block (scaledTable quant)) i).toInt * (quant i).toNat : ℝ) -
        discreteCosine (fun i j => v i j) (row i) (column i)| ≤
      (1 / 2 + 1 / 5000) * (quant i).toNat + 13 / 100 := by
  obtain ⟨hq1, -⟩ := step_bounds (hquant i)
  have hpos : (0 : ℚ) < (quant i).toNat := by linarith
  have hlevel := hs.level_close hquant i
  generalize (level (scaleBlock block (scaledTable quant)) i).toInt = l at *
  have hexact : |(l : ℚ) * (quant i).toNat - exactCoefficient v (row i) (column i)| ≤
      (1 / 2 + 1 / 5000) * (quant i).toNat + 1 / 8 := by
    have hmul := mul_le_mul_of_nonneg_right hlevel hpos.le
    rw [← abs_of_pos hpos, ← abs_mul, abs_of_pos hpos, sub_mul, add_mul,
      div_mul_cancel₀ _ hpos.ne', div_mul_cancel₀ _ hpos.ne'] at hmul
    exact hmul
  have hcast := abs_cast_le hexact
  push_cast at hcast
  have := exactCoefficient_close hs.bounded (row i) (column i)
  have := abs_sub_le ((l : ℝ) * (quant i).toNat) (exactCoefficient v (row i) (column i))
    (discreteCosine (fun i j => v i j) (row i) (column i))
  linarith

end RaspiOrbSlam.TooJpeg
