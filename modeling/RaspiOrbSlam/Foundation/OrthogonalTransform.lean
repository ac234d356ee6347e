import Mathlib.Analysis.SpecialFunctions.Trigonometric.Basic
import Mathlib.LinearAlgebra.Matrix.NonsingularInverse
import Mathlib.LinearAlgebra.Matrix.Trace

/-! # Orthogonal transforms

A transform of rows and columns by an orthogonal matrix keeps the sum of the
squares, and the cosines of the odd multiples of an angle make up such a matrix. -/

namespace RaspiOrbSlam.Foundation

open Real Matrix

section Energy

variable {n : Type*} [Fintype n]

/-- The sum of the squares of all entries. -/
def energy (A : Matrix n n ℝ) : ℝ := ∑ i, ∑ j, A i j ^ 2

theorem energy_eq_trace (A : Matrix n n ℝ) : energy A = (A * Aᵀ).trace := by
  rw [energy, trace]
  apply Finset.sum_congr rfl
  intro i _
  rw [diag_apply, mul_apply]
  apply Finset.sum_congr rfl
  intro j _
  rw [transpose_apply, sq]

variable [DecidableEq n] {U : Matrix n n ℝ}

theorem energy_transform (hU : Uᵀ * U = 1) (A : Matrix n n ℝ) :
    energy (U * A * Uᵀ) = energy A := by
  calc
    energy (U * A * Uᵀ) = (U * (A * (Uᵀ * U) * Aᵀ) * Uᵀ).trace := by
      rw [energy_eq_trace]
      simp only [transpose_mul, transpose_transpose, Matrix.mul_assoc]
    _ = (Uᵀ * (U * (A * Aᵀ))).trace := by rw [hU, Matrix.mul_one, trace_mul_comm]
    _ = energy A := by rw [← Matrix.mul_assoc, hU, Matrix.one_mul, energy_eq_trace]

/-- How far the entries are from those of another matrix is how far their transforms are. -/
theorem energy_inverse_sub (hU : U * Uᵀ = 1) (F A : Matrix n n ℝ) :
    energy (Uᵀ * F * U - A) = energy (F - U * A * Uᵀ) := by
  have hU' : Uᵀ * U = 1 := mul_eq_one_comm.mp hU
  rw [← energy_transform hU']
  congr 1
  calc
    U * (Uᵀ * F * U - A) * Uᵀ = (U * Uᵀ) * F * (U * Uᵀ) - U * A * Uᵀ := by
      simp only [Matrix.mul_sub, Matrix.sub_mul, Matrix.mul_assoc]
    _ = F - U * A * Uᵀ := by rw [hU, Matrix.one_mul, Matrix.mul_one]

end Energy

section Cosines

/-- The sum over the odd multiples of an angle telescopes. -/
theorem two_mul_sin_mul_sum_cos (x : ℝ) (n : ℕ) :
    2 * sin x * ∑ i ∈ Finset.range n, cos ((2 * i + 1) * x) = sin (2 * n * x) := by
  induction n with
  | zero => simp
  | succ n ih =>
      have hstep : sin (2 * (n + 1 : ℕ) * x) - sin (2 * n * x) =
          2 * sin x * cos ((2 * n + 1) * x) := by
        rw [sin_sub_sin]
        push_cast
        ring_nf
      rw [Finset.sum_range_succ, mul_add, ih, ← hstep]
      ring

variable {N : ℕ}

/-- The sum over a half period. -/
theorem sum_cos_eq_zero {m : ℕ} (hpos : 0 < m) (hm : m < 2 * N) :
    ∑ i ∈ Finset.range N, cos ((2 * i + 1) * (m * (π / (2 * N)))) = 0 := by
  have hN : (0 : ℝ) < N := by
    have : 0 < N := by omega
    exact_mod_cast this
  have hm' : (m : ℝ) < 2 * N := by exact_mod_cast hm
  have hsin : 0 < sin (m * (π / (2 * N))) := by
    apply sin_pos_of_pos_of_lt_pi
    · have := pi_pos
      positivity
    · calc
        m * (π / (2 * N)) < 2 * N * (π / (2 * N)) := by
          have := pi_pos
          gcongr
        _ = π := by field_simp
  have hsum := two_mul_sin_mul_sum_cos (m * (π / (2 * N))) N
  have hangle : 2 * N * (m * (π / (2 * N))) = m * π := by field_simp
  rw [hangle, sin_nat_mul_pi, mul_assoc, mul_eq_zero] at hsum
  exact (mul_eq_zero.mp (hsum.resolve_left (by norm_num))).resolve_left hsin.ne'

/-- The matrix of the cosines, with rows of length one. -/
noncomputable def cosineMatrix (N : ℕ) : Matrix (Fin N) (Fin N) ℝ :=
  fun k i => √((if (k : ℕ) = 0 then 1 else 2) / N) * cos ((2 * i + 1) * (k * (π / (2 * N))))

/-- Different rows are orthogonal. -/
theorem sum_cos_mul_cos {k l : ℕ} (hkl : l ≤ k) (hk : k < N) :
    ∑ i ∈ Finset.range N, cos ((2 * i + 1) * (k * (π / (2 * N)))) *
      cos ((2 * i + 1) * (l * (π / (2 * N)))) =
      if k = l then if k = 0 then (N : ℝ) else N / 2 else 0 := by
  have hproduct : ∀ i : ℕ, cos ((2 * i + 1) * (k * (π / (2 * N)))) *
      cos ((2 * i + 1) * (l * (π / (2 * N)))) =
      1 / 2 * (cos ((2 * i + 1) * ((k - l : ℕ) * (π / (2 * N)))) +
        cos ((2 * i + 1) * ((k + l : ℕ) * (π / (2 * N))))) := by
    intro i
    have hdifference : (2 * i + 1) * ((k - l : ℕ) * (π / (2 * N))) =
        (2 * i + 1) * (k * (π / (2 * N))) - (2 * i + 1) * (l * (π / (2 * N))) := by
      push_cast [hkl]
      ring
    have hsum : (2 * i + 1) * ((k + l : ℕ) * (π / (2 * N))) =
        (2 * i + 1) * (k * (π / (2 * N))) + (2 * i + 1) * (l * (π / (2 * N))) := by
      push_cast
      ring
    rw [hdifference, hsum, ← two_mul_cos_mul_cos]
    ring
  rw [Finset.sum_congr rfl fun i _ => hproduct i, ← Finset.mul_sum, Finset.sum_add_distrib]
  by_cases heq : k = l
  · subst heq
    have hconstant : ∑ i ∈ Finset.range N, cos ((2 * i + 1) * ((k - k : ℕ) * (π / (2 * N)))) =
        N := by simp
    rw [hconstant, if_pos rfl]
    by_cases hzero : k = 0
    · subst hzero
      rw [if_pos rfl]
      simp
      ring
    · rw [if_neg hzero, sum_cos_eq_zero (by omega) (by omega)]
      ring
  · rw [if_neg heq, sum_cos_eq_zero (by omega) (by omega), sum_cos_eq_zero (by omega) (by omega)]
    norm_num

theorem cosineMatrix_mul_transpose (N : ℕ) : cosineMatrix N * (cosineMatrix N)ᵀ = 1 := by
  have hrows : ∀ k l : Fin N, l ≤ k → (cosineMatrix N * (cosineMatrix N)ᵀ) k l =
      if k = l then 1 else 0 := by
    intro k l hkl
    have hN : (0 : ℝ) < N := by exact_mod_cast k.pos
    have hsum := sum_cos_mul_cos (N := N) hkl k.isLt
    rw [Finset.sum_range] at hsum
    rw [mul_apply]
    simp only [transpose_apply, cosineMatrix]
    rw [Finset.sum_congr rfl fun j _ => mul_mul_mul_comm _ _ _ _, ← Finset.mul_sum, hsum]
    by_cases heq : k = l
    · subst heq
      rw [if_pos rfl, if_pos rfl, Real.mul_self_sqrt (by positivity)]
      split <;> field_simp
    · rw [if_neg heq, if_neg (fun h => heq (Fin.ext h)), mul_zero]
  have hsymm : (cosineMatrix N * (cosineMatrix N)ᵀ)ᵀ = cosineMatrix N * (cosineMatrix N)ᵀ := by
    rw [transpose_mul, transpose_transpose]
  ext k l
  rw [one_apply]
  rcases le_total l k with hkl | hlk
  · exact hrows k l hkl
  · rw [← hsymm, transpose_apply, hrows l k hlk]
    simp only [eq_comm]

end Cosines

end RaspiOrbSlam.Foundation
