import RaspiOrbSlam.Foundation.Binary32
import Mathlib.Algebra.BigOperators.Fin
import Mathlib.Algebra.Order.BigOperators.Group.Finset

/-! # Linear programs in single precision

A straight-line program of sums, differences and products with constants. Its
result in `Float32` is compared with the exact result: the gain of a program
bounds how much it amplifies its inputs and their errors, its noise counts the
errors of its own operations. -/

namespace RaspiOrbSlam.Foundation

open Binary32

/-- A float and the number that it stands for. -/
structure Constant where
  float : Float32
  number : ℚ
  stands : value float = some number

/-- A constant with its sign, mantissa and exponent. -/
def Constant.ofMantissa (x : Float32) (s : Float.Model.UnpackedFloat.Sign) (m e : Nat)
    (hm : 0 < m) (h : x.toModel.unpack = .finite s m (-e) hm) : Constant where
  float := x
  number := signed s (m / 2 ^ e)
  stands := by
    rw [value, h, numberOf, zpow_neg, zpow_natCast, div_eq_mul_inv]

/-- `x` stands for a number that differs from `q` by at most `e`. -/
def Near (x : Float32) (q e : ℚ) : Prop := ∃ v, value x = some v ∧ |v - q| ≤ e

/-- The relative error of an operation whose operands have errors of their own. -/
def roundoff : ℚ := 2 ^ (-23 : Int) * (102 / 100)

theorem Near.mono {x : Float32} {q e f : ℚ} (h : Near x q e) (hef : e ≤ f) : Near x q f := by
  obtain ⟨v, hv, hclose⟩ := h
  exact ⟨v, hv, hclose.trans hef⟩

/-- A rounded result `x` of the operation with the exact result `w`, which is near `q`. -/
theorem near_of_close {x : Float32} {w q e a : ℚ}
    (h : |w| < 2 ^ 127 → ∃ r, value x = some r ∧ |r - w| ≤ ulp w) (hw : |w - q| ≤ e)
    (hq : |q| ≤ a) (he : e ≤ a / 100) (hlow : 2 ^ (-100 : Int) ≤ a) (hhigh : a ≤ 2 ^ 126) :
    Near x q (e + a * roundoff) := by
  have hsize : |w| ≤ a + a / 100 := by
    have := abs_sub_abs_le_abs_sub w q
    linarith
  obtain ⟨r, hr, hclose⟩ := h (by norm_num at hlow hhigh ⊢; linarith)
  refine ⟨r, hr, ?_⟩
  have hulp : ulp w ≤ a * roundoff := by
    have hmul := mul_le_mul_of_nonneg_left hsize (by positivity : (0 : ℚ) ≤ 2 ^ (-23 : Int))
    unfold ulp roundoff
    norm_num at hmul hlow ⊢
    linarith
  have htriangle := abs_sub_le r w q
  linarith

/-- The quotient of a part and its whole that are both known up to a share of the whole. -/
theorem quotient_close {a b n d u : ℚ} (hn : 0 ≤ n) (hle : n ≤ d) (hd : 0 < d)
    (ha : |a - n| ≤ u * d) (hb : |b - d| ≤ u * d) (hu : u ≤ 1 / 100) :
    0 < b ∧ |a / b - n / d| ≤ 3 * u := by
  have hu0 : 0 ≤ u := by
    by_contra hneg
    have : u * d < 0 := mul_neg_of_neg_of_pos (not_le.mp hneg) hd
    linarith [abs_nonneg (a - n)]
  have hlow : 99 / 100 * d ≤ b := by
    have hclose := (abs_le.mp hb).1
    have hud : u * d ≤ 1 / 100 * d := mul_le_mul_of_nonneg_right hu hd.le
    linarith
  have hpos : 0 < b := by linarith
  refine ⟨hpos, ?_⟩
  have hnumerator : |a * d - b * n| ≤ 2 * (u * d * d) := by
    have hsplit : a * d - b * n = (a - n) * d + (d - b) * n := by ring
    calc
      |a * d - b * n| ≤ |(a - n) * d| + |(d - b) * n| := by
        rw [hsplit]
        exact abs_add_le _ _
      _ = |a - n| * d + |b - d| * n := by
        rw [abs_mul, abs_mul, abs_of_pos hd, abs_of_nonneg hn, abs_sub_comm d]
      _ ≤ u * d * d + u * d * d := by gcongr
      _ = 2 * (u * d * d) := by ring
  have hproduct : 99 / 100 * (u * d * d) ≤ u * (b * d) := by
    have := mul_le_mul_of_nonneg_left hlow (mul_nonneg hu0 hd.le)
    linarith
  have hnonneg : 0 ≤ u * d * d := by positivity
  rw [div_sub_div _ _ hpos.ne' hd.ne', abs_div, abs_of_pos (mul_pos hpos hd),
    div_le_iff₀ (mul_pos hpos hd)]
  linarith

/-- A program over `n` inputs; constants stand on either side of a product. -/
inductive LinearProgram (n : Nat)
  | input (i : Fin n)
  | add (p q : LinearProgram n)
  | sub (p q : LinearProgram n)
  | mul (p : LinearProgram n) (c : Constant)
  | mulLeft (c : Constant) (p : LinearProgram n)

namespace LinearProgram

variable {n : Nat}

/-- The result in single precision. -/
def run (x : Fin n → Float32) : LinearProgram n → Float32
  | input i => x i
  | add p q => p.run x + q.run x
  | sub p q => p.run x - q.run x
  | mul p c => p.run x * c.float
  | mulLeft c p => c.float * p.run x

/-- The exact result. -/
def exact (v : Fin n → ℚ) : LinearProgram n → ℚ
  | input i => v i
  | add p q => p.exact v + q.exact v
  | sub p q => p.exact v - q.exact v
  | mul p c => p.exact v * c.number
  | mulLeft c p => c.number * p.exact v

/-- The factor of an input in the exact result. -/
def coefficient : LinearProgram n → Fin n → ℚ
  | input i, j => if i = j then 1 else 0
  | add p q, j => p.coefficient j + q.coefficient j
  | sub p q, j => p.coefficient j - q.coefficient j
  | mul p c, j => p.coefficient j * c.number
  | mulLeft c p, j => c.number * p.coefficient j

/-- How much a program amplifies at most. -/
def gain : LinearProgram n → ℚ
  | input _ => 1
  | add p q => p.gain + q.gain
  | sub p q => p.gain + q.gain
  | mul p c => p.gain * |c.number|
  | mulLeft c p => |c.number| * p.gain

/-- The error of the operations themselves, in units of the inputs' magnitude. -/
def noise : LinearProgram n → ℚ
  | input _ => 0
  | add p q => p.noise + q.noise + (p.gain + q.gain)
  | sub p q => p.noise + q.noise + (p.gain + q.gain)
  | mul p c => p.noise * |c.number| + p.gain * |c.number|
  | mulLeft c p => |c.number| * p.noise + |c.number| * p.gain

/-- The gain of an operation is moderate, and its noise not far above it. -/
def Moderate (p : LinearProgram n) : Prop := 1 / 64 ≤ p.gain ∧ p.gain ≤ 64 ∧ p.noise ≤ 64 * p.gain

instance (p : LinearProgram n) : Decidable p.Moderate := by
  unfold Moderate
  infer_instance

/-- No intermediate result comes near the limits of the range or is lost in errors. -/
def Tame : LinearProgram n → Prop
  | input _ => True
  | add p q => p.Tame ∧ q.Tame ∧ (add p q).Moderate
  | sub p q => p.Tame ∧ q.Tame ∧ (sub p q).Moderate
  | mul p c => p.Tame ∧ (mul p c).Moderate
  | mulLeft c p => p.Tame ∧ (mulLeft c p).Moderate

instance decidableTame : (p : LinearProgram n) → Decidable p.Tame
  | input _ => .isTrue trivial
  | add p q =>
      have := decidableTame p
      have := decidableTame q
      inferInstanceAs (Decidable (_ ∧ _ ∧ _))
  | sub p q =>
      have := decidableTame p
      have := decidableTame q
      inferInstanceAs (Decidable (_ ∧ _ ∧ _))
  | mul p _ =>
      have := decidableTame p
      inferInstanceAs (Decidable (_ ∧ _))
  | mulLeft _ p =>
      have := decidableTame p
      inferInstanceAs (Decidable (_ ∧ _))

instance : Add (LinearProgram n) := ⟨add⟩
instance : Sub (LinearProgram n) := ⟨sub⟩

theorem exact_eq_sum (p : LinearProgram n) (v : Fin n → ℚ) :
    p.exact v = ∑ i, p.coefficient i * v i := by
  induction p with
  | input i => simp [exact, coefficient]
  | add p q ihp ihq => simp only [exact, coefficient, ihp, ihq, add_mul, Finset.sum_add_distrib]
  | sub p q ihp ihq => simp only [exact, coefficient, ihp, ihq, sub_mul, Finset.sum_sub_distrib]
  | mul p c ih =>
      simp only [exact, coefficient, ih, Finset.sum_mul]
      exact Finset.sum_congr rfl fun i _ => by ring
  | mulLeft c p ih =>
      simp only [exact, coefficient, ih, Finset.mul_sum]
      exact Finset.sum_congr rfl fun i _ => by ring

theorem exact_add_const (p : LinearProgram n) (v : Fin n → ℚ) (h : ℚ) :
    p.exact (fun i => v i + h) = p.exact v + (∑ i, p.coefficient i) * h := by
  simp only [exact_eq_sum, mul_add, Finset.sum_add_distrib, Finset.sum_mul]

/-- The exact result is bounded by the sum of the factors' magnitudes. -/
theorem abs_exact_le (p : LinearProgram n) {v : Fin n → ℚ} {m : ℚ} (hv : ∀ i, |v i| ≤ m) :
    |p.exact v| ≤ (∑ i, |p.coefficient i|) * m := by
  rw [exact_eq_sum, Finset.sum_mul]
  calc
    |∑ i, p.coefficient i * v i| ≤ ∑ i, |p.coefficient i * v i| := Finset.abs_sum_le_sum_abs _ _
    _ ≤ ∑ i, |p.coefficient i| * m := by
      apply Finset.sum_le_sum
      intro i _
      rw [abs_mul]
      exact mul_le_mul_of_nonneg_left (hv i) (abs_nonneg _)

/-- The rounding of one operation, with the errors of its operands. -/
theorem near_operation {p : LinearProgram n} (hp : p.Moderate) {x : Float32} {w q m e d : ℚ}
    (hm : 1 ≤ m) (hmax : m ≤ 2 ^ 100) (hem : e ≤ m / 200)
    (h : |w| < 2 ^ 127 → ∃ r, value x = some r ∧ |r - w| ≤ ulp w) (hq : |q| ≤ p.gain * m)
    (hw : |w - q| ≤ p.gain * e + d * m * roundoff) (hd : d + p.gain = p.noise) :
    Near x q (p.gain * e + p.noise * m * roundoff) := by
  obtain ⟨hlow, hhigh, hnoise⟩ := hp
  have herror : p.gain * e + d * m * roundoff ≤ p.gain * m / 100 := by
    have h₁ : p.gain * e ≤ p.gain * (m / 200) := mul_le_mul_of_nonneg_left hem (by linarith)
    have h₂ : d * m * roundoff ≤ 64 * p.gain * m * roundoff := by
      unfold roundoff
      gcongr
      linarith
    have h₃ : 0 ≤ p.gain * m := by positivity
    unfold roundoff at h₂ ⊢
    norm_num at h₂ ⊢
    linarith
  have hleast : (1 : ℚ) / 64 * 1 ≤ p.gain * m := by gcongr
  have hmost : p.gain * m ≤ 64 * 2 ^ 100 := by gcongr
  have hnear := near_of_close h hw hq herror (by norm_num at hleast ⊢; linarith)
    (by norm_num at hmost ⊢; linarith)
  apply hnear.mono
  rw [← hd]
  apply le_of_eq
  ring

/-- Single precision differs from the exact result by the amplified errors of the inputs and
the noise of the operations. -/
theorem near_run {p : LinearProgram n} (hp : p.Tame) {x : Fin n → Float32} {v : Fin n → ℚ}
    {m e : ℚ} (hm : 1 ≤ m) (hmax : m ≤ 2 ^ 100) (hem : e ≤ m / 200)
    (hx : ∀ i, Near (x i) (v i) e) (hv : ∀ i, |v i| ≤ m) :
    Near (p.run x) (p.exact v) (p.gain * e + p.noise * m * roundoff) ∧
      |p.exact v| ≤ p.gain * m := by
  induction p with
  | input i =>
      refine ⟨(hx i).mono ?_, ?_⟩
      · simp [gain, noise]
      · change |v i| ≤ 1 * m
        rw [one_mul]
        exact hv i
  | add p q ihp ihq =>
      obtain ⟨⟨a, ha, hca⟩, hap⟩ := ihp hp.1
      obtain ⟨⟨b, hb, hcb⟩, hbq⟩ := ihq hp.2.1
      have hsize : |p.exact v + q.exact v| ≤ (p.gain + q.gain) * m := by
        rw [add_mul]
        exact (abs_add_le _ _).trans (add_le_add hap hbq)
      refine ⟨?_, hsize⟩
      apply near_operation hp.2.2 hm hmax hem (add_close ha hb) hsize _ rfl
      have hsplit : a + b - (p.exact v + q.exact v) = (a - p.exact v) + (b - q.exact v) := by ring
      rw [hsplit, gain]
      exact (abs_add_le _ _).trans (by linarith)
  | sub p q ihp ihq =>
      obtain ⟨⟨a, ha, hca⟩, hap⟩ := ihp hp.1
      obtain ⟨⟨b, hb, hcb⟩, hbq⟩ := ihq hp.2.1
      have hsize : |p.exact v - q.exact v| ≤ (p.gain + q.gain) * m := by
        rw [add_mul]
        exact (abs_sub _ _).trans (add_le_add hap hbq)
      refine ⟨?_, hsize⟩
      apply near_operation hp.2.2 hm hmax hem (sub_close ha hb) hsize _ rfl
      have hsplit : a - b - (p.exact v - q.exact v) = (a - p.exact v) - (b - q.exact v) := by ring
      rw [hsplit, gain]
      exact (abs_sub _ _).trans (by linarith)
  | mul p c ih =>
      obtain ⟨⟨a, ha, hca⟩, hap⟩ := ih hp.1
      have hsize : |p.exact v * c.number| ≤ p.gain * |c.number| * m := by
        rw [abs_mul, mul_right_comm]
        gcongr
      refine ⟨?_, hsize⟩
      apply near_operation hp.2 hm hmax hem (mul_close ha c.stands) hsize _ rfl
      rw [← sub_mul, abs_mul, gain]
      have := mul_le_mul_of_nonneg_right hca (abs_nonneg c.number)
      linarith
  | mulLeft c p ih =>
      obtain ⟨⟨a, ha, hca⟩, hap⟩ := ih hp.1
      have hsize : |c.number * p.exact v| ≤ |c.number| * p.gain * m := by
        rw [abs_mul, mul_assoc]
        gcongr
      refine ⟨?_, hsize⟩
      apply near_operation hp.2 hm hmax hem (mul_close c.stands ha) hsize _ rfl
      rw [← mul_sub, abs_mul, gain]
      have := mul_le_mul_of_nonneg_left hca (abs_nonneg c.number)
      linarith

/-- The same for factors `q` that the constants of the program stand for. -/
theorem near_of_coefficients {p : LinearProgram n} (hp : p.Tame) {q : Fin n → ℚ} {noise d : ℚ}
    (hnoise : p.noise ≤ noise) (hq : ∑ i, |p.coefficient i - q i| ≤ d) {x : Fin n → Float32}
    {v : Fin n → ℚ} {m : ℚ} (hm : 1 ≤ m) (hmax : m ≤ 2 ^ 100) (hx : ∀ i, Near (x i) (v i) 0)
    (hv : ∀ i, |v i| ≤ m) : Near (p.run x) (∑ i, q i * v i) (noise * m * roundoff + d * m) := by
  obtain ⟨⟨a, ha, hclose⟩, -⟩ := near_run hp hm hmax (by linarith) hx hv
  refine ⟨a, ha, ?_⟩
  have hroundoff : 0 ≤ roundoff := by norm_num [roundoff]
  have hfactors : |p.exact v - ∑ i, q i * v i| ≤ d * m := by
    rw [exact_eq_sum, ← Finset.sum_sub_distrib]
    calc
      |∑ i, (p.coefficient i * v i - q i * v i)| ≤
          ∑ i, |p.coefficient i * v i - q i * v i| := Finset.abs_sum_le_sum_abs _ _
      _ ≤ ∑ i, |p.coefficient i - q i| * m := by
        apply Finset.sum_le_sum
        intro i _
        rw [← sub_mul, abs_mul]
        exact mul_le_mul_of_nonneg_left (hv i) (abs_nonneg _)
      _ ≤ d * m := by
        rw [← Finset.sum_mul]
        gcongr
  calc
    |a - ∑ i, q i * v i| ≤ |a - p.exact v| + |p.exact v - ∑ i, q i * v i| := abs_sub_le _ _ _
    _ ≤ p.noise * m * roundoff + d * m := by
      rw [mul_zero, zero_add] at hclose
      exact add_le_add hclose hfactors
    _ ≤ noise * m * roundoff + d * m := by gcongr

end LinearProgram

end RaspiOrbSlam.Foundation
