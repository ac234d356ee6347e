import RaspiOrbSlam.TooJpeg.Transform
import Mathlib.Tactic.FinCases

/-! # The precision of the forward transform -/

namespace RaspiOrbSlam.TooJpeg

open Foundation Foundation.Binary32

/-- The fast transform as a program, one for each of its results. -/
def cosineProgram : Fin 8 → LinearProgram 8 := cosine .mul .input

theorem run_cosineProgram (x : Fin 8 → Float32) (k : Fin 8) :
    (cosineProgram k).run x = cosine (fun v c => v * c.float) x k := by
  fin_cases k <;> rfl

theorem tame_cosineProgram : ∀ k, (cosineProgram k).Tame := by
  decide +kernel

/-- What the programs amplify, also in relation to the scaling constants. -/
theorem gain_bounds : ∀ k, 8 ≤ (cosineProgram k).gain ∧ (cosineProgram k).gain ≤ 14 ∧
    (cosineProgram k).gain ≤ 48 * (aanScaleFactors k).number := by
  decide +kernel

theorem noise_bounds : ∀ k, 0 ≤ (cosineProgram k).noise ∧ (cosineProgram k).noise ≤ 65 ∧
    (cosineProgram k).noise ≤ 235 * (aanScaleFactors k).number := by
  decide +kernel

theorem aanScaleFactors_bounds : ∀ k, 1 / 4 ≤ (aanScaleFactors k).number ∧
    (aanScaleFactors k).number ≤ 3 / 2 := by
  decide +kernel

/-- The exact result of the two passes. -/
def exactTransform (v : Fin 8 → Fin 8 → ℚ) (r c : Fin 8) : ℚ :=
  (cosineProgram r).exact fun i => (cosineProgram c).exact (v i)

section Passes

variable {block : Nat → Float32} {v : Fin 8 → Fin 8 → ℚ} {m e : ℚ}

/-- The error of both passes, for values up to `m` with errors up to `e`. -/
theorem near_transform (hm : 1 ≤ m) (hmax : m ≤ 2 ^ 90) (hem : e ≤ m / 400)
    (hblock : ∀ r c : Fin 8, Near (block (r * 8 + c)) (v r c) e) (hv : ∀ r c, |v r c| ≤ m)
    (r c : Fin 8) :
    Near (transformColumns (transformRows block) (r * 8 + c)) (exactTransform v r c)
        ((cosineProgram r).gain *
            ((cosineProgram c).gain * e + (cosineProgram c).noise * m * roundoff) +
          (cosineProgram r).noise * ((cosineProgram c).gain * m) * roundoff) ∧
      |exactTransform v r c| ≤ (cosineProgram r).gain * ((cosineProgram c).gain * m) := by
  obtain ⟨hlow, hhigh, -⟩ := gain_bounds c
  obtain ⟨-, hnoise, -⟩ := noise_bounds c
  have hrows : ∀ i : Fin 8, Near (transformRows block (i * 8 + c)) ((cosineProgram c).exact (v i))
      ((cosineProgram c).gain * e + (cosineProgram c).noise * m * roundoff) ∧
      |(cosineProgram c).exact (v i)| ≤ (cosineProgram c).gain * m := by
    intro i
    rw [transformRows_apply, ← run_cosineProgram]
    exact LinearProgram.near_run (tame_cosineProgram c) hm (hmax.trans (by norm_num))
      (hem.trans (by linarith)) (hblock i) (hv i)
  rw [transformColumns_apply, ← run_cosineProgram]
  apply LinearProgram.near_run (tame_cosineProgram r) _ _ _ (fun i => (hrows i).1)
    fun i => (hrows i).2
  · nlinarith
  · norm_num at hmax ⊢
    nlinarith
  · unfold roundoff
    norm_num
    nlinarith

end Passes

theorem sum_coefficient : ∀ k, k ≠ 0 → ∑ i, (cosineProgram k).coefficient i = 0 := by
  decide +kernel

theorem sum_coefficient_zero : ∑ i, (cosineProgram 0).coefficient i = 8 := by
  decide +kernel

theorem sum_abs_coefficient : ∀ k, ∑ i, |(cosineProgram k).coefficient i| ≤
    8 * (aanScaleFactors k).number := by
  decide +kernel

/-- A constant part of the values only appears in the first coefficient. -/
theorem exactTransform_add_const (v : Fin 8 → Fin 8 → ℚ) (h : ℚ) (r c : Fin 8) :
    exactTransform (fun i j => v i j + h) r c =
      exactTransform v r c + if r = 0 ∧ c = 0 then 64 * h else 0 := by
  simp only [exactTransform, LinearProgram.exact_add_const]
  split
  case isTrue hzero =>
    rw [hzero.1, hzero.2, sum_coefficient_zero]
    ring
  case isFalse hzero =>
    rcases not_and_or.mp hzero with hr | hc
    · rw [sum_coefficient r hr, zero_mul]
    · rw [sum_coefficient c hc, zero_mul, mul_zero]

theorem abs_exactTransform_le {v : Fin 8 → Fin 8 → ℚ} {m : ℚ} (hm : 0 ≤ m)
    (hv : ∀ r c, |v r c| ≤ m) (r c : Fin 8) :
    |exactTransform v r c| ≤
      64 * ((aanScaleFactors r).number * (aanScaleFactors c).number) * m := by
  have hc := (aanScaleFactors_bounds c).1
  have hr := (aanScaleFactors_bounds r).1
  have hrow : ∀ i, |(cosineProgram c).exact (v i)| ≤ 8 * (aanScaleFactors c).number * m := by
    intro i
    exact (LinearProgram.abs_exact_le _ (hv i)).trans
      (mul_le_mul_of_nonneg_right (sum_abs_coefficient c) hm)
  calc
    |exactTransform v r c| ≤ (∑ i, |(cosineProgram r).coefficient i|) *
        (8 * (aanScaleFactors c).number * m) := LinearProgram.abs_exact_le _ hrow
    _ ≤ 8 * (aanScaleFactors r).number * (8 * (aanScaleFactors c).number * m) := by
      apply mul_le_mul_of_nonneg_right (sum_abs_coefficient r)
      exact mul_nonneg (by linarith) hm
    _ = 64 * ((aanScaleFactors r).number * (aanScaleFactors c).number) * m := by ring

/-- The product of the scaling constants behind a coefficient. -/
def scaling (r c : Fin 8) : ℚ := 8 * ((aanScaleFactors r).number * (aanScaleFactors c).number)

theorem scaling_bounds (r c : Fin 8) : 1 / 2 ≤ scaling r c ∧ scaling r c ≤ 18 := by
  obtain ⟨hrlow, hrhigh⟩ := aanScaleFactors_bounds r
  obtain ⟨hclow, hchigh⟩ := aanScaleFactors_bounds c
  unfold scaling
  constructor <;> nlinarith

/-- The scaled result of the two passes, without the quantization. -/
def exactCoefficient (v : Fin 8 → Fin 8 → ℚ) (r c : Fin 8) : ℚ :=
  exactTransform v r c / scaling r c

/-- A block of floats that are close to the samples `v`, which lie within 127.5 around `-h`. -/
structure Samples (block : Nat → Float32) (v : Fin 8 → Fin 8 → ℚ) (h : ℚ) : Prop where
  near : ∀ r c : Fin 8, Near (block (r * 8 + c)) (v r c) (1 / 5000)
  centred : ∀ r c, |v r c + h| ≤ 127501 / 1000
  low : 0 ≤ h
  high : h ≤ 1 / 2

/-- The other coefficients stay below 1024, whatever the samples. -/
theorem Samples.abs_exactCoefficient_le {block : Nat → Float32} {v : Fin 8 → Fin 8 → ℚ} {h : ℚ}
    (hs : Samples block v h) (r c : Fin 8) :
    |exactCoefficient v r c + if r = 0 ∧ c = 0 then 8 * h else 0| ≤ 1020008 / 1000 := by
  obtain ⟨hlow, -⟩ := scaling_bounds r c
  have hbound := abs_exactTransform_le (by norm_num) hs.centred r c
  rw [exactTransform_add_const] at hbound
  have hsplit : exactCoefficient v r c + (if r = 0 ∧ c = 0 then 8 * h else 0) =
      (exactTransform v r c + if r = 0 ∧ c = 0 then 64 * h else 0) / scaling r c := by
    rw [exactCoefficient, add_div]
    congr 1
    split
    case isTrue hzero =>
      have hone : scaling 0 0 = 8 := by decide +kernel
      rw [hzero.1, hzero.2, hone]
      ring
    case isFalse => rw [zero_div]
  rw [hsplit, abs_div, abs_of_pos (by linarith : 0 < scaling r c), div_le_iff₀ (by linarith)]
  unfold scaling
  linarith

theorem step_bounds {q : UInt8} (hq : q ≠ 0) : (1 : ℚ) ≤ q.toNat ∧ (q.toNat : ℚ) ≤ 255 := by
  have hne : q.toNat ≠ 0 := fun h => hq (UInt8.toNat_inj.mp h)
  have hlt := q.toNat_lt
  exact ⟨by exact_mod_cast Nat.one_le_iff_ne_zero.mpr hne, by exact_mod_cast Nat.le_of_lt_succ hlt⟩

/-- The reciprocal as the encoder computes it. -/
theorem factor_close (r c : Fin 8) :
    ∃ f, value (factor r c) = some f ∧ |f * scaling r c - 1| ≤ 2 ^ (-22 : Int) := by
  have hall : ∀ r c, (value (factor r c)).any
      (fun f => |f * scaling r c - 1| ≤ 2 ^ (-22 : Int)) = true := by
    decide +kernel
  simpa [Option.any_eq_true] using hall r c

theorem scale_close (r c : Fin 8) {q : UInt8} (hq : q ≠ 0) :
    ∃ s, value (factor r c / q.toFloat32) = some s ∧
      |s * q.toNat * scaling r c - 1| ≤ 2 ^ (-21 : Int) := by
  obtain ⟨f, hf, hclose⟩ := factor_close r c
  obtain ⟨hlow, hhigh⟩ := scaling_bounds r c
  obtain ⟨hq1, hq255⟩ := step_bounds hq
  obtain ⟨hfN, hfN'⟩ := abs_le.mp hclose
  norm_num at hfN hfN'
  have hfpos : 0 < f := by
    by_contra hneg
    nlinarith
  have hf3 : f ≤ 3 := by nlinarith
  have hquotient : |f / q.toNat| = f / q.toNat := abs_of_nonneg (by positivity)
  have hquotient3 : f / q.toNat ≤ 3 := (div_le_self hfpos.le hq1).trans hf3
  obtain ⟨s, hs, hulp⟩ := div_close hf (value_toFloat32 q) (by linarith)
    (by rw [hquotient]; exact hquotient3.trans_lt (by norm_num))
  refine ⟨s, hs, ?_⟩
  have hpos : 0 ≤ (q.toNat : ℚ) * scaling r c := by positivity
  have hsplit : s * q.toNat * scaling r c - 1 =
      (s - f / q.toNat) * (q.toNat * scaling r c) + (f * scaling r c - 1) := by
    field_simp
    ring
  calc
    |s * q.toNat * scaling r c - 1| ≤
        |s - f / q.toNat| * (q.toNat * scaling r c) + |f * scaling r c - 1| := by
      rw [hsplit, ← abs_of_nonneg hpos, ← abs_mul, abs_of_nonneg hpos]
      exact abs_add_le _ _
    _ ≤ (2 ^ (-23 : Int) * (f / q.toNat) + 2 ^ (-149 : Int)) * (q.toNat * scaling r c) +
        2 ^ (-22 : Int) := by
      rw [ulp, hquotient] at hulp
      exact add_le_add (mul_le_mul_of_nonneg_right hulp hpos) hclose
    _ = 2 ^ (-23 : Int) * (f * scaling r c) + 2 ^ (-149 : Int) * (q.toNat * scaling r c) +
        2 ^ (-22 : Int) := by
      field_simp
    _ ≤ 2 ^ (-23 : Int) * (1 + 2 ^ (-22 : Int)) + 2 ^ (-149 : Int) * (255 * 18) +
        2 ^ (-22 : Int) := by
      gcongr
      norm_num
      linarith
    _ ≤ 2 ^ (-21 : Int) := by norm_num

section Coefficients

variable {block : Nat → Float32} {v : Fin 8 → Fin 8 → ℚ} {h : ℚ}

theorem Samples.bounded (hs : Samples block v h) (r c : Fin 8) : |v r c| ≤ 129 := by
  have hcentred := abs_le.mp (hs.centred r c)
  have hlow := hs.low
  have hhigh := hs.high
  rw [abs_le]
  constructor <;> linarith

/-- The two passes, in units of the scaling constants. -/
theorem Samples.transform_close (hs : Samples block v h) (r c : Fin 8) :
    ∃ t, value (transformColumns (transformRows block) (r * 8 + c)) = some t ∧
      |t / scaling r c - exactCoefficient v r c| ≤ 102 / 1000 ∧
      |exactCoefficient v r c| ≤ 1025 := by
  obtain ⟨⟨t, ht, hclose⟩, -⟩ := near_transform (by norm_num) (by norm_num) (by norm_num)
    hs.near hs.bounded r c
  obtain ⟨-, -, hgr⟩ := gain_bounds r
  obtain ⟨hgc8, -, hgc⟩ := gain_bounds c
  obtain ⟨-, -, hnr⟩ := noise_bounds r
  obtain ⟨hnc0, -, hnc⟩ := noise_bounds c
  obtain ⟨hlow, -⟩ := scaling_bounds r c
  refine ⟨t, ht, ?_, ?_⟩
  · have har := (aanScaleFactors_bounds r).1
    have hac := (aanScaleFactors_bounds c).1
    have hpos : 0 < scaling r c := by linarith
    rw [exactCoefficient, ← sub_div, abs_div, abs_of_pos hpos, div_le_iff₀ hpos]
    apply hclose.trans
    have herror : (cosineProgram c).gain * (1 / 5000) + (cosineProgram c).noise * 129 * roundoff ≤
        (aanScaleFactors c).number * (48 / 5000 + 235 * 129 * roundoff) := by
      unfold roundoff
      norm_num
      linarith
    calc
      _ ≤ (48 * (aanScaleFactors r).number) *
            ((aanScaleFactors c).number * (48 / 5000 + 235 * 129 * roundoff)) +
          (235 * (aanScaleFactors r).number) * (48 * (aanScaleFactors c).number * 129) *
            roundoff := by
        have hroundoff : 0 ≤ roundoff := by norm_num [roundoff]
        have hgain : 0 ≤ (cosineProgram c).gain := by linarith
        gcongr
      _ ≤ 102 / 1000 * scaling r c := by
        have hproduct : 0 < (aanScaleFactors r).number * (aanScaleFactors c).number := by positivity
        unfold roundoff scaling
        norm_num
        linarith
  · have hbound := abs_le.mp (hs.abs_exactCoefficient_le r c)
    have := hs.low
    have := hs.high
    rw [abs_le]
    split at hbound <;> constructor <;> linarith

/-- Scaling and quantizing a coefficient, before the rounding to an integer. -/
theorem Samples.near_scaled (hs : Samples block v h) (r c : Fin 8) {q : UInt8} (hq : q ≠ 0) :
    Near (transformColumns (transformRows block) (r * 8 + c) * (factor r c / q.toFloat32))
      (exactCoefficient v r c / q.toNat) (1 / 8 / q.toNat) := by
  obtain ⟨t, ht, hclose, hbound⟩ := hs.transform_close r c
  obtain ⟨s, hscale, hunit⟩ := scale_close r c hq
  obtain ⟨hq1, hq255⟩ := step_bounds hq
  have hpos : 0 < scaling r c := by linarith [(scaling_bounds r c).1]
  generalize exactCoefficient v r c = w at *
  obtain ⟨x, hx⟩ : ∃ x, t / scaling r c = x := ⟨_, rfl⟩
  obtain ⟨y, hy⟩ : ∃ y, s * q.toNat * scaling r c = y := ⟨_, rfl⟩
  have hproduct : t * s = x * y / q.toNat := by
    rw [← hx, ← hy]
    field_simp
  rw [hx] at hclose
  rw [hy] at hunit
  have hxbound : |x| ≤ 1026 := by
    have := abs_sub_abs_le_abs_sub x w
    linarith
  have hxy : |x * y - w| ≤ 103 / 1000 := by
    have hsplit : x * y - w = x * (y - 1) + (x - w) := by ring
    calc
      |x * y - w| ≤ |x| * |y - 1| + |x - w| := by
        rw [hsplit, ← abs_mul]
        exact abs_add_le _ _
      _ ≤ 1026 * 2 ^ (-21 : Int) + 102 / 1000 := by gcongr
      _ ≤ 103 / 1000 := by norm_num
  have hxybound : |x * y| ≤ 1026 := by
    have := abs_sub_abs_le_abs_sub (x * y) w
    linarith
  have hquotient : |x * y / q.toNat| ≤ 1026 / q.toNat := by
    rw [abs_div, Nat.abs_cast]
    gcongr
  have hbelow : 1026 / (q.toNat : ℚ) ≤ 1026 := div_le_self (by norm_num) hq1
  obtain ⟨p, hp, hulp⟩ := mul_close ht hscale (by rw [hproduct]; linarith)
  refine ⟨p, hp, ?_⟩
  rw [hproduct, ulp] at hulp
  have hleast : (2 : ℚ) ^ (-149 : Int) ≤ 2 ^ (-100 : Int) / q.toNat := by
    rw [le_div_iff₀ (by linarith)]
    norm_num
    linarith
  calc
    |p - w / q.toNat| ≤ |p - x * y / q.toNat| + |x * y / q.toNat - w / q.toNat| :=
      abs_sub_le _ _ _
    _ ≤ 2 ^ (-23 : Int) * (1026 / q.toNat) + 2 ^ (-100 : Int) / q.toNat +
        103 / 1000 / q.toNat := by
      rw [← sub_div, abs_div, Nat.abs_cast]
      have := mul_le_mul_of_nonneg_left hquotient (by positivity : (0 : ℚ) ≤ 2 ^ (-23 : Int))
      have hlast : |x * y - w| / q.toNat ≤ 103 / 1000 / q.toNat := by gcongr
      linarith
    _ = (2 ^ (-23 : Int) * 1026 + 2 ^ (-100 : Int) + 103 / 1000) / q.toNat := by ring
    _ ≤ 1 / 8 / q.toNat := by
      gcongr
      norm_num

end Coefficients

/-- The mantissa of a power of two. -/
theorem leading_pos : 0 < 8388608 := by decide

/-- The half that is added before the conversion to an integer. -/
def half : Constant := .ofMantissa 0.5 .positive 8388608 24 leading_pos rfl
def minusHalf : Constant := .ofMantissa (-0.5) .negative 8388608 24 leading_pos rfl

/-- Away from zero by a half, then towards zero: the nearest integer up to the rounding of the
sum. -/
theorem nearest_close {x : Float32} {a : ℚ} (hx : value x = some a) (ha : |a| ≤ 1100) :
    |((nearest x).toInt : ℚ) - a| ≤ 1 / 2 + 1 / 5000 := by
  have hhalf : half.number = 1 / 2 := by decide +kernel
  have hminus : minusHalf.number = -1 / 2 := by decide +kernel
  have hsum : ∀ c : Constant, |c.number| ≤ 1 / 2 → ∃ r, value (x + c.float) = some r ∧
      |r - (a + c.number)| ≤ 1 / 5000 ∧ (x + c.float).toModel.toInt32.toInt = truncate r := by
    intro c hc
    have hsize : |a + c.number| ≤ 1101 := (abs_add_le _ _).trans (by linarith)
    obtain ⟨r, hr, hulp⟩ := add_close hx c.stands (hsize.trans_lt (by norm_num))
    have hclose : |r - (a + c.number)| ≤ 1 / 5000 := by
      have := mul_le_mul_of_nonneg_left hsize (by positivity : (0 : ℚ) ≤ 2 ^ (-23 : Int))
      rw [ulp] at hulp
      norm_num at hulp this ⊢
      linarith
    refine ⟨r, hr, hclose, toInt32_eq hr ?_⟩
    have := abs_sub_abs_le_abs_sub r (a + c.number)
    norm_num
    linarith
  by_cases hsign : 0 ≤ x
  · have hnonneg := (nonneg_iff hx).mp hsign
    obtain ⟨r, -, hclose, hint⟩ := hsum half (by rw [hhalf]; norm_num)
    rw [hhalf, abs_le] at hclose
    have hr : 0 ≤ r := by linarith
    rw [nearest, if_pos hsign]
    change |((x + half.float).toModel.toInt32.toInt : ℚ) - a| ≤ _
    have hfloor := Int.floor_le r
    have hceil := Int.lt_floor_add_one r
    rw [hint, truncate, if_pos hr, abs_le]
    constructor <;> linarith
  · have hneg : a < 0 := lt_of_not_ge fun h => hsign ((nonneg_iff hx).mpr h)
    obtain ⟨r, -, hclose, hint⟩ := hsum minusHalf (by rw [hminus]; norm_num)
    rw [hminus, abs_le] at hclose
    have hr : ¬0 ≤ r := by linarith
    rw [nearest, if_neg hsign]
    change |((x + minusHalf.float).toModel.toInt32.toInt : ℚ) - a| ≤ _
    have hfloor := Int.le_ceil r
    have hceil := Int.ceil_lt_add_one r
    rw [hint, truncate, if_neg hr, abs_le]
    constructor <;> linarith

section Levels

variable {block : Nat → Float32} {v : Fin 8 → Fin 8 → ℚ} {h : ℚ} {quant : Fin 64 → UInt8}

/-- The row and the column of an index in zigzag order. -/
def row (i : Fin 64) : Fin 8 := Fin.divNat (show Fin (8 * 8) from zigZagInv i)
def column (i : Fin 64) : Fin 8 := Fin.modNat (show Fin (8 * 8) from zigZagInv i)

theorem zigZagInv_eq (i : Fin 64) : (zigZagInv i : Nat) = row i * 8 + column i :=
  (Nat.div_add_mod' _ _).symm

/-- The quantized coefficients differ from the exact transform in units of the quantization
step by a half and the errors of the floats. -/
theorem Samples.level_close (hs : Samples block v h) (hquant : ∀ i, quant i ≠ 0) (i : Fin 64) :
    |((level (scaleBlock block (scaledTable quant)) i).toInt : ℚ) -
        exactCoefficient v (row i) (column i) / (quant i).toNat| ≤
      1 / 2 + 1 / 5000 + 1 / 8 / (quant i).toNat := by
  obtain ⟨a, ha, hclose⟩ := hs.near_scaled (row i) (column i) (hquant i)
  obtain ⟨-, -, -, hbound⟩ := hs.transform_close (row i) (column i)
  obtain ⟨hq1, -⟩ := step_bounds (hquant i)
  have hsize : |a| ≤ 1100 := by
    have hquotient : |exactCoefficient v (row i) (column i) / (quant i).toNat| ≤ 1025 := by
      rw [abs_div, Nat.abs_cast]
      exact (div_le_self (abs_nonneg _) hq1).trans hbound
    have hsmall : 1 / 8 / ((quant i).toNat : ℚ) ≤ 1 / 8 := div_le_self (by norm_num) hq1
    have := abs_sub_abs_le_abs_sub a (exactCoefficient v (row i) (column i) / (quant i).toNat)
    linarith
  rw [← scaledTable_apply quant i (zigZagInv_eq i), ← zigZagInv_eq] at ha
  have hnearest := nearest_close ha hsize
  exact (abs_sub_le _ a _).trans (add_le_add hnearest hclose)

theorem zigZagInv_zero_iff (i : Fin 64) : row i = 0 ∧ column i = 0 ↔ i = 0 := by
  have hzero : zigZagInv 0 = 0 := by decide +kernel
  have heq := zigZagInv_eq i
  constructor
  · rintro ⟨hr, hc⟩
    apply zigZagInv_injective
    rw [hzero]
    ext
    rw [heq, hr, hc]
    rfl
  · rintro rfl
    rw [hzero] at heq
    change 0 = _ at heq
    constructor <;> omega

/-- A level lies within 1021, the first one around `-8 * h` in quantization steps. -/
theorem Samples.abs_level_lt (hs : Samples block v h) (hquant : ∀ i, quant i ≠ 0) (i : Fin 64) :
    |((level (scaleBlock block (scaledTable quant)) i).toInt : ℚ) +
      if i = 0 then 8 * h / (quant i).toNat else 0| < 1021 := by
  have hclose := hs.level_close hquant i
  have hbound := hs.abs_exactCoefficient_le (row i) (column i)
  simp only [zigZagInv_zero_iff] at hbound
  obtain ⟨hq1, -⟩ := step_bounds (hquant i)
  have hsmall : 1 / 8 / ((quant i).toNat : ℚ) ≤ 1 / 8 := div_le_self (by norm_num) hq1
  have hquotient : |exactCoefficient v (row i) (column i) / (quant i).toNat +
      if i = 0 then 8 * h / (quant i).toNat else 0| ≤ 1020008 / 1000 := by
    have hsplit : exactCoefficient v (row i) (column i) / (quant i).toNat +
        (if i = 0 then 8 * h / (quant i).toNat else 0) =
        (exactCoefficient v (row i) (column i) + if i = 0 then 8 * h else 0) /
          (quant i).toNat := by
      split <;> ring
    rw [hsplit, abs_div, Nat.abs_cast]
    exact (div_le_self (abs_nonneg _) hq1).trans hbound
  rw [abs_le] at hclose hquotient
  rw [abs_lt]
  constructor <;> linarith

end Levels

end RaspiOrbSlam.TooJpeg
