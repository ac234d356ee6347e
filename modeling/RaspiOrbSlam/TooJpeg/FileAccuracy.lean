import RaspiOrbSlam.Foundation.OrthogonalTransform
import RaspiOrbSlam.TooJpeg.CosineTransform
import RaspiOrbSlam.TooJpeg.FileRoundTrip

/-! # The accuracy of a file

The coefficients of a decoded file, times their quantization steps, are close to
the transform of the picture, and the inverse transform is close to the picture. -/

namespace RaspiOrbSlam.TooJpeg

open Foundation

theorem cosineMatrix_eight (k i : Fin 8) :
    cosineMatrix 8 k i = 1 / 2 * weight k * cosine16 ((2 * i + 1) * k) := by
  have hangle : (2 * (i : ℝ) + 1) * (k * (Real.pi / (2 * (8 : ℕ)))) =
      ((2 * i + 1) * k : ℕ) * (Real.pi / 16) := by
    push_cast
    ring
  have hroot : √((if (k : ℕ) = 0 then 1 else 2) / (8 : ℕ)) = 1 / 2 * weight k := by
    rw [weight_eq]
    by_cases hk : k = 0
    · have hk' : (k : ℕ) = 0 := Fin.val_eq_of_eq hk
      rw [if_pos hk, if_pos hk', Real.sqrt_eq_iff_mul_self_eq (by positivity) (by positivity)]
      field_simp
      norm_num
    · have hk' : (k : ℕ) ≠ 0 := Fin.val_ne_of_ne hk
      rw [if_neg hk, if_neg hk', Real.sqrt_eq_iff_mul_self_eq (by positivity) (by positivity)]
      norm_num
  rw [cosineMatrix, hangle, hroot, cosine16]

theorem discreteCosine_eq_mul (v : Matrix (Fin 8) (Fin 8) ℝ) :
    (Matrix.of (discreteCosine v)) = cosineMatrix 8 * v * (cosineMatrix 8).transpose := by
  ext r c
  simp only [Matrix.mul_apply, Matrix.transpose_apply, cosineMatrix_eight, Matrix.of_apply,
    discreteCosine, Finset.sum_mul, Finset.mul_sum]
  rw [Finset.sum_comm]
  apply Finset.sum_congr rfl
  intro i _
  apply Finset.sum_congr rfl
  intro j _
  ring

theorem inverseCosine_eq_mul (F : Matrix (Fin 8) (Fin 8) ℝ) :
    (Matrix.of (inverseCosine F)) = (cosineMatrix 8).transpose * F * cosineMatrix 8 := by
  ext i j
  simp only [Matrix.mul_apply, Matrix.transpose_apply, cosineMatrix_eight, Matrix.of_apply,
    inverseCosine, Finset.sum_mul, Finset.mul_sum]
  rw [Finset.sum_comm]
  apply Finset.sum_congr rfl
  intro r _
  apply Finset.sum_congr rfl
  intro c _
  ring

/-- The error of the samples is that of the coefficients, in the sum of the squares. -/
theorem sum_sq_inverseCosine_sub (F v : Fin 8 → Fin 8 → ℝ) :
    ∑ i, ∑ j, (inverseCosine F i j - v i j) ^ 2 =
      ∑ r, ∑ c, (F r c - discreteCosine v r c) ^ 2 := by
  have henergy := energy_inverse_sub (cosineMatrix_mul_transpose 8) (Matrix.of F) (Matrix.of v)
  have hF := inverseCosine_eq_mul (Matrix.of F)
  have hv := discreteCosine_eq_mul (Matrix.of v)
  rw [← hF, ← hv] at henergy
  exact henergy

/-- The place in zigzag order of a coefficient. -/
def place (r c : Fin 8) : Fin 64 := zigZag ⟨r * 8 + c, (place_eq r c).2⟩

theorem row_place (r c : Fin 8) : row (place r c) = r := by
  apply Fin.ext
  change (zigZagInv (zigZag ⟨r * 8 + c, (place_eq r c).2⟩) : Nat) / 8 = r
  rw [zigZagInv_zigZag]
  exact (place_eq r c).1.2

theorem column_place (r c : Fin 8) : column (place r c) = c := by
  apply Fin.ext
  change (zigZagInv (zigZag ⟨r * 8 + c, (place_eq r c).2⟩) : Nat) % 8 = c
  rw [zigZagInv_zigZag]
  exact (place_eq r c).1.1

/-- A coefficient of a decoded block, times its quantization step. -/
def dequantized (quant : List UInt8) (block : List Int) (r c : Fin 8) : Int :=
  block.getD (place r c) 0 * (quant.getD (place r c) 0).toNat

/-- Half a quantization step, and what the arithmetic of the encoder adds. -/
def tolerance (step : UInt8) : ℚ := (1 / 2 + 1 / 5000) * step.toNat + 13 / 100

/-- The decoded block stands for the samples `v`. -/
structure Reconstructs (quant : List UInt8) (block : List Int) (v : Fin 8 → Fin 8 → ℚ) : Prop where
  coefficients : ∀ r c,
    |(dequantized quant block r c : ℝ) - discreteCosine (fun i j => v i j) r c| ≤
    tolerance (quant.getD (place r c) 0)
  samples : ∑ i, ∑ j, (inverseCosine (fun r c => dequantized quant block r c) i j - v i j) ^ 2 ≤
    ∑ r, ∑ c, (tolerance (quant.getD (place r c) 0) : ℝ) ^ 2

theorem Reconstructs.of_coefficients {quant : List UInt8} {block : List Int}
    {v : Fin 8 → Fin 8 → ℚ}
    (h : ∀ r c, |(dequantized quant block r c : ℝ) - discreteCosine (fun i j => v i j) r c| ≤
      tolerance (quant.getD (place r c) 0)) : Reconstructs quant block v where
  coefficients := h
  samples := by
    rw [sum_sq_inverseCosine_sub]
    apply Finset.sum_le_sum
    intro r _
    apply Finset.sum_le_sum
    intro c _
    rw [← sq_abs]
    exact pow_le_pow_left₀ (abs_nonneg _) (h r c) 2

theorem Samples.reconstructs {block : Nat → Float32} {v : Fin 8 → Fin 8 → ℚ} {h : ℚ}
    {quant : Fin 64 → UInt8} (hs : Samples block v h) (hquant : ∀ i, quant i ≠ 0) :
    Reconstructs (List.ofFn quant) (levels (scaleBlock block (scaledTable quant))) v := by
  apply Reconstructs.of_coefficients
  intro r c
  have haccuracy := hs.level_accuracy hquant (place r c)
  rw [row_place, column_place] at haccuracy
  have hlevel : (levels (scaleBlock block (scaledTable quant))).getD (place r c) 0 =
      (level (scaleBlock block (scaledTable quant)) (place r c)).toInt := by
    rw [levels, List.getD_eq_getElem _ _ (by simp), List.getElem_ofFn]
  have hstep : (List.ofFn quant).getD (place r c) 0 = quant (place r c) := by
    rw [List.getD_eq_getElem _ _ (by simp), List.getElem_ofFn]
  rw [dequantized, hlevel, hstep, tolerance]
  push_cast
  exact haccuracy

section Files

variable {ι α β : Type} {R : α → β → Prop}

theorem forall₂_map {l : List ι} {f : ι → α} {g : ι → β} (h : ∀ i ∈ l, R (f i) (g i)) :
    List.Forall₂ R (l.map f) (l.map g) := by
  induction l with
  | nil => exact .nil
  | cons i l ih => exact .cons (h i (by simp)) (ih fun j hj => h j (by simp [hj]))

theorem forall₂_flatMap {l : List ι} {f : ι → List α} {g : ι → List β}
    (h : ∀ i ∈ l, List.Forall₂ R (f i) (g i)) : List.Forall₂ R (l.flatMap f) (l.flatMap g) := by
  induction l with
  | nil => exact .nil
  | cons i l ih =>
      exact List.rel_append (h i (by simp)) (ih fun j hj => h j (by simp [hj]))

end Files

namespace ScanSetup

variable (setup : ScanSetup)

/-- The exact samples of a unit, in the order of `unitLevels`. -/
def unitSamples (mcuX mcuY : Nat) : List (List (Fin 8 → Fin 8 → ℚ)) :=
  let p := setup.picture
  let source := p.chrominanceSource setup.downsample
  ((stepsTo setup.mcuSize 8).flatMap fun blockY => (stepsTo setup.mcuSize 8).map fun blockX =>
      fun r c => p.exactLuminance (mcuX + blockX + c) (mcuY + blockY + r)) ::
    if p.isRGB then
      [[exactChrominanceBlock source setup.downsample decimalCb mcuX mcuY],
      [exactChrominanceBlock source setup.downsample decimalCr mcuX mcuY]]
    else []

def scanSamples : List (List (List (Fin 8 → Fin 8 → ℚ))) :=
  (stepsTo setup.picture.height setup.mcuSize).flatMap fun mcuY =>
    (stepsTo setup.picture.width setup.mcuSize).map fun mcuX => setup.unitSamples mcuX mcuY

end ScanSetup

/-- The blocks of a unit stand for samples, each component with its quantization table. -/
def UnitReconstructs (quant : List (List UInt8)) (unit : List (List (List Int)))
    (samples : List (List (Fin 8 → Fin 8 → ℚ))) : Prop :=
  List.Forall₂ (fun blocks target => List.Forall₂ (Reconstructs target.1) blocks target.2) unit
    (quant.zip samples)

theorem unitLevels_reconstructs (a : Arguments) (pixels : List UInt8) (mcuX mcuY : Nat) :
    UnitReconstructs (a.decoded pixels).quant ((a.setup pixels).unitLevels mcuX mcuY)
      ((a.setup pixels).unitSamples mcuX mcuY) := by
  have hluminance : List.Forall₂ (Reconstructs (List.ofFn a.quantLuminance))
      ((stepsTo (a.setup pixels).mcuSize 8).flatMap fun blockY =>
        (stepsTo (a.setup pixels).mcuSize 8).map fun blockX => levels (scaleBlock
          (luminanceBlock (a.picture pixels) (mcuX + blockX) (mcuY + blockY))
            (scaledTable a.quantLuminance)))
      ((stepsTo (a.setup pixels).mcuSize 8).flatMap fun blockY =>
        (stepsTo (a.setup pixels).mcuSize 8).map fun blockX => fun r c =>
          (a.picture pixels).exactLuminance (mcuX + blockX + c) (mcuY + blockY + r)) := by
    apply forall₂_flatMap
    intro blockY _
    apply forall₂_map
    intro blockX _
    exact (luminanceBlock_samples _ _ _).reconstructs (quantTable_ne_zero _ _)
  have hchrominance : ∀ {convert exact}, Conversion convert exact →
      List.Forall₂ (Reconstructs (List.ofFn a.quantChrominance))
        [levels (scaleBlock (chrominanceBlock (a.picture pixels) (a.isRGB && a.downsample) convert
          mcuX mcuY) (scaledTable a.quantChrominance))]
        [exactChrominanceBlock ((a.picture pixels).chrominanceSource (a.isRGB && a.downsample))
          (a.isRGB && a.downsample) exact mcuX mcuY] := by
    intro convert exact hconvert
    exact .cons ((chrominanceBlock_samples hconvert _ _ _ _).reconstructs
      (quantTable_ne_zero _ _)) .nil
  rw [UnitReconstructs, ScanSetup.unitLevels, ScanSetup.unitSamples, Arguments.decoded]
  cases hrgb : a.isRGB with
  | false =>
      have hpicture : (a.setup pixels).picture.isRGB = false := hrgb
      simp only [hpicture, Bool.false_eq_true, if_false]
      exact .cons hluminance .nil
  | true =>
      have hpicture : (a.setup pixels).picture.isRGB = true := hrgb
      simp only [hpicture, if_true]
      exact .cons hluminance (.cons (hchrominance conversion_blue)
        (.cons (hchrominance conversion_red) .nil))

theorem decoded_reconstructs (a : Arguments) (pixels : List UInt8) :
    List.Forall₂ (UnitReconstructs (a.decoded pixels).quant) (a.decoded pixels).units
      (a.setup pixels).scanSamples := by
  apply forall₂_flatMap
  intro mcuY _
  apply forall₂_map
  intro mcuX _
  exact unitLevels_reconstructs a pixels mcuX mcuY

/-- For all arguments that are accepted, the file is written without a fault, and a decoder that
only knows the format finds the dimensions, the comment, the tables and the integers. These stand
for the picture, with the chrominance of `chrominanceSource`: every coefficient is as close as
quantization allows, and so are the samples in the mean. -/
theorem writeJpeg_preserves {a : Arguments} {pixels : List UInt8} (h : a.Valid pixels)
    (planes : Planes) :
    ∃ bytes, writeJpeg a planes = .ok (true, bytes) ∧
      decodeFile bytes = some (a.decoded pixels) ∧
      List.Forall₂ (UnitReconstructs (a.decoded pixels).quant) (a.decoded pixels).units
        (a.setup pixels).scanSamples := by
  obtain ⟨bytes, hwrite, hdecode⟩ := writeJpeg_decodes h planes
  exact ⟨bytes, hwrite, hdecode, decoded_reconstructs a pixels⟩

/-- Two pixels in colours, with a comment, halved in both directions. -/
theorem writeJpeg_preserves_pixels :
    let a : Arguments := ⟨true, some [10, 20, 30, 200, 100, 50], 2, 1, true, true, 80, true,
      some [0x74, 0x61, 0x6E, 0x6B, 0]⟩
    ∃ bytes, writeJpeg a ⟨fun _ => 0, fun _ => 0, fun _ => 0⟩ = .ok (true, bytes) ∧
      decodeFile bytes = some (a.decoded [10, 20, 30, 200, 100, 50]) ∧
      List.Forall₂ (UnitReconstructs (a.decoded [10, 20, 30, 200, 100, 50]).quant)
        (a.decoded [10, 20, 30, 200, 100, 50]).units
        (a.setup [10, 20, 30, 200, 100, 50]).scanSamples := by
  intro a
  have hvalid : a.Valid [10, 20, 30, 200, 100, 50] := by
    refine ⟨rfl, rfl, ⟨by decide, by decide, by decide, by decide⟩, ?_⟩
    rintro memory ⟨rfl⟩
    decide
  exact writeJpeg_preserves hvalid _

end RaspiOrbSlam.TooJpeg
