import RaspiOrbSlam.TooJpeg.Precision
import RaspiOrbSlam.TooJpeg.Sampling
import Mathlib.Data.Fin.VecNotation

/-! # The precision of the colour conversion

The samples of a block are close to the luminance and the chrominance in decimal
fractions, and stay within the range for which the coefficients have codes. -/

namespace RaspiOrbSlam.TooJpeg

open Foundation Foundation.Binary32

/-- The conversions as programs over red, green, blue and 128. -/
def lumaProgram : LinearProgram 4 :=
  .sub (.add (.add (.mulLeft (.ofMantissa 0.299 .positive 10032775 25 (by decide) rfl) (.input 0))
    (.mulLeft (.ofMantissa 0.587 .positive 9848226 24 (by decide) rfl) (.input 1)))
    (.mulLeft (.ofMantissa 0.114 .positive 15300821 27 (by decide) rfl) (.input 2))) (.input 3)

def blueProgram : LinearProgram 4 :=
  .add (.sub (.mulLeft (.ofMantissa (-0.16874) .negative 11323950 26 (by decide) rfl) (.input 0))
    (.mulLeft (.ofMantissa 0.33126 .positive 11115241 25 (by decide) rfl) (.input 1)))
    (.mulLeft half (.input 2))

def redProgram : LinearProgram 4 :=
  .sub (.sub (.mulLeft half (.input 0))
    (.mulLeft (.ofMantissa 0.41869 .positive 14048905 25 (by decide) rfl) (.input 1)))
    (.mulLeft (.ofMantissa 0.08131 .positive 10913243 27 (by decide) rfl) (.input 2))

/-- The luminance and the chrominance in decimal fractions. -/
def decimalY (r g b : ℚ) : ℚ := (299 * r + 587 * g + 114 * b) / 1000
def decimalCb (r g b : ℚ) : ℚ := (-16874 * r - 33126 * g + 50000 * b) / 100000
def decimalCr (r g b : ℚ) : ℚ := (50000 * r - 41869 * g - 8131 * b) / 100000

theorem tame_programs : lumaProgram.Tame ∧ blueProgram.Tame ∧ redProgram.Tame := by
  decide +kernel

theorem noise_le : lumaProgram.noise ≤ 489 / 100 ∧ blueProgram.noise ≤ 3 ∧
    redProgram.noise ≤ 3 := by
  decide +kernel

/-- The factors of the decimal fractions. -/
def lumaFactors : Fin 4 → ℚ := ![299 / 1000, 587 / 1000, 114 / 1000, -1]
def blueFactors : Fin 4 → ℚ := ![-16874 / 100000, -33126 / 100000, 1 / 2, 0]
def redFactors : Fin 4 → ℚ := ![1 / 2, -41869 / 100000, -8131 / 100000, 0]

theorem factors_close :
    ∑ i, |lumaProgram.coefficient i - lumaFactors i| ≤ 1 / 10 ^ 7 ∧
    ∑ i, |blueProgram.coefficient i - blueFactors i| ≤ 1 / 10 ^ 7 ∧
    ∑ i, |redProgram.coefficient i - redFactors i| ≤ 1 / 10 ^ 7 := by
  decide +kernel

section Pixels

/-- The inputs of the programs. -/
def inputs (r g b : Float32) : Fin 4 → Float32 := ![r, g, b, 128]

theorem run_programs (r g b : Float32) :
    lumaProgram.run (inputs r g b) = rgb2y r g b - 128 ∧
    blueProgram.run (inputs r g b) = rgb2cb r g b ∧
    redProgram.run (inputs r g b) = rgb2cr r g b :=
  ⟨rfl, rfl, rfl⟩

variable {r g b : Nat} {m : ℚ}

/-- The numbers that the inputs stand for. -/
def counts (r g b : Nat) : Fin 4 → ℚ := ![r, g, b, 128]

theorem near_inputs (hm : 128 ≤ m) (hmax : m ≤ 2000) (hr : r ≤ m) (hg : g ≤ m) (hb : b ≤ m) :
    (∀ i, Near (inputs (toFloat r) (toFloat g) (toFloat b) i) (counts r g b i) 0) ∧
      ∀ i, |counts r g b i| ≤ m := by
  have hcount : ∀ n : Nat, (n : ℚ) ≤ m → Near (toFloat n) n 0 := by
    intro n hn
    have hsmall : n ≤ 2000 := by exact_mod_cast hn.trans hmax
    have hlt : n < 2 ^ 24 := by omega
    exact ⟨n, ofInt_exact hlt, by simp⟩
  constructor
  · intro i
    fin_cases i
    · exact hcount r hr
    · exact hcount g hg
    · exact hcount b hb
    · exact hcount 128 (by norm_num; exact hm)
  · intro i
    fin_cases i
    · exact (Nat.abs_cast r).trans_le hr
    · exact (Nat.abs_cast g).trans_le hg
    · exact (Nat.abs_cast b).trans_le hb
    · exact (abs_of_pos (by norm_num : (0 : ℚ) < 128)).trans_le hm

theorem sum_factors :
    ∑ i, lumaFactors i * counts r g b i = decimalY r g b - 128 ∧
    ∑ i, blueFactors i * counts r g b i = decimalCb r g b ∧
    ∑ i, redFactors i * counts r g b i = decimalCr r g b := by
  simp only [Fin.sum_univ_four, lumaFactors, blueFactors, redFactors, counts, decimalY, decimalCb,
    decimalCr]
  refine ⟨?_, ?_, ?_⟩ <;> simp <;> ring

theorem near_luminance (hr : r ≤ 255) (hg : g ≤ 255) (hb : b ≤ 255) :
    Near (rgb2y (toFloat r) (toFloat g) (toFloat b) - 128) (decimalY r g b - 128) (1 / 5000) := by
  obtain ⟨hx, hv⟩ := near_inputs (m := 255) (r := r) (g := g) (b := b) (by norm_num) (by norm_num)
    (by exact_mod_cast hr) (by exact_mod_cast hg) (by exact_mod_cast hb)
  have hnear := LinearProgram.near_of_coefficients tame_programs.1 noise_le.1 factors_close.1
    (by norm_num) (by norm_num) hx hv
  rw [(run_programs _ _ _).1, sum_factors.1] at hnear
  exact hnear.mono (by norm_num [roundoff])

/-- The chrominance of values up to `m`, which are sums of components. -/
theorem near_chrominance (hm : 128 ≤ m) (hmax : m ≤ 2000) (hr : r ≤ m) (hg : g ≤ m) (hb : b ≤ m) :
    Near (rgb2cb (toFloat r) (toFloat g) (toFloat b)) (decimalCb r g b) (m / (2 * 10 ^ 6)) ∧
    Near (rgb2cr (toFloat r) (toFloat g) (toFloat b)) (decimalCr r g b) (m / (2 * 10 ^ 6)) := by
  obtain ⟨hx, hv⟩ := near_inputs hm hmax hr hg hb
  have hblue := LinearProgram.near_of_coefficients tame_programs.2.1 noise_le.2.1
    factors_close.2.1 (by linarith) (hmax.trans (by norm_num)) hx hv
  have hred := LinearProgram.near_of_coefficients tame_programs.2.2 noise_le.2.2
    factors_close.2.2 (by linarith) (hmax.trans (by norm_num)) hx hv
  rw [(run_programs _ _ _).2.1, sum_factors.2.1] at hblue
  rw [(run_programs _ _ _).2.2, sum_factors.2.2] at hred
  constructor
  · apply hblue.mono
    unfold roundoff
    norm_num
    linarith
  · apply hred.mono
    unfold roundoff
    norm_num
    linarith

end Pixels

namespace Picture

variable (p : Picture)

/-- The exact luminance at column `x` and row `y`, shifted by 128. -/
def exactLuminance (x y : Nat) : ℚ :=
  if p.isRGB then
    let (r, g, b) := p.rgb x y
    decimalY r.toNat g.toNat b.toNat - 128
  else (p.byte (p.position x y)).toNat - 128

def exactChrominance (convert : ℚ → ℚ → ℚ → ℚ) (x y : Nat) : ℚ :=
  let (r, g, b) := p.rgb x y
  convert r.toNat g.toNat b.toNat

/-- The exact average over the four pixels of an area. -/
def exactAreaChrominance (convert : ℚ → ℚ → ℚ → ℚ) (x y : Nat) : ℚ :=
  (p.exactChrominance convert x y + p.exactChrominance convert (x + 1) y +
    p.exactChrominance convert x (y + 1) + p.exactChrominance convert (x + 1) (y + 1)) / 4

/-- The picture whose chrominance is encoded. When it is downsampled, red and blue are exchanged if
`invertRB` is set, as the second pass does not look at it. -/
def chrominanceSource (downsample : Bool) : Picture :=
  if downsample then { p with invertRB := false } else p

/-- Without that flag, or without downsampling, the chrominance is that of the picture. -/
theorem chrominanceSource_eq {downsample : Bool} (h : downsample = true → p.invertRB = false) :
    p.chrominanceSource downsample = p := by
  rw [chrominanceSource]
  split
  · next hdownsample => rw [← h hdownsample]
  · rfl

end Picture

section Blocks

theorem toNat_le (n : UInt8) : n.toNat ≤ 255 := Nat.le_of_lt_succ n.toNat_lt

theorem cast_toNat_le (n : UInt8) : (n.toNat : ℚ) ≤ 255 := by exact_mod_cast toNat_le n

theorem place_eq (r c : Fin 8) :
    ((r * 8 + c : Nat) % 8 = c ∧ (r * 8 + c : Nat) / 8 = r) ∧ (r * 8 + c : Nat) < 64 := by
  omega

theorem decimalY_bounds {r g b : ℚ} (hr : 0 ≤ r ∧ r ≤ 255) (hg : 0 ≤ g ∧ g ≤ 255)
    (hb : 0 ≤ b ∧ b ≤ 255) : |decimalY r g b - 128 + 1 / 2| ≤ 127501 / 1000 := by
  rw [abs_le, decimalY]
  constructor <;> linarith

theorem abs_decimalCb_le {r g b m : ℚ} (hr : 0 ≤ r ∧ r ≤ m) (hg : 0 ≤ g ∧ g ≤ m)
    (hb : 0 ≤ b ∧ b ≤ m) : |decimalCb r g b| ≤ m / 2 ∧ |decimalCr r g b| ≤ m / 2 := by
  rw [abs_le, abs_le, decimalCb, decimalCr]
  refine ⟨⟨?_, ?_⟩, ⟨?_, ?_⟩⟩ <;> linarith

theorem near_gray (n : UInt8) : Near (n.toFloat32 - 128) (n.toNat - 128) (1 / 5000) := by
  have h128 : value 128 = some 128 := ofInt_exact (n := 128) (by decide)
  have hle := cast_toNat_le n
  have hsize : |(n.toNat : ℚ) - 128| ≤ 128 := by
    have : (0 : ℚ) ≤ n.toNat := Nat.cast_nonneg _
    rw [abs_le]
    constructor <;> linarith
  obtain ⟨v, hv, hclose⟩ := sub_close (value_toFloat32 n) h128 (hsize.trans_lt (by norm_num))
  refine ⟨v, hv, hclose.trans ?_⟩
  rw [ulp]
  have := mul_le_mul_of_nonneg_left hsize (by positivity : (0 : ℚ) ≤ 2 ^ (-23 : Int))
  norm_num at this ⊢
  linarith

theorem byte_bounds (n : UInt8) : (0 : ℚ) ≤ n.toNat ∧ (n.toNat : ℚ) ≤ 255 :=
  ⟨Nat.cast_nonneg _, cast_toNat_le n⟩

theorem luminanceBlock_samples (p : Picture) (x y : Nat) :
    Samples (luminanceBlock p x y) (fun r c => p.exactLuminance (x + c) (y + r)) (1 / 2) where
  near r c := by
    obtain ⟨⟨hmod, hdiv⟩, -⟩ := place_eq r c
    rw [luminanceBlock, hmod, hdiv, Picture.luminance, Picture.exactLuminance]
    cases p.isRGB
    · exact near_gray _
    · exact near_luminance (toNat_le _) (toNat_le _) (toNat_le _)
  centred r c := by
    rw [Picture.exactLuminance]
    split
    · exact decimalY_bounds (byte_bounds _) (byte_bounds _) (byte_bounds _)
    · obtain ⟨hlow, hhigh⟩ := byte_bounds (p.byte (p.position (x + c) (y + r)))
      rw [abs_le]
      constructor <;> linarith
  low := by norm_num
  high := le_rfl

/-- A quarter of the chrominance of four pixels. -/
theorem near_quarter {z : Float32} {w m : ℚ} (hz : Near z w (m / (2 * 10 ^ 6))) (hw : |w| ≤ m / 2)
    (hmax : m ≤ 1020) : Near (z / 4) (w / 4) (1 / 5000) := by
  have h4 : value 4 = some 4 := ofInt_exact (n := 4) (by decide)
  obtain ⟨a, ha, hclose⟩ := hz
  have hsize : |a / 4| ≤ 128 := by
    have := abs_sub_abs_le_abs_sub a w
    rw [abs_div, abs_of_pos (by norm_num : (0 : ℚ) < 4)]
    linarith
  obtain ⟨v, hv, hulp⟩ := div_close ha h4 (by norm_num) (hsize.trans_lt (by norm_num))
  refine ⟨v, hv, ?_⟩
  have hquarter : |a / 4 - w / 4| ≤ m / (2 * 10 ^ 6) / 4 := by
    rw [← sub_div, abs_div, abs_of_pos (by norm_num : (0 : ℚ) < 4)]
    linarith
  have hlast : ulp (a / 4) ≤ 2 ^ (-23 : Int) * 128 + 2 ^ (-149 : Int) := by
    unfold ulp
    gcongr
  calc
    |v - w / 4| ≤ |v - a / 4| + |a / 4 - w / 4| := abs_sub_le _ _ _
    _ ≤ (2 ^ (-23 : Int) * 128 + 2 ^ (-149 : Int)) + m / (2 * 10 ^ 6) / 4 :=
      add_le_add (hulp.trans hlast) hquarter
    _ ≤ 1 / 5000 := by
      norm_num
      linarith

theorem area_le (p : Picture) (component x y : Nat) : p.area component x y ≤ 1020 := by
  have h₁ := toNat_le (p.byte (3 * p.position x y + component))
  have h₂ := toNat_le (p.byte (3 * p.position (x + 1) y + component))
  have h₃ := toNat_le (p.byte (3 * p.position x (y + 1) + component))
  have h₄ := toNat_le (p.byte (3 * p.position (x + 1) (y + 1) + component))
  unfold Picture.area
  omega

theorem area_bounds (p : Picture) (component x y : Nat) :
    (0 : ℚ) ≤ p.area component x y ∧ (p.area component x y : ℚ) ≤ 1020 :=
  ⟨Nat.cast_nonneg _, by exact_mod_cast area_le p component x y⟩

/-- The exact samples of the chrominance. -/
def exactChrominanceBlock (p : Picture) (downsample : Bool) (convert : ℚ → ℚ → ℚ → ℚ) (x y : Nat)
    (r c : Fin 8) : ℚ :=
  if downsample then p.exactAreaChrominance convert (x + 2 * c) (y + 2 * r)
  else p.exactChrominance convert (x + c) (y + r)

/-- A conversion to blue or red minus luminance, next to the exact one. -/
structure Conversion (convert : Float32 → Float32 → Float32 → Float32)
    (exact : ℚ → ℚ → ℚ → ℚ) : Prop where
  near : ∀ {r g b : Nat} {m : ℚ}, 128 ≤ m → m ≤ 2000 → r ≤ m → g ≤ m → b ≤ m →
    Near (convert (toFloat r) (toFloat g) (toFloat b)) (exact r g b) (m / (2 * 10 ^ 6))
  range : ∀ {r g b m : ℚ}, 0 ≤ r ∧ r ≤ m → 0 ≤ g ∧ g ≤ m → 0 ≤ b ∧ b ≤ m →
    |exact r g b| ≤ m / 2
  additive : ∀ r g b r' g' b' : ℚ,
    exact r g b + exact r' g' b' = exact (r + r') (g + g') (b + b')

theorem conversion_blue : Conversion rgb2cb decimalCb where
  near hm hmax hr hg hb := (near_chrominance hm hmax hr hg hb).1
  range hr hg hb := (abs_decimalCb_le hr hg hb).1
  additive r g b r' g' b' := by
    unfold decimalCb
    ring

theorem conversion_red : Conversion rgb2cr decimalCr where
  near hm hmax hr hg hb := (near_chrominance hm hmax hr hg hb).2
  range hr hg hb := (abs_decimalCb_le hr hg hb).2
  additive r g b r' g' b' := by
    unfold decimalCr
    ring

/-- The sums that the second pass forms, converted, are the sums of the converted pixels. -/
theorem exactAreaChrominance_eq {convert : Float32 → Float32 → Float32 → Float32}
    {exact : ℚ → ℚ → ℚ → ℚ} (h : Conversion convert exact) (p : Picture) (x y : Nat) :
    (p.chrominanceSource true).exactAreaChrominance exact x y =
      exact (p.area 0 x y) (p.area 1 x y) (p.area 2 x y) / 4 := by
  have hpixel : ∀ x y, (p.chrominanceSource true).exactChrominance exact x y =
      exact (p.byte (3 * p.position x y + 0)).toNat (p.byte (3 * p.position x y + 1)).toNat
        (p.byte (3 * p.position x y + 2)).toNat := fun _ _ => rfl
  simp only [Picture.exactAreaChrominance, hpixel, h.additive, Picture.area, Nat.cast_add]

theorem chrominanceBlock_samples {convert : Float32 → Float32 → Float32 → Float32}
    {exact : ℚ → ℚ → ℚ → ℚ} (h : Conversion convert exact) (p : Picture) (downsample : Bool)
    (x y : Nat) :
    Samples (chrominanceBlock p downsample convert x y)
      (exactChrominanceBlock (p.chrominanceSource downsample) downsample exact x y) 0 where
  near r c := by
    obtain ⟨⟨hmod, hdiv⟩, -⟩ := place_eq r c
    rw [chrominanceBlock, exactChrominanceBlock, hmod, hdiv]
    have hsum := fun component x y => (area_bounds p component x y).2
    cases downsample
    · exact (h.near (m := 255) (by norm_num) (by norm_num) (cast_toNat_le _) (cast_toNat_le _)
        (cast_toNat_le _)).mono (by norm_num)
    · rw [if_pos rfl, if_pos rfl, exactAreaChrominance_eq h]
      exact near_quarter (h.near (by norm_num) (by norm_num) (hsum _ _ _) (hsum _ _ _) (hsum _ _ _))
        (h.range (area_bounds _ _ _ _) (area_bounds _ _ _ _) (area_bounds _ _ _ _)) le_rfl
  centred r c := by
    rw [add_zero, exactChrominanceBlock]
    cases downsample
    · exact (h.range (byte_bounds _) (byte_bounds _) (byte_bounds _)).trans (by norm_num)
    · have hrange := h.range (area_bounds p 0 (x + 2 * c) (y + 2 * r))
        (area_bounds p 1 (x + 2 * c) (y + 2 * r)) (area_bounds p 2 (x + 2 * c) (y + 2 * r))
      rw [if_pos rfl, exactAreaChrominance_eq h, abs_div, abs_of_pos (by norm_num : (0 : ℚ) < 4)]
      linarith
  low := le_rfl
  high := by norm_num

end Blocks

end RaspiOrbSlam.TooJpeg
