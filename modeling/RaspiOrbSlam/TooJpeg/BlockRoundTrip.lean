import RaspiOrbSlam.TooJpeg.BlockDecoder
import RaspiOrbSlam.TooJpeg.Precision

/-! # The round trip of a block

Whatever the samples, the quantized coefficients have codes in the tables, and
decoding what is sent gives them back. -/

namespace RaspiOrbSlam.TooJpeg

open Foundation Foundation.Binary32

/-- The integers of a block in zigzag order. -/
def levels (block64 : Nat → Float32) : List Int :=
  List.ofFn fun i : Fin 64 => (level block64 i).toInt

theorem toInt_toInt16 {x : Int32} (hx : x.toInt.natAbs < 2 ^ 15) : x.toInt16.toInt = x.toInt := by
  rw [Int32.toInt_toInt16, Int.bmod_eq_of_le] <;> omega

section Blocks

variable {block : Nat → Float32} {v : Fin 8 → Fin 8 → ℚ} {h : ℚ} {quant : Fin 64 → UInt8}

/-- The prediction of the first coefficient: zero, or that of a block before. -/
def Predicted (h : ℚ) (step : UInt8) (lastDC : Int16) : Prop :=
  |(lastDC.toInt : ℚ) + 8 * h / step.toNat| < 1021

theorem predicted_zero (hlow : 0 ≤ h) (hhigh : h ≤ 1 / 2) (hquant : quant 0 ≠ 0) :
    Predicted h (quant 0) 0 := by
  obtain ⟨hq1, -⟩ := step_bounds hquant
  have hnonneg : 0 ≤ 8 * h / ((quant 0).toNat : ℚ) := by positivity
  have hle : 8 * h / ((quant 0).toNat : ℚ) ≤ 8 * h := div_le_self (by linarith) hq1
  have hzero : (0 : Int16).toInt = 0 := rfl
  rw [Predicted, hzero, Int.cast_zero, zero_add, abs_of_nonneg hnonneg]
  linarith

theorem Samples.natAbs_level_lt (hs : Samples block v h) (hquant : ∀ i, quant i ≠ 0) (i : Fin 64) :
    (level (scaleBlock block (scaledTable quant)) i).toInt.natAbs < 1025 ∧
      (i ≠ 0 → (level (scaleBlock block (scaledTable quant)) i).toInt.natAbs < 1024) := by
  have hlevel := hs.abs_level_lt hquant i
  generalize (level (scaleBlock block (scaledTable quant)) i).toInt = l at *
  obtain ⟨hq1, -⟩ := step_bounds (hquant i)
  have hlow := hs.low
  have hhigh := hs.high
  have hle : 8 * h / ((quant i).toNat : ℚ) ≤ 8 * h := div_le_self (by linarith) hq1
  have hnonneg : 0 ≤ 8 * h / ((quant i).toNat : ℚ) := by positivity
  rw [abs_lt] at hlevel
  constructor
  · have h₁ : (-1025 : ℚ) < l := by split at hlevel <;> linarith
    have h₂ : (l : ℚ) < 1025 := by split at hlevel <;> linarith
    norm_cast at h₁ h₂
    omega
  · intro hi
    rw [if_neg hi, add_zero] at hlevel
    have h₁ : (-1021 : ℚ) < l := hlevel.1
    have h₂ : (l : ℚ) < 1021 := hlevel.2
    norm_cast at h₁ h₂
    omega

/-- The coefficients of a block always have codes, and its first one is a prediction again. -/
theorem Samples.codable (hs : Samples block v h) (hquant : ∀ i, quant i ≠ 0) {lastDC : Int16}
    (hlast : Predicted h (quant 0) lastDC) :
    let block64 := scaleBlock block (scaledTable quant)
    Codable (level block64 0) (quantize block64).1 (quantize block64).2 lastDC ∧
      Predicted h (quant 0) (level block64 0).toInt16 := by
  intro block64
  obtain ⟨hindex, hnonzero, hzeros⟩ := quantize_posNonZero block64
  have hfirst := hs.abs_level_lt hquant 0
  rw [if_pos rfl] at hfirst
  refine ⟨⟨hindex, hnonzero, hzeros, ?_, ?_⟩, ?_⟩
  · intro k hk hk64
    obtain ⟨j, rfl⟩ : ∃ j, k = j + 1 := ⟨k - 1, by omega⟩
    have hlt := (hs.natAbs_level_lt hquant (Fin.succ ⟨j, by omega⟩)).2 (Fin.succ_ne_zero _)
    have hvalue := quantize_succ block64 ⟨j, by omega⟩
    change (quantize block64).1 (j + 1) = _ at hvalue
    rw [hvalue, toInt_toInt16 (hlt.trans (by decide))]
    exact hlt
  · rw [Predicted, abs_lt] at hlast
    rw [abs_lt] at hfirst
    change -1021 < ((level block64 0).toInt : ℚ) + _ ∧
      ((level block64 0).toInt : ℚ) + _ < 1021 at hfirst
    have h₁ : (-2042 : ℚ) < (level block64 0).toInt - lastDC.toInt := by linarith
    have h₂ : ((level block64 0).toInt : ℚ) - lastDC.toInt < 2042 := by linarith
    norm_cast at h₁ h₂
    rw [codeWordLimit]
    omega
  · have hlt := (hs.natAbs_level_lt hquant 0).1
    rw [Predicted, toInt_toInt16 (hlt.trans (by decide))]
    exact hfirst

theorem levels_eq (block64 : Nat → Float32)
    (hsmall : ∀ i, (level block64 i).toInt.natAbs < 2 ^ 15) :
    levels block64 = (level block64 0).toInt :: coefficients (quantize block64).1 1 := by
  rw [levels, List.ofFn_succ]
  congr 1
  apply List.ext_getElem
  · simp [coefficients]
  · intro k hk _
    rw [List.length_ofFn] at hk
    have hvalue := quantize_succ block64 ⟨k, hk⟩
    change (quantize block64).1 (k + 1) = _ at hvalue
    simp only [coefficients, List.getElem_map, List.getElem_range', List.getElem_ofFn, Nat.one_mul,
      Nat.add_comm 1 k, hvalue, toInt_toInt16 (hsmall _)]

/-- A block decodes to the difference of the first integer and the others. -/
theorem Samples.encodeBlock_decodes {dc ac : CodeLists} {huffmanDC huffmanAC : HuffmanTable}
    (hdc : dc.Encodes huffmanDC) (hac : ac.Encodes huffmanAC) (hsymbols : Baseline dc ac)
    (hs : Samples block v h) (hquant : ∀ i, quant i ≠ 0) {lastDC : Int16}
    (hlast : Predicted h (quant 0) lastDC) :
    ∃ codes DC, Writes (encodeBlock block (scaledTable quant) lastDC huffmanDC huffmanAC
        precomputedCodewords) codes DC ∧ (∀ c ∈ codes, c.Fits) ∧ Predicted h (quant 0) DC ∧
      ∃ acs, levels (scaleBlock block (scaledTable quant)) = DC.toInt :: acs ∧
        Parser.Yields (decodeBlock dc ac) (codes.flatMap BitCode.bits)
          (DC.toInt - lastDC.toInt, acs) := by
  obtain ⟨hcodable, hnext⟩ := hs.codable hquant hlast
  obtain ⟨codes, hwrites, hfits, hreads⟩ :=
    encodeCoefficients_decodes hdc hac hsymbols hcodable
  have hsmall : ∀ i, (level (scaleBlock block (scaledTable quant)) i).toInt.natAbs < 2 ^ 15 := by
    intro i
    exact (hs.natAbs_level_lt hquant i).1.trans (by decide)
  refine ⟨codes, _, hwrites, hfits, hnext,
    coefficients (quantize (scaleBlock block (scaledTable quant))).1 1, ?_, ?_⟩
  · rw [levels_eq _ hsmall, toInt_toInt16 (hsmall 0)]
  · rw [toInt_toInt16 (hsmall 0)]
    exact hreads

end Blocks

end RaspiOrbSlam.TooJpeg
