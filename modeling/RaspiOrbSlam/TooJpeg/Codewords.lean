import RaspiOrbSlam.Foundation.BitString
import RaspiOrbSlam.Foundation.Parser
import RaspiOrbSlam.TooJpeg.BitWriter
import Mathlib.Data.Nat.Size
import Mathlib.Logic.Function.Basic

/-! # Codewords of quantized coefficients

A nonzero value is written as the number of bits of its magnitude, in a Huffman
code, and that many bits. The bits of a negative value are those of its
magnitude inverted; the first bit tells the sign. -/

namespace RaspiOrbSlam.TooJpeg

open Foundation

/-- `codewords[value]`, a pointer into the middle of `codewordsArray`. -/
abbrev Codewords := Int → Option BitCode

def codeWordLimit : Nat := 2048

/-- `count` more rounds of the loop over `value`, with the array as stored so far. -/
def storeCodewords : (count value : Nat) → (numBits : UInt8) → (mask : Nat) → Codewords → Codewords
  | 0, _, _, _, codewords => codewords
  | count + 1, value, numBits, mask, codewords =>
      let wider := mask < value
      let numBits := if wider then numBits + 1 else numBits
      let mask := if wider then mask <<< 1 ||| 1 else mask
      let negative := Function.update codewords (-value : Int)
        (some ⟨UInt16.ofNat (mask - value), numBits⟩)
      storeCodewords count (value + 1) numBits mask
        (Function.update negative (value : Int) (some ⟨UInt16.ofNat value, numBits⟩))

/-- The precomputed codewords: the values from 1 below the limit, and their negatives. -/
def precomputedCodewords : Codewords :=
  storeCodewords (codeWordLimit - 1) 1 1 1 fun _ => none

/-- The bits of a value: the value itself, or the complement of its magnitude. -/
def amplitude (value : Int) : Nat :=
  if 0 < value then value.natAbs else 2 ^ value.natAbs.size - 1 - value.natAbs

/-- The codeword of a value. -/
def codewordOf (value : Int) : BitCode :=
  ⟨UInt16.ofNat (amplitude value), UInt8.ofNat value.natAbs.size⟩

theorem size_eq {value k : Nat} (hlow : 2 ^ k ≤ value) (hhigh : value < 2 ^ (k + 1)) :
    value.size = k + 1 :=
  le_antisymm (Nat.size_le.mpr hhigh) (Nat.lt_size.mpr hlow)

theorem two_pow_succ_sub_one (k : Nat) : (2 ^ k - 1) <<< 1 ||| 1 = 2 ^ (k + 1) - 1 := by
  have hpos := Nat.two_pow_pos k
  rw [Nat.shiftLeft_eq, Nat.mul_comm, ← Nat.two_pow_add_eq_or_of_lt (by decide), Nat.pow_succ]
  omega

/-- What one round makes of `numBits` and `mask`: the size of `value`. -/
theorem widened {value k : Nat} (hlow : 2 ^ k ≤ value) (hhigh : value ≤ 2 ^ (k + 1)) :
    ∃ k', value.size = k' + 1 ∧ 2 ^ k' ≤ value ∧ value < 2 ^ (k' + 1) ∧
      (if 2 ^ (k + 1) - 1 < value then UInt8.ofNat (k + 1) + 1 else UInt8.ofNat (k + 1)) =
        UInt8.ofNat (k' + 1) ∧
      (if 2 ^ (k + 1) - 1 < value then (2 ^ (k + 1) - 1) <<< 1 ||| 1 else 2 ^ (k + 1) - 1) =
        2 ^ (k' + 1) - 1 := by
  by_cases hwider : 2 ^ (k + 1) - 1 < value
  · have hvalue : value = 2 ^ (k + 1) := by omega
    have hlt : 2 ^ (k + 1) < 2 ^ (k + 1 + 1) := Nat.pow_lt_pow_right (by decide) (by omega)
    refine ⟨k + 1, size_eq hvalue.ge (by omega), hvalue.ge, by omega, ?_, ?_⟩
    · rw [if_pos hwider]
      exact (UInt8.ofNat_add (k + 1) 1).symm
    · rw [if_pos hwider, two_pow_succ_sub_one]
  · have hpos := Nat.two_pow_pos (k + 1)
    have hlt : value < 2 ^ (k + 1) := by omega
    exact ⟨k, size_eq hlow hlt, hlow, hlt, if_neg hwider, if_neg hwider⟩

/-- One round stores the codewords of `value` and of its negative. The invariant: `mask` has
`numBits` ones and `value` is at most one beyond the values of that many bits. -/
theorem storeCodewords_apply {count value k : Nat} (codewords : Codewords)
    (hlow : 2 ^ k ≤ value) (hhigh : value ≤ 2 ^ (k + 1)) (v : Int) :
    storeCodewords count value (UInt8.ofNat (k + 1)) (2 ^ (k + 1) - 1) codewords v =
      if value ≤ v.natAbs ∧ v.natAbs < value + count then some (codewordOf v) else codewords v := by
  induction count generalizing value k codewords with
  | zero =>
      rw [storeCodewords, if_neg]
      omega
  | succ count ih =>
      obtain ⟨k', hsize, hlow', hhigh', hnum, hmask⟩ := widened hlow hhigh
      have hpos : 0 < value := lt_of_lt_of_le (Nat.two_pow_pos k) hlow
      have hplus : codewordOf (value : Int) = ⟨UInt16.ofNat value, UInt8.ofNat (k' + 1)⟩ := by
        simp [codewordOf, amplitude, hpos, hsize]
      have hminus : codewordOf (-value : Int) =
          ⟨UInt16.ofNat (2 ^ (k' + 1) - 1 - value), UInt8.ofNat (k' + 1)⟩ := by
        have hneg : ¬(value : Int) < 0 := by omega
        simp [codewordOf, amplitude, hneg, hsize]
      simp only [storeCodewords]
      rw [hnum, hmask, ih _ (by omega) (by omega), ← hplus, ← hminus]
      rcases lt_trichotomy v.natAbs value with hlt | heq | hgt
      · rw [if_neg (by omega), if_neg (by omega), Function.update_of_ne (by omega),
          Function.update_of_ne (by omega)]
      · rw [if_neg (by omega), if_pos (by omega)]
        rcases Int.natAbs_eq_iff.mp heq with rfl | rfl
        · rw [Function.update_self]
        · rw [Function.update_of_ne (by omega), Function.update_self]
      · rw [Function.update_of_ne (by omega), Function.update_of_ne (by omega)]
        refine if_congr ?_ rfl rfl
        omega

/-- Exactly the nonzero values below the limit have a codeword. -/
theorem precomputedCodewords_apply (v : Int) :
    precomputedCodewords v =
      if v ≠ 0 ∧ v.natAbs < codeWordLimit then some (codewordOf v) else none := by
  have hfirst : 2 ^ 0 ≤ 1 := le_rfl
  have hloop : precomputedCodewords v = _ :=
    storeCodewords_apply (fun _ => none) hfirst (by decide) v
  rw [hloop]
  refine if_congr ?_ rfl rfl
  simp only [codeWordLimit]
  omega

/-- `EXTEND` of the format: the value that `size` bits stand for. -/
def extend (bits size : Nat) : Int :=
  if bits < 2 ^ (size - 1) then (bits : Int) - 2 ^ size + 1 else bits

/-- Read a value of the given size. -/
def receive {ε : Type} (invalid : ε) (size : Nat) : Parser Bool ε Int := do
  let bits ← Parser.take invalid size
  return extend (numberFrom 0 bits) size

theorem amplitude_lt (v : Int) : amplitude v < 2 ^ v.natAbs.size := by
  have hsize : v.natAbs < 2 ^ v.natAbs.size := Nat.lt_size_self v.natAbs
  unfold amplitude
  split <;> omega

/-- The first bit is set for a positive and clear for a negative value. -/
theorem extend_amplitude {v : Int} (hv : v ≠ 0) : extend (amplitude v) v.natAbs.size = v := by
  obtain ⟨k, hk⟩ : ∃ k, v.natAbs.size = k + 1 := by
    apply Nat.exists_eq_succ_of_ne_zero
    rw [ne_eq, Nat.size_eq_zero]
    omega
  have hlow : 2 ^ k ≤ v.natAbs := Nat.lt_size.mp (by omega)
  have hhigh : v.natAbs < 2 ^ (k + 1) := Nat.size_le.mp (by omega)
  have hpow : (2 : Int) ^ (k + 1) = ((2 ^ (k + 1) : Nat) : Int) := by norm_cast
  rw [extend, amplitude, hk, hpow, Nat.add_sub_cancel]
  rw [Nat.pow_succ] at hhigh ⊢
  split <;> split <;> omega

theorem precomputedCodewords_spec {v : Int} {c : BitCode} (h : precomputedCodewords v = some c) :
    v ≠ 0 ∧ v.natAbs < codeWordLimit ∧ c.Fits ∧ c.numBits.toNat = v.natAbs.size ∧
      ∀ {ε : Type} (invalid : ε), Parser.Yields (receive invalid c.numBits.toNat) c.bits v := by
  rw [precomputedCodewords_apply] at h
  split at h
  case isFalse => cases h
  case isTrue hv =>
    obtain ⟨hzero, hlimit⟩ := hv
    obtain rfl := Option.some_inj.mp h
    have hsize : v.natAbs.size ≤ 11 := Nat.size_le.mpr hlimit
    have hpow : 2 ^ v.natAbs.size ≤ 2 ^ 11 := Nat.pow_le_pow_right (by decide) hsize
    have hlt := amplitude_lt v
    have hwidth : (codewordOf v).numBits.toNat = v.natAbs.size :=
      UInt8.toNat_ofNat_of_lt' (by change _ < 256; omega)
    have hcode : (codewordOf v).code.toNat = amplitude v :=
      UInt16.toNat_ofNat_of_lt' (by change _ < 65536; omega)
    refine ⟨hzero, hlimit, ⟨by omega, by rwa [hwidth, hcode]⟩, hwidth, ?_⟩
    intro ε invalid
    have htake := (Parser.Yields.take invalid (codewordOf v).bits).map
      fun bits => extend (numberFrom 0 bits) v.natAbs.size
    rw [BitCode.bits, length_bitsOf, hwidth, hcode, numberFrom_zero_bitsOf hlt,
      extend_amplitude hzero] at htake
    rw [BitCode.bits, hwidth, hcode]
    exact htake

end RaspiOrbSlam.TooJpeg
