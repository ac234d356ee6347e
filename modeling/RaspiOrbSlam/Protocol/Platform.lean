import Mathlib.Data.BitVec

/-!
# The machine under the protocol code

`size_t` has `w` bits, `int` has 32 bits. Two things are left to the machine:
what a shift of an `int` by 32 or more leaves behind, which the language does
not define, and the longest list that a `resize` can provide.
-/

namespace RaspiOrbSlam.Protocol

structure Platform (w : Nat) where
  /-- The result of shifting an `int` left by at least its width. -/
  oversizedShift : BitVec 32 → Nat → BitVec 32
  /-- A `resize` of the string or list at hand beyond this size throws. -/
  maxSize : Nat
  le_width : 32 ≤ w
  width_le : w ≤ 64
  /-- No object is larger than `PTRDIFF_MAX`. -/
  maxSize_lt : maxSize < 2 ^ (w - 1)

namespace Platform

variable {w : Nat} (pf : Platform w)

/-- `x << shift` on an `int`; below the width the bits shifted out are lost. -/
def shiftLeft (x : BitVec 32) (shift : Nat) : BitVec 32 :=
  if shift < 32 then x <<< shift else pf.oversizedShift x shift

/-- A list of this length has a length that the protocol can send, and a `resize` can provide it. -/
def Fits (n : Nat) : Prop := n < 2 ^ 31 ∧ n ≤ pf.maxSize

instance (n : Nat) : Decidable (pf.Fits n) := inferInstanceAs (Decidable (_ ∧ _))

theorem Fits.mono {pf : Platform w} {m n : Nat} (h : pf.Fits n) (hle : m ≤ n) : pf.Fits m :=
  ⟨hle.trans_lt h.1, hle.trans h.2⟩

end Platform

/-- The conversion of an `int` to `uint64_t` extends the sign. -/
def intToUInt64 (x : BitVec 32) : UInt64 := UInt64.ofBitVec (x.signExtend 64)

theorem intToUInt64_or (x y : BitVec 32) :
    intToUInt64 (x ||| y) = intToUInt64 x ||| intToUInt64 y := by
  apply UInt64.toBitVec_inj.mp
  simp [intToUInt64, BitVec.signExtend_or]

/-- The low half of a converted `int` is the `int` itself. -/
theorem setWidth_signExtend {w : Nat} (h : 32 ≤ w) (x : BitVec 32) :
    (x.signExtend w).setWidth 32 = x := by
  apply BitVec.eq_of_getLsbD_eq
  intro i hi
  have hi' : i < w := Nat.lt_of_lt_of_le hi h
  simp only [BitVec.getLsbD_setWidth, BitVec.getLsbD_signExtend, hi, hi', decide_true, if_true,
    Bool.true_and]

theorem signExtend_toNat {w : Nat} (h : 32 ≤ w) (x : BitVec 32) :
    (x.signExtend w).toNat = x.toNat + if 2 ^ 31 ≤ x.toNat then 2 ^ w - 2 ^ 32 else 0 := by
  have hpow : 2 ^ 32 ≤ 2 ^ w := Nat.pow_le_pow_right (by decide) h
  have hlow : x.toNat < 2 ^ w := Nat.lt_of_lt_of_le x.isLt hpow
  rw [BitVec.toNat_signExtend, BitVec.toNat_setWidth, BitVec.msb_eq_decide, Nat.mod_eq_of_lt hlow]
  simp only [decide_eq_true_eq]

@[simp] theorem low_intToUInt64 (x : BitVec 32) :
    (intToUInt64 x).toBitVec.setWidth 32 = x :=
  setWidth_signExtend (by decide) x

theorem intToUInt64_toNat (x : BitVec 32) :
    (intToUInt64 x).toNat = x.toNat + if 2 ^ 31 ≤ x.toNat then 2 ^ 64 - 2 ^ 32 else 0 :=
  signExtend_toNat (by decide) x

/-- An `int` becomes one of the lowest or one of the highest `2 ^ 31` values. -/
theorem intToUInt64_range (x : BitVec 32) :
    (intToUInt64 x).toNat < 2 ^ 31 ∨ 2 ^ 64 - 2 ^ 31 ≤ (intToUInt64 x).toNat := by
  rw [intToUInt64_toNat]
  split <;> omega

/-- The boards run a 32-bit system, where a register shift by 32 to 255 leaves zero. -/
def armhf : Platform 32 where
  oversizedShift _ _ := 0
  maxSize := 2 ^ 31 - 1
  le_width := by decide
  width_le := by decide
  maxSize_lt := by decide

end RaspiOrbSlam.Protocol
