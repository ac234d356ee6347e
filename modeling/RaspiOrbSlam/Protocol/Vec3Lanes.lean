import RaspiOrbSlam.Protocol.Vec3
import Mathlib.Tactic.Ring

/-!
# The lanes of a packed point

A packed word is the sum of three 21-bit lanes and the rounding bit. Reading
takes each lane apart again; the product in the exponent expressions of `x` and
`y` has no bit left after the shift, while that of `z` extends the sign.
-/

namespace RaspiOrbSlam.Protocol

open Foundation BitFields

theorem oneBit_toNat {i : UInt64} (h : i < 64) : (oneBit i).toNat = 2 ^ i.toNat := by
  have hi : i.toNat < 64 := h
  have hp : 2 ^ i.toNat < 2 ^ 64 := Nat.pow_lt_pow_right (by decide) hi
  rw [oneBit, UInt64.toNat_shiftLeft, Nat.mod_eq_of_lt hi, Nat.shiftLeft_eq]
  change 1 * 2 ^ i.toNat % 2 ^ 64 = _
  rw [Nat.one_mul, Nat.mod_eq_of_lt hp]

theorem isSet_oneBit (word : UInt64) {i : UInt64} (h : i < 64) :
    isSet word (oneBit i) = decide (word.toNat &&& 2 ^ i.toNat ≠ 0) := by
  rw [isSet, ← oneBit_toNat h, ← UInt64.toNat_and]
  apply decide_eq_decide.mpr
  rw [not_iff_not, ← UInt64.toNat_inj]
  rfl

theorem isSet_oneBit_toNat (word : UInt64) {i : UInt64} (h : i < 64) :
    (isSet word (oneBit i)).toNat = bit word.toNat i.toNat := by
  rw [isSet_oneBit word h, toNat_and_two_pow_ne_zero]

theorem isSet_sign (u : UInt32) :
    isSet u.toUInt64 (intToUInt64 (1#32 <<< 31)) = isSet u.toUInt64 (oneBit 31) := by
  have hmask : u.toUInt64 &&& intToUInt64 (1#32 <<< 31) = u.toUInt64 &&& oneBit 31 := by
    apply UInt64.toBitVec_inj.mp
    apply BitVec.eq_of_getLsbD_eq
    intro i hi
    have h1 : (intToUInt64 (1#32 <<< 31)).toBitVec.getLsbD i = decide (31 ≤ i) := by
      revert i
      decide
    have h2 : (oneBit 31).toBitVec.getLsbD i = decide (i = 31) := by
      revert i
      decide
    rw [UInt64.toBitVec_and, UInt64.toBitVec_and, BitVec.getLsbD_and, BitVec.getLsbD_and, h1, h2]
    by_cases h : i = 31
    · simp [h]
    · by_cases hi : 32 ≤ i
      · simp [BitVec.getLsbD_of_ge _ _ hi]
      · simp [h, show ¬31 ≤ i by omega]
  rw [isSet, isSet, hmask]

theorem packedExponent_toNat (u : UInt32) :
    (((((u.toUInt64 >>> 23) &&& 0xFF) - 127).toUInt8 &&& 0x1F).toUInt64).toNat =
      (exponentOf u + 1) % 32 := by
  have hu := u.toNat_lt
  have h8 (n : Nat) : n &&& 0xFF = n % 2 ^ 8 := Nat.and_two_pow_sub_one_eq_mod n 8
  have h5 (n : Nat) : n &&& 0x1F = n % 2 ^ 5 := Nat.and_two_pow_sub_one_eq_mod n 5
  simp [UInt64.toNat_sub, exponentOf, Nat.shiftRight_eq_div_pow, h8, h5]
  omega

theorem packedMantissa_toNat (u : UInt32) :
    ((u.toUInt64 >>> 8) &&& 0x7fff).toNat = mantissaOf u := by
  have h15 (n : Nat) : n &&& 0x7fff = n % 2 ^ 15 := Nat.and_two_pow_sub_one_eq_mod n 15
  simp [mantissaOf, Nat.shiftRight_eq_div_pow, h15]

theorem bool_toUInt64_toNat (b : Bool) : b.toUInt64.toNat = b.toNat := by
  cases b <;> rfl

/-- A field of `b` bits stays inside the word when it is shifted to a place with room. -/
theorem shiftLeft_toNat {a k : UInt64} {n b : Nat} (ha : a.toNat = n) (hn : n < 2 ^ b)
    (hk : k.toNat + b ≤ 64) (hk' : k.toNat < 64) : (a <<< k).toNat = n <<< k.toNat := by
  have h : n * 2 ^ k.toNat < 2 ^ 64 := by
    calc
      n * 2 ^ k.toNat < 2 ^ b * 2 ^ k.toNat := Nat.mul_lt_mul_of_pos_right hn (Nat.two_pow_pos _)
      _ = 2 ^ (k.toNat + b) := by rw [← Nat.pow_add, Nat.add_comm]
      _ ≤ 2 ^ 64 := Nat.pow_le_pow_right (by decide) hk
  rw [UInt64.toNat_shiftLeft, Nat.mod_eq_of_lt hk', ha, Nat.shiftLeft_eq, Nat.mod_eq_of_lt h]

/-- The 21 bits of a component: sign, five exponent bits, fifteen mantissa bits. -/
def laneOf (u : UInt32) : Nat :=
  bit u.toNat 31 * 2 ^ 20 + (exponentOf u + 1) % 32 * 2 ^ 15 + mantissaOf u

theorem laneOf_lt (u : UInt32) : laneOf u < 2 ^ 21 := by
  have hs := bit_lt u.toNat 31
  have hm : mantissaOf u < 2 ^ 15 := Nat.mod_lt _ (by decide)
  rw [laneOf]
  omega

theorem or_lane (u : UInt32) {res p : Nat} (hres : 2 ^ (p + 21) ∣ res) :
    res ||| bit u.toNat 31 <<< (p + 20) ||| ((exponentOf u + 1) % 32) <<< (p + 15) |||
      mantissaOf u <<< p = res + laneOf u * 2 ^ p := by
  obtain ⟨c, rfl⟩ := hres
  have hs := bit_lt u.toNat 31
  have hm : mantissaOf u < 2 ^ 15 := Nat.mod_lt _ (by decide)
  have hres : 2 ^ (p + 21) * c = (c * 2 ^ 21) <<< p := by
    rw [Nat.shiftLeft_eq, Nat.pow_add]; ring
  have hsign : bit u.toNat 31 <<< (p + 20) = (bit u.toNat 31 * 2 ^ 20) <<< p := by
    rw [Nat.shiftLeft_eq, Nat.shiftLeft_eq, Nat.pow_add]; ring
  have hexp : ((exponentOf u + 1) % 32) <<< (p + 15) =
      ((exponentOf u + 1) % 32 * 2 ^ 15) <<< p := by
    rw [Nat.shiftLeft_eq, Nat.shiftLeft_eq, Nat.pow_add]; ring
  have hsum : c * 2 ^ 21 ||| bit u.toNat 31 * 2 ^ 20 ||| (exponentOf u + 1) % 32 * 2 ^ 15 |||
      mantissaOf u = c * 2 ^ 21 + laneOf u := by
    have h21 : c * 2 ^ 21 ||| bit u.toNat 31 * 2 ^ 20 = c * 2 ^ 21 + bit u.toNat 31 * 2 ^ 20 :=
      or_eq_add (k := 21) (by omega) (by omega)
    rw [h21, or_eq_add (a := c * 2 ^ 21 + bit u.toNat 31 * 2 ^ 20) (k := 20) (by omega) (by omega),
      or_eq_add (k := 15) (by omega) (by omega), laneOf]
    omega
  rw [hres, hsign, hexp, ← Nat.shiftLeft_or_distrib, ← Nat.shiftLeft_or_distrib,
    ← Nat.shiftLeft_or_distrib, hsum, Nat.shiftLeft_eq, Nat.shiftLeft_eq, Nat.add_mul]

/-- The majority of the components' bits `i`. -/
def vote (i : Nat) (v : Vec3) : Nat :=
  majority (bit v.x.toNat i) (bit v.y.toNat i) (bit v.z.toNat i)

/-- The rounding bit of the writer. -/
def roundingBit (v : Vec3) : Nat := vote 16 v

theorem vote_lt (i : Nat) (v : Vec3) : vote i v < 2 := by
  rw [vote, majority]
  split <;> decide

theorem packedSign_toNat (u : UInt32) :
    (isSet u.toUInt64 (intToUInt64 (1#32 <<< 31))).toUInt64.toNat = bit u.toNat 31 := by
  rw [bool_toUInt64_toNat, isSet_sign, isSet_oneBit_toNat _ (by decide), UInt32.toNat_toUInt64]
  rfl

/-- The three fields of a component, or-ed into a word whose bits below `p + 21` are clear. -/
theorem or_component_toNat (res : UInt64) (u : UInt32) {j k l : UInt64} {p : Nat}
    (hj : j.toNat = p + 20) (hk : k.toNat = p + 15) (hl : l.toNat = p) (hp : p + 21 ≤ 64)
    (hres : 2 ^ (p + 21) ∣ res.toNat) :
    (res ||| (isSet u.toUInt64 (intToUInt64 (1#32 <<< 31))).toUInt64 <<< j |||
        ((((u.toUInt64 >>> 23) &&& 0xFF) - 127).toUInt8 &&& 0x1F).toUInt64 <<< k |||
        ((u.toUInt64 >>> 8) &&& 0x7fff) <<< l).toNat = res.toNat + laneOf u * 2 ^ p := by
  have hsign := shiftLeft_toNat (packedSign_toNat u) (b := 1) (bit_lt u.toNat 31)
    (k := j) (by omega) (by omega)
  have hexp := shiftLeft_toNat (packedExponent_toNat u) (b := 5) (Nat.mod_lt _ (by decide))
    (k := k) (by omega) (by omega)
  have hmant := shiftLeft_toNat (packedMantissa_toNat u) (b := 15) (Nat.mod_lt _ (by decide))
    (k := l) (by omega) (by omega)
  rw [UInt64.toNat_or, UInt64.toNat_or, UInt64.toNat_or, hsign, hexp, hmant, hj, hk, hl]
  exact or_lane u hres

theorem packVec3_toNat (v : Vec3) : (packVec3 v).toNat =
    laneOf v.x * 2 ^ 43 + laneOf v.y * 2 ^ 22 + laneOf v.z * 2 + roundingBit v := by
  have hround (u : UInt32) : (isSet u.toUInt64 (oneBit 16)).toNat = bit u.toNat 16 := by
    rw [isSet_oneBit_toNat _ (by decide), UInt32.toNat_toUInt64]
    rfl
  have hx := or_component_toNat 0 v.x (j := 63) (k := 58) (l := 43) (p := 43) rfl rfl rfl
    (by decide) (by simp)
  rw [UInt64.zero_or] at hx
  have hy := or_component_toNat _ v.y (j := 42) (k := 37) (l := 22) (p := 22) rfl rfl rfl
    (by decide) (Dvd.intro_left (laneOf v.x) (by rw [hx]; simp))
  have hz := or_component_toNat _ v.z (j := 21) (k := 16) (l := 1) (p := 1) rfl rfl rfl
    (by decide) (Dvd.intro_left (laneOf v.x * 2 ^ 21 + laneOf v.y) (by rw [hy, hx]; simp; ring))
  have hbit : (decide ((isSet v.x.toUInt64 (oneBit 16)).toNat +
      (isSet v.y.toUInt64 (oneBit 16)).toNat +
      (isSet v.z.toUInt64 (oneBit 16)).toNat ≥ 2)).toUInt64.toNat = roundingBit v := by
    rw [bool_toUInt64_toNat, hround, hround, hround, roundingBit, vote, majority]
    split <;> simp_all
  have hlow : roundingBit v < 2 ^ 1 := vote_lt 16 v
  rw [packVec3, UInt64.toNat_or, hbit, hz, hy, hx]
  rw [or_eq_add _ hlow]
  · simp
  · simp
    omega

/-- A component with the sign, the mantissa and the fill of a lane. -/
def widened (lane exponent round : Nat) : Nat :=
  lane / 2 ^ 20 * 2 ^ 31 + exponent * 2 ^ 23 + lane % 2 ^ 15 * 2 ^ 8 + 255 * round

theorem bool_toUInt32_toNat (b : Bool) : b.toUInt32.toNat = b.toNat := by
  cases b <;> rfl

/-- The fields of a component are or-ed into a 32-bit pattern. -/
theorem unpacked_toNat {sign exponent rest : UInt32} {word lane p e : Nat}
    (hlane : lane = word / 2 ^ p % 2 ^ 21)
    (hsign : sign.toNat = bit word (p + 20) * 2 ^ 31) (hexp : exponent.toNat = e * 2 ^ 23)
    (he : e < 2 ^ 8) (hrest : rest.toNat = word / 2 ^ p % 2 ^ 15 * 2 ^ 8 + 255 * (word % 2)) :
    (sign ||| exponent ||| rest).toNat = widened lane e (word % 2) := by
  have hs : lane / 2 ^ 20 = bit word (p + 20) := by
    rw [hlane, bit, Nat.pow_add, ← Nat.div_div_eq_div_mul]
    generalize word / 2 ^ p = q
    omega
  have hm : lane % 2 ^ 15 = word / 2 ^ p % 2 ^ 15 := by
    rw [hlane]
    generalize word / 2 ^ p = q
    omega
  have hm' : word / 2 ^ p % 2 ^ 15 < 2 ^ 15 := Nat.mod_lt _ (by decide)
  have hhigh : bit word (p + 20) * 2 ^ 31 ||| e * 2 ^ 23 =
      bit word (p + 20) * 2 ^ 31 + e * 2 ^ 23 := or_eq_add (k := 31) (by omega) (by omega)
  rw [UInt32.toNat_or, UInt32.toNat_or, hsign, hexp, hrest, widened, hs, hm, hhigh,
    or_eq_add (k := 23) (by omega) (by omega)]
  omega

theorem unpackedSign_toNat (word : UInt64) {k : UInt64} (hk : k < 64) :
    ((isSet word (oneBit k)).toUInt32 <<< 31).toNat = bit word.toNat k.toNat * 2 ^ 31 := by
  have hlt := bit_lt word.toNat k.toNat
  rw [UInt32.toNat_shiftLeft, bool_toUInt32_toNat, isSet_oneBit_toNat word hk]
  change bit word.toNat k.toNat <<< 31 % 2 ^ 32 = _
  rw [Nat.shiftLeft_eq, Nat.mod_eq_of_lt (by omega)]

theorem fill_toNat (word : UInt64) :
    ((0xff : UInt64) * (word &&& 1).toUInt8.toUInt64).toNat = 255 * (word.toNat % 2) := by
  simp
  omega

theorem unpackedMantissa_toNat (word : UInt64) {k : UInt64} (hk : k < 64) :
    ((0xff : UInt64) * (word &&& 1).toUInt8.toUInt64 |||
        ((word >>> k) &&& 0x7fff) <<< 8).toUInt32.toNat =
      word.toNat / 2 ^ k.toNat % 2 ^ 15 * 2 ^ 8 + 255 * (word.toNat % 2) := by
  have hk' : k.toNat < 64 := hk
  have h15 (n : Nat) : n &&& 0x7fff = n % 2 ^ 15 := Nat.and_two_pow_sub_one_eq_mod n 15
  have hm : ((word >>> k) &&& 0x7fff).toNat = word.toNat / 2 ^ k.toNat % 2 ^ 15 := by
    rw [UInt64.toNat_and, UInt64.toNat_shiftRight, Nat.mod_eq_of_lt hk', Nat.shiftRight_eq_div_pow]
    exact h15 _
  have hlt : word.toNat / 2 ^ k.toNat % 2 ^ 15 < 2 ^ 15 := Nat.mod_lt _ (by decide)
  rw [UInt64.toNat_toUInt32, UInt64.toNat_or, fill_toNat,
    shiftLeft_toNat hm hlt (k := 8) (by decide) (by decide)]
  change (_ ||| _ <<< 8) % 2 ^ 32 = _
  rw [or_shiftLeft_eq_add (by omega)]
  omega

/-- The exponent expression of `x` and `y`: the product has no bit that reaches the result. -/
theorem unsignedExponent_toNat {product low : UInt64} (hp : 2 ^ 41 ∣ product.toNat)
    (hl : low.toNat < 32) :
    (((product ||| low) + 127) <<< 23).toUInt32.toNat = (low.toNat + 127) * 2 ^ 23 := by
  rw [UInt64.toNat_toUInt32, UInt64.toNat_shiftLeft, UInt64.toNat_add, UInt64.toNat_or,
    or_eq_add hp (by omega)]
  change ((product.toNat + low.toNat + 127) % 2 ^ 64) <<< 23 % 2 ^ 64 % 2 ^ 32 = _
  rw [Nat.shiftLeft_eq]
  omega

theorem lowFive_toNat (word : UInt64) {k : UInt64} (hk : k < 64) :
    ((word >>> k) &&& 0x1f).toNat = word.toNat / 2 ^ k.toNat % 2 ^ 5 := by
  have hk' : k.toNat < 64 := hk
  rw [UInt64.toNat_and, UInt64.toNat_shiftRight, Nat.mod_eq_of_lt hk', Nat.shiftRight_eq_div_pow]
  exact Nat.and_two_pow_sub_one_eq_mod _ 5

theorem and_oneBit_toNat (word : UInt64) {k : UInt64} (hk : k < 64) :
    (word &&& oneBit k).toNat = bit word.toNat k.toNat * 2 ^ k.toNat := by
  rw [UInt64.toNat_and, oneBit_toNat hk, Nat.and_two_pow, Nat.testBit_eq_decide_div_mod_eq, bit]
  rcases Nat.mod_two_eq_zero_or_one (word.toNat / 2 ^ k.toNat) with h | h <;> simp [h]

/-- The exponent expression of `z` extends the sign within eight bits. -/
theorem signedExponent_toNat {low : UInt64} (hl : low.toNat < 32) (b : Bool) :
    (((((0xe0 : UInt64) * b.toUInt64 ||| low) + 127) &&& 0xff) <<< 23).toUInt32.toNat =
      (224 * b.toNat + low.toNat + 127) % 2 ^ 8 * 2 ^ 23 := by
  have h8 (n : Nat) : n &&& 0xFF = n % 2 ^ 8 := Nat.and_two_pow_sub_one_eq_mod n 8
  have hprod : ((0xe0 : UInt64) * b.toUInt64).toNat = 224 * b.toNat := by cases b <;> rfl
  have hb : b.toNat < 2 := b.toNat_lt
  have hsum : (((0xe0 : UInt64) * b.toUInt64 ||| low) + 127).toNat =
      224 * b.toNat + low.toNat + 127 := by
    rw [UInt64.toNat_add, UInt64.toNat_or, hprod, or_eq_add (k := 5) (by omega) (by omega)]
    change (_ + 127) % 2 ^ 64 = _
    omega
  have hmask : ((((0xe0 : UInt64) * b.toUInt64 ||| low) + 127) &&& 0xff).toNat =
      (224 * b.toNat + low.toNat + 127) % 2 ^ 8 := by
    rw [UInt64.toNat_and, hsum]
    exact h8 _
  rw [UInt64.toNat_toUInt32, shiftLeft_toNat hmask (Nat.mod_lt _ (by decide)) (k := 23)
    (by decide) (by decide), Nat.shiftLeft_eq]
  change _ * 2 ^ 23 % 2 ^ 32 = _
  omega

/-- The five exponent bits of a lane. -/
def laneExponent (lane : Nat) : Nat := lane / 2 ^ 15 % 2 ^ 5

theorem laneExponent_of_word (word p : Nat) :
    laneExponent (word / 2 ^ p % 2 ^ 21) = word / 2 ^ (p + 15) % 2 ^ 5 := by
  rw [laneExponent, Nat.pow_add, ← Nat.div_div_eq_div_mul]
  generalize word / 2 ^ p = q
  omega

theorem shifted_product_dvd (word : UInt64) {k : UInt64} (hk : k < 64) (h : 31 ≤ k.toNat) :
    2 ^ 41 ∣ (((0xe0 : UInt64) <<< 5) * (word &&& oneBit k)).toNat := by
  rw [UInt64.toNat_mul, and_oneBit_toNat word hk]
  change 2 ^ 41 ∣ 7168 * (bit word.toNat k.toNat * 2 ^ k.toNat) % 2 ^ 64
  obtain ⟨j, hj⟩ := Nat.exists_eq_add_of_le h
  rw [hj, Nat.pow_add]
  generalize bit word.toNat (31 + j) = b
  have hfactor : 7168 * (b * (2 ^ 31 * 2 ^ j)) = 2 ^ 41 * (7 * (b * 2 ^ j)) := by ring
  rw [hfactor]
  omega

theorem unpackVec3_x (word : UInt64) : (unpackVec3 word).x.toNat =
    widened (word.toNat / 2 ^ 43 % 2 ^ 21)
      (laneExponent (word.toNat / 2 ^ 43 % 2 ^ 21) + 127) (word.toNat % 2) := by
  have hlow := lowFive_toNat word (k := 58) (by decide)
  have hlt : word.toNat / 2 ^ 58 % 2 ^ 5 < 32 := Nat.mod_lt _ (by decide)
  have hexp := unsignedExponent_toNat (shifted_product_dvd word (k := 62) (by decide) (by decide))
    (hlow ▸ hlt)
  rw [hlow] at hexp
  rw [laneExponent_of_word]
  exact unpacked_toNat rfl (unpackedSign_toNat word (k := 63) (by decide)) hexp
    (by change word.toNat / 2 ^ 58 % 2 ^ 5 + 127 < _; omega)
    (unpackedMantissa_toNat word (k := 43) (by decide))

theorem unpackVec3_y (word : UInt64) : (unpackVec3 word).y.toNat =
    widened (word.toNat / 2 ^ 22 % 2 ^ 21)
      (laneExponent (word.toNat / 2 ^ 22 % 2 ^ 21) + 127) (word.toNat % 2) := by
  have hlow := lowFive_toNat word (k := 37) (by decide)
  have hlt : word.toNat / 2 ^ 37 % 2 ^ 5 < 32 := Nat.mod_lt _ (by decide)
  have hexp := unsignedExponent_toNat (shifted_product_dvd word (k := 41) (by decide) (by decide))
    (hlow ▸ hlt)
  rw [hlow] at hexp
  rw [laneExponent_of_word]
  exact unpacked_toNat rfl (unpackedSign_toNat word (k := 42) (by decide)) hexp
    (by change word.toNat / 2 ^ 37 % 2 ^ 5 + 127 < _; omega)
    (unpackedMantissa_toNat word (k := 22) (by decide))

/-- The biased exponent that the reader computes for `z`. -/
def signedExponent (lane : Nat) : Nat :=
  (224 * (laneExponent lane / 2 ^ 4) + laneExponent lane + 127) % 2 ^ 8

theorem signedExponent_lt (lane : Nat) : signedExponent lane < 2 ^ 8 :=
  Nat.mod_lt _ (by decide)

theorem unpackVec3_z (word : UInt64) : (unpackVec3 word).z.toNat =
    widened (word.toNat / 2 ^ 1 % 2 ^ 21)
      (signedExponent (word.toNat / 2 ^ 1 % 2 ^ 21)) (word.toNat % 2) := by
  have hlow := lowFive_toNat word (k := 16) (by decide)
  have hlt : word.toNat / 2 ^ 16 % 2 ^ 5 < 32 := Nat.mod_lt _ (by decide)
  have hbit : (isSet word (oneBit 20)).toNat = word.toNat / 2 ^ 16 % 2 ^ 5 / 2 ^ 4 := by
    rw [isSet_oneBit_toNat word (by decide), bit]
    change word.toNat / 2 ^ 20 % 2 = _
    omega
  have hexp := signedExponent_toNat (hlow ▸ hlt) (isSet word (oneBit 20))
  rw [hlow, hbit] at hexp
  rw [signedExponent, laneExponent_of_word]
  exact unpacked_toNat rfl (unpackedSign_toNat word (k := 21) (by decide)) hexp
    (Nat.mod_lt _ (by decide)) (unpackedMantissa_toNat word (k := 1) (by decide))

end RaspiOrbSlam.Protocol
