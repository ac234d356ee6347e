import RaspiOrbSlam.Protocol.Varint
import Mathlib.Data.FinEnum
import Mathlib.Tactic.Ring

/-!
# Reading back a variable length integer

The reader gathers the groups of an encoding in an `int` and extends the sign
once at the end. The shifts below the width put back the low half of the number;
the shifts from 35 on add whatever the machine leaves. This decides for every
64-bit number whether it is read back.
-/

namespace RaspiOrbSlam.Protocol

open Foundation

variable {w : Nat} (pf : Platform w)

theorem serializeUInt64_append (num : UInt64) (out : List UInt8) :
    serializeUInt64 num out = out ++ serializeUInt64 num [] := by
  rw [serializeUInt64, serializeUInt64.eq_def num []]
  by_cases h : num >>> 7 ≠ 0
  · simp only [if_pos h]
    rw [serializeUInt64_append (num >>> 7) (out ++ _), serializeUInt64_append (num >>> 7) ([] ++ _)]
    simp only [List.append_assoc, List.nil_append]
  · simp only [if_neg h, List.nil_append]
termination_by num.toNat
decreasing_by all_goals exact shiftRight_seven_lt h

/-- The lowest seven bits of a number, as the `int` that the reader shifts. -/
def group (num : UInt64) : BitVec 32 := (num.toUInt8 &&& 0x7F).toBitVec.setWidth 32

/-- The low half of a number, as an `int`. -/
def lowHalf (num : UInt64) : BitVec 32 := num.toBitVec.setWidth 32

private theorem group_of_byte (b : UInt8) (more : Bool) :
    ((b &&& 0x7F) ||| more.toUInt8 * 0x80) &&& 0x7F = b &&& 0x7F := by
  revert b more
  decide +kernel

private theorem mark_of_byte (b : UInt8) (more : Bool) :
    ((b &&& 0x7F) ||| more.toUInt8 * 0x80) &&& 0x80 ≠ 0 ↔ more = true := by
  revert b more
  decide +kernel

/-- The first byte of an encoding holds the lowest group and the mark. -/
theorem serializeUInt64_cons (num : UInt64) :
    ∃ b, b &&& 0x7F = num.toUInt8 &&& 0x7F ∧ (b &&& 0x80 ≠ 0 ↔ num >>> 7 ≠ 0) ∧
      serializeUInt64 num [] =
        b :: if num >>> 7 ≠ 0 then serializeUInt64 (num >>> 7) [] else [] := by
  have hlow : (num &&& 0x7F).toUInt8 = num.toUInt8 &&& 0x7F := by simp
  refine ⟨(num &&& 0x7F).toUInt8 ||| (decide (num >>> 7 ≠ 0)).toUInt8 * 0x80, ?_, ?_, ?_⟩
  · rw [hlow, group_of_byte]
  · rw [hlow, mark_of_byte, decide_eq_true_iff]
  · rw [serializeUInt64]
    by_cases h : num >>> 7 ≠ 0
    · simp only [if_pos h]
      rw [serializeUInt64_append]
      rfl
    · simp only [if_neg h]
      rfl

/-- The groups of an encoding, shifted from `shift` on and or-ed as an `int`. -/
def gathered (shift : Nat) (num : UInt64) : BitVec 32 :=
  if num >>> 7 ≠ 0 then
    pf.shiftLeft (group num) shift ||| gathered (shift + 7) (num >>> 7)
  else pf.shiftLeft (group num) shift
termination_by num.toNat
decreasing_by exact shiftRight_seven_lt ‹_›

/-- What the shifts by 32 and more leave, or-ed together. -/
def oversized (shift : Nat) (num : UInt64) : BitVec 32 :=
  let here := if shift < 32 then 0 else pf.oversizedShift (group num) shift
  if num >>> 7 ≠ 0 then here ||| oversized (shift + 7) (num >>> 7) else here
termination_by num.toNat
decreasing_by exact shiftRight_seven_lt ‹_›

/-- A group that is not the last leaves a rest that fits above it. -/
theorem shifted_lt {num : UInt64} {shift k : Nat} (h : num >>> 7 ≠ 0)
    (hnum : num.toNat * 2 ^ shift < 2 ^ k) :
    (num >>> 7).toNat * 2 ^ (shift + 7) < 2 ^ k ∧ shift + 7 < k := by
  have hpos : 0 < (num >>> 7).toNat :=
    Nat.pos_of_ne_zero fun hz => h (UInt64.toNat_inj.mp hz)
  have hnext : (num >>> 7).toNat * 2 ^ (shift + 7) < 2 ^ k := by
    calc
      (num >>> 7).toNat * 2 ^ (shift + 7) = num.toNat / 128 * 128 * 2 ^ shift := by
        rw [shiftRight_seven_toNat, Nat.pow_add]; ring
      _ ≤ num.toNat * 2 ^ shift := Nat.mul_le_mul_right _ (Nat.div_mul_le_self _ _)
      _ < 2 ^ k := hnum
  have hpow : 2 ^ (shift + 7) ≤ (num >>> 7).toNat * 2 ^ (shift + 7) :=
    Nat.le_mul_of_pos_left _ hpos
  exact ⟨hnext, (Nat.pow_lt_pow_iff_right (by decide)).mp (hpow.trans_lt hnext)⟩

/-- The reader returns the gathered groups, whatever the number is. -/
theorem yields_varintFrom (shift : Nat) (acc num : UInt64) (hshift : shift < 64)
    (hnum : num.toNat * 2 ^ shift < 2 ^ 64) :
    Parser.Yields (varintFrom pf shift acc) (serializeUInt64 num [])
      (acc ||| intToUInt64 (gathered pf shift num)) := by
  obtain ⟨b, hb, hmark, henc⟩ := serializeUInt64_cons num
  have hadd : addGroup pf acc b shift = acc ||| intToUInt64 (pf.shiftLeft (group num) shift) := by
    rw [addGroup, hb, group]
  rw [henc, varintFrom_step pf (by omega), ← List.singleton_append]
  apply (Parser.Yields.item _ b).bind
  rw [gathered]
  by_cases h : num >>> 7 ≠ 0
  · obtain ⟨hnext, hshift'⟩ := shifted_lt h hnum
    have ih := yields_varintFrom (shift + 7) (addGroup pf acc b shift) (num >>> 7) hshift' hnext
    simp only [if_pos h, if_pos (hmark.mpr h)]
    rwa [hadd, UInt64.or_assoc, ← intToUInt64_or, ← hadd] at ih
  · simp only [if_neg h, if_neg (mt hmark.mp h), hadd]
    exact Parser.Yields.pure _
termination_by num.toNat
decreasing_by exact shiftRight_seven_lt h

theorem yields_varint (num : UInt64) :
    Parser.Yields (varint pf) (serializeUInt64 num []) (intToUInt64 (gathered pf 0 num)) := by
  have h := yields_varintFrom pf 0 0 num (by decide) (by simpa using num.toNat_lt)
  rwa [UInt64.zero_or] at h

theorem lowHalf_split (num : UInt64) :
    lowHalf num = group num ||| lowHalf (num >>> 7) <<< 7 := by
  apply BitVec.eq_of_getLsbD_eq
  intro i hi
  have hmask : (UInt8.toBitVec 0x7F).getLsbD i = decide (i < 7) := by
    revert i
    decide
  have hshift : (num >>> 7).toBitVec = num.toBitVec >>> 7 := rfl
  simp only [lowHalf, group, UInt8.toBitVec_and, UInt64.toBitVec_toUInt8, hshift, hmask, hi,
    BitVec.getLsbD_or, BitVec.getLsbD_and, BitVec.getLsbD_shiftLeft, BitVec.getLsbD_ushiftRight,
    BitVec.getLsbD_setWidth, decide_true, Bool.true_and]
  by_cases h7 : i < 7
  · simp [h7, show i < 8 by omega]
  · simp [h7, show i - 7 < 32 by omega, show 7 + (i - 7) = i by omega]

theorem lowHalf_of_last {num : UInt64} (h : ¬num >>> 7 ≠ 0) : lowHalf num = group num := by
  rw [lowHalf_split, not_ne_iff.mp h]
  simp [lowHalf]

/-- A shift by the machine is the shift within the width and the oversized rest. -/
theorem shiftLeft_split (x : BitVec 32) (shift : Nat) :
    pf.shiftLeft x shift =
      x <<< shift ||| if shift < 32 then 0 else pf.oversizedShift x shift := by
  by_cases h : shift < 32
  · simp [Platform.shiftLeft, h]
  · simp [Platform.shiftLeft, h, BitVec.shiftLeft_eq_zero (Nat.not_lt.mp h)]

/-- The groups put back the low half; only oversized shifts can add to it. -/
theorem gathered_eq (shift : Nat) (num : UInt64) :
    gathered pf shift num = lowHalf num <<< shift ||| oversized pf shift num := by
  rw [gathered, oversized, shiftLeft_split]
  by_cases h : num >>> 7 ≠ 0
  · have ih := gathered_eq (shift + 7) (num >>> 7)
    have hshift : lowHalf (num >>> 7) <<< (shift + 7) = (lowHalf (num >>> 7) <<< 7) <<< shift := by
      rw [← BitVec.shiftLeft_add, Nat.add_comm]
    simp only [if_pos h]
    rw [ih, hshift, lowHalf_split num, BitVec.shiftLeft_or_distrib]
    ac_rfl
  · simp only [if_neg h, lowHalf_of_last h]
termination_by num.toNat
decreasing_by exact shiftRight_seven_lt h

/-- A number that ends below the width needs no oversized shift. -/
theorem oversized_eq_zero {shift : Nat} {num : UInt64} (hshift : shift < 32)
    (hnum : num.toNat * 2 ^ shift < 2 ^ 32) : oversized pf shift num = 0 := by
  rw [oversized]
  by_cases h : num >>> 7 ≠ 0
  · obtain ⟨hnext, hshift'⟩ := shifted_lt h hnum
    have ih := oversized_eq_zero hshift' hnext
    simp [h, hshift, ih]
  · simp [h, hshift]
termination_by num.toNat
decreasing_by exact shiftRight_seven_lt h

/-- Extending the sign of the low half gives back the lowest and the highest numbers. -/
theorem intToUInt64_lowHalf_iff (num : UInt64) :
    intToUInt64 (lowHalf num) = num ↔ num.toNat < 2 ^ 31 ∨ 2 ^ 64 - 2 ^ 31 ≤ num.toNat := by
  have hnum := num.toNat_lt
  have hlow : (lowHalf num).toNat = num.toNat % 2 ^ 32 := BitVec.toNat_setWidth ..
  rw [← UInt64.toNat_inj, intToUInt64_toNat, hlow]
  split <;> omega

/-- A 64-bit number is read back if it is below `2 ^ 31`. It is also read back
if its upper 33 bits are set, as the sign extension then sets them, unless an
undefined shift leaves a bit that its low half lacks. -/
theorem intToUInt64_gathered_iff (num : UInt64) :
    intToUInt64 (gathered pf 0 num) = num ↔
      num.toNat < 2 ^ 31 ∨ 2 ^ 64 - 2 ^ 31 ≤ num.toNat ∧
        lowHalf num ||| oversized pf 0 num = lowHalf num := by
  rw [gathered_eq, BitVec.shiftLeft_zero]
  constructor
  · intro h
    have hlow : lowHalf num ||| oversized pf 0 num = lowHalf num := by
      have hset := congrArg lowHalf h
      rwa [lowHalf, low_intToUInt64] at hset
    rw [hlow, intToUInt64_lowHalf_iff] at h
    exact h.imp_right fun hnum => ⟨hnum, hlow⟩
  · rintro (hnum | ⟨hnum, hlow⟩)
    · have hzero : oversized pf 0 num = 0#32 := oversized_eq_zero pf (by decide) (by omega)
      rw [hzero, BitVec.or_zero]
      exact (intToUInt64_lowHalf_iff num).mpr (Or.inl hnum)
    · rw [hlow]
      exact (intToUInt64_lowHalf_iff num).mpr (Or.inr hnum)

/-- Which numbers the reader returns when it starts where the writer appended,
between any bytes before and after. -/
theorem uint64_readBack_iff (num : UInt64) (pre suf : List UInt8) (vec : ByteVector w)
    (hvec : vec.bytes = serializeUInt64 num pre ++ suf) (vs : VectorStream w)
    (hvs : vs.StandsAfter vec pre) :
    (∃ vs', deserializeUInt64 pf vs = .ok (num, vs') ∧
        vs'.StandsAfter vec (serializeUInt64 num pre)) ↔
      num.toNat < 2 ^ 31 ∨ 2 ^ 64 - 2 ^ 31 ≤ num.toNat ∧
        lowHalf num ||| oversized pf 0 num = lowHalf num := by
  rw [serializeUInt64_append num pre] at hvec ⊢
  rw [List.append_assoc] at hvec
  have hread := (simulates_deserializeUInt64 pf).of_yields (yields_varint pf num)
    (hvs.remaining_eq hvec)
  rw [← intToUInt64_gathered_iff pf num, hread]
  constructor
  · rintro ⟨vs', h, _⟩
    exact congrArg Prod.fst (Except.ok.inj h)
  · intro h
    rw [h]
    exact ⟨_, rfl, hvs.skip hvec⟩

/-- Three hundred, in front of one more byte. -/
theorem uint64_readBack_three_hundred :
    ∃ vs', deserializeUInt64 armhf
        (.ofVector ⟨[0xAC, 0x02, 0xFF], by decide⟩) = .ok (300, vs') ∧
      vs'.StandsAfter ⟨[0xAC, 0x02, 0xFF], by decide⟩ (serializeUInt64 300 []) :=
  (uint64_readBack_iff armhf 300 [] [0xFF] ⟨[0xAC, 0x02, 0xFF], by decide⟩
    (by decide +kernel) (.ofVector ⟨[0xAC, 0x02, 0xFF], by decide⟩)
    ⟨rfl, rfl⟩).mpr (Or.inl (by decide))

/-- The fifth group of `2 ^ 31` reaches the sign bit: the reader returns
`2 ^ 64 - 2 ^ 31` instead. -/
theorem uint64_two_pow_31_misread :
    serializeUInt64 0x80000000 [] = [0x80, 0x80, 0x80, 0x80, 0x08] ∧
      (∃ vs', deserializeUInt64 armhf
          (.ofVector ⟨[0x80, 0x80, 0x80, 0x80, 0x08], by decide⟩) =
        .ok (0xFFFFFFFF80000000, vs')) ∧
      ¬∃ vs', deserializeUInt64 armhf
          (.ofVector ⟨[0x80, 0x80, 0x80, 0x80, 0x08], by decide⟩) =
        .ok (0x80000000, vs') := by
  have hread : deserializeUInt64 armhf
      (.ofVector ⟨[0x80, 0x80, 0x80, 0x80, 0x08], by decide⟩) =
        .ok (0xFFFFFFFF80000000, ⟨⟨[0x80, 0x80, 0x80, 0x80, 0x08], by decide⟩, 5, 0⟩) := by
    decide +kernel
  refine ⟨by decide +kernel, ⟨_, hread⟩, ?_⟩
  rintro ⟨vs', h⟩
  rw [hread] at h
  have hnum : (0xFFFFFFFF80000000 : UInt64) = 0x80000000 := congrArg Prod.fst (Except.ok.inj h)
  exact absurd hnum (by decide)

end RaspiOrbSlam.Protocol
