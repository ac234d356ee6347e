import Mathlib.Data.Nat.Digits.Lemmas
import RaspiOrbSlam.Protocol.PacketFormat

/-!
# Truncated input

Which inputs a body's parser reads to the end and which it runs out of. Bodies
of a fixed size compare two lengths; a list first reads a variable length
integer, which ends at the first byte without the mark unless 37 marked bytes
come first. The number that its bytes stand for is not always the length that the
reader makes of them.
-/

namespace RaspiOrbSlam.Protocol

open Foundation

variable {w : Nat} (pf : Platform w)

theorem fixedSize_uint8 : Parser.FixedSize uint8 1 Fault.outOfBounds := Parser.FixedSize.item _

theorem fixedSize_int8 : Parser.FixedSize int8 1 Fault.outOfBounds :=
  fixedSize_uint8.bind fun b => Parser.FixedSize.pure b.toInt8 _

theorem fixedSize_moveBody : Parser.FixedSize moveBody 2 Fault.outOfBounds :=
  fixedSize_int8.bind fun _ => fixedSize_int8.bind fun _ => Parser.FixedSize.pure _ _

theorem fixedSize_ledColor : Parser.FixedSize ledColor 3 Fault.outOfBounds :=
  fixedSize_uint8.bind fun _ => fixedSize_uint8.bind fun _ => fixedSize_uint8.bind fun _ =>
    Parser.FixedSize.pure _ _

/-- The number of marked bytes in front of the first byte without the mark. -/
def marks (input : List UInt8) : Nat := (input.takeWhile fun b => b &&& 0x80 ≠ 0).length

/-- The groups of the bytes up to the first one without the mark. -/
def groups (input : List UInt8) : List Nat :=
  (input.take (marks input + 1)).map fun b => (b &&& 0x7F).toNat

/-- The number that a variable length integer stands for: group `i` counts
`2 ^ (7 * i)`. -/
def groupSum (input : List UInt8) : Nat := Nat.ofDigits (2 ^ 7) (groups input)

/-- The groups of the bytes up to the first one without the mark, as the `int` that the
reader makes of them. -/
def decodedFrom (shift : Nat) : List UInt8 → BitVec 32
  | [] => 0
  | b :: rest =>
      if b &&& 0x80 ≠ 0 then
        pf.shiftLeft ((b &&& 0x7F).toBitVec.setWidth 32) shift ||| decodedFrom (shift + 7) rest
      else pf.shiftLeft ((b &&& 0x7F).toBitVec.setWidth 32) shift

/-- The length that the reader makes of the first bytes of a list. From `2 ^ 31` on it is
not the number that they stand for. -/
def decodedLength (input : List UInt8) : Nat := (intToUInt64 (decodedFrom pf 0 input)).toNat

/-- What the shifts of the groups by 32 and more leave, or-ed together. -/
def strayFrom (shift : Nat) : List UInt8 → BitVec 32
  | [] => 0
  | b :: rest =>
      (if shift < 32 then 0 else pf.oversizedShift ((b &&& 0x7F).toBitVec.setWidth 32) shift) |||
        if b &&& 0x80 ≠ 0 then strayFrom (shift + 7) rest else 0

theorem marks_cons_of_marked {b : UInt8} (h : b &&& 0x80 ≠ 0) (rest : List UInt8) :
    marks (b :: rest) = marks rest + 1 := by
  simp [marks, h]

theorem marks_cons_of_not_marked {b : UInt8} (h : ¬b &&& 0x80 ≠ 0) (rest : List UInt8) :
    marks (b :: rest) = 0 := by
  simp [marks, h]

theorem group_lt (b : UInt8) : (b &&& 0x7F).toNat < 2 ^ 7 := by
  rw [UInt8.toNat_and]
  exact Nat.and_lt_two_pow _ (by decide)

theorem groupSum_of_marked {b : UInt8} (h : b &&& 0x80 ≠ 0) (rest : List UInt8) :
    groupSum (b :: rest) = (b &&& 0x7F).toNat + 2 ^ 7 * groupSum rest := by
  rw [groupSum, groups, marks_cons_of_marked h, List.take_succ_cons, List.map_cons,
    Nat.ofDigits_cons]
  rfl

theorem groupSum_of_not_marked {b : UInt8} (h : ¬b &&& 0x80 ≠ 0) (rest : List UInt8) :
    groupSum (b :: rest) = (b &&& 0x7F).toNat := by
  rw [groupSum, groups, marks_cons_of_not_marked h]
  exact Nat.ofDigits_singleton

theorem ofNat_group (b : UInt8) :
    BitVec.ofNat 32 (b &&& 0x7F).toNat = (b &&& 0x7F).toBitVec.setWidth 32 := by
  apply BitVec.eq_of_toNat_eq
  rw [BitVec.toNat_ofNat, BitVec.toNat_setWidth, UInt8.toNat_toBitVec]

/-- A group below the others, as an `int`. -/
theorem ofNat_group_add (b : UInt8) (n : Nat) :
    BitVec.ofNat 32 ((b &&& 0x7F).toNat + 2 ^ 7 * n) =
      (b &&& 0x7F).toBitVec.setWidth 32 ||| BitVec.ofNat 32 n <<< 7 := by
  have hor : (b &&& 0x7F).toNat + 2 ^ 7 * n = (b &&& 0x7F).toNat ||| 2 ^ 7 * n := by
    rw [Nat.or_comm, ← Nat.two_pow_add_eq_or_of_lt (group_lt b), Nat.add_comm]
  have hshift : BitVec.ofNat 32 (2 ^ 7 * n) = BitVec.ofNat 32 n <<< 7 := by
    apply BitVec.eq_of_toNat_eq
    rw [BitVec.toNat_shiftLeft, BitVec.toNat_ofNat, BitVec.toNat_ofNat, Nat.shiftLeft_eq,
      Nat.mod_mul_mod, Nat.mul_comm]
  rw [hor, BitVec.ofNat_or, ofNat_group, hshift]

/-- The `int` holds the low half of the number, and what undefined shifts add to it. -/
theorem decodedFrom_eq (shift : Nat) (input : List UInt8) :
    decodedFrom pf shift input =
      BitVec.ofNat 32 (groupSum input) <<< shift ||| strayFrom pf shift input := by
  induction input generalizing shift with
  | nil =>
      rw [decodedFrom, strayFrom, show groupSum [] = 0 from rfl]
      simp
  | cons b rest ih =>
      rw [decodedFrom, strayFrom, shiftLeft_split]
      by_cases hmark : b &&& 0x80 ≠ 0
      · have hshift : BitVec.ofNat 32 (groupSum rest) <<< (shift + 7) =
            (BitVec.ofNat 32 (groupSum rest) <<< 7) <<< shift := by
          rw [← BitVec.shiftLeft_add, Nat.add_comm]
        rw [if_pos hmark, if_pos hmark, ih, hshift, groupSum_of_marked hmark, ofNat_group_add,
          BitVec.shiftLeft_or_distrib]
        ac_rfl
      · rw [if_neg hmark, if_neg hmark, groupSum_of_not_marked hmark, ofNat_group]
        simp

/-- Up to five bytes are shifted within the width. -/
theorem strayFrom_eq_zero {shift : Nat} {input : List UInt8} (h : shift + 7 * marks input < 32) :
    strayFrom pf shift input = 0 := by
  induction input generalizing shift with
  | nil => rfl
  | cons b rest ih =>
      rw [strayFrom, if_pos (by omega)]
      by_cases hmark : b &&& 0x80 ≠ 0
      · rw [marks_cons_of_marked hmark] at h
        rw [if_pos hmark, ih (by omega)]
        rfl
      · rw [if_neg hmark]
        rfl

/-- The reader's loop after `i` bytes, decided by the marks that follow. -/
theorem varintFrom_eq (input : List UInt8) {i : Nat} (hi : i ≤ 37) (num : UInt64) :
    varintFrom pf (7 * i) num input =
      if 37 ≤ i + marks input then .error (.outOfRange "varint too long")
      else if marks input < input.length then
        .ok (num ||| intToUInt64 (decodedFrom pf (7 * i) input), input.drop (marks input + 1))
      else .error .outOfBounds := by
  induction input generalizing i num with
  | nil =>
      have hover : 7 * i ≥ 256 ↔ 37 ≤ i := by omega
      by_cases h : 37 ≤ i <;> simp [varintFrom, marks, hover, h]
  | cons b rest ih =>
      have hover : 7 * i ≥ 256 ↔ 37 ≤ i := by omega
      by_cases h : 37 ≤ i
      · rw [varintFrom, if_pos (hover.mpr h), if_pos (by omega)]
      · rw [varintFrom, if_neg (mt hover.mp h), decodedFrom]
        by_cases hmark : b &&& 0x80 ≠ 0
        · have hnext : 37 ≤ i + (marks rest + 1) ↔ 37 ≤ i.succ + marks rest := by omega
          rw [if_pos hmark, if_pos hmark, ← Nat.mul_succ, ih (by omega),
            marks_cons_of_marked hmark, addGroup, intToUInt64_or, UInt64.or_assoc]
          simp only [hnext, List.length_cons, Nat.add_lt_add_iff_right, List.drop_succ_cons]
        · rw [if_neg hmark, if_neg hmark, marks_cons_of_not_marked hmark,
            if_neg (by omega), if_pos (by simp)]
          rfl

/-- The outcome of reading a length. -/
theorem length_eq (input : List UInt8) :
    length pf input =
      if 37 ≤ marks input then .error (.outOfRange "varint too long")
      else if marks input < input.length then
        if pf.maxSize < decodedLength pf input then .error .allocation
        else .ok (decodedLength pf input, input.drop (marks input + 1))
      else .error .outOfBounds := by
  have hread := varintFrom_eq pf input (i := 0) (by decide) 0
  rw [Nat.mul_zero, Nat.zero_add, ← varint] at hread
  by_cases hover : 37 ≤ marks input
  · rw [if_pos hover] at hread ⊢
    exact Parser.bind_error hread
  · by_cases hend : marks input < input.length
    · rw [if_neg hover, if_pos hend, UInt64.zero_or] at hread
      rw [if_neg hover, if_pos hend, length, Parser.bind_ok hread]
      by_cases hmax : pf.maxSize < decodedLength pf input
      · rw [if_pos hmax]
        exact congrFun (if_pos hmax) _
      · rw [if_neg hmax]
        exact congrFun (if_neg hmax) _
    · rw [if_neg hover, if_neg hend] at hread ⊢
      exact Parser.bind_error hread

end RaspiOrbSlam.Protocol
