import RaspiOrbSlam.Protocol.Platform
import RaspiOrbSlam.Protocol.StreamSimulation

/-!
# Variable length integers

The writer emits seven bits a byte, lowest first, and marks every byte but the
last. The reader shifts each group as an `int` before it is or-ed into the
64-bit result, so a group is sign-extended from 32 bits.
-/

namespace RaspiOrbSlam.Protocol

open Foundation

variable {w : Nat} (pf : Platform w)

theorem shiftRight_seven_toNat (num : UInt64) : (num >>> 7).toNat = num.toNat / 128 := by
  simp [UInt64.toNat_shiftRight, Nat.shiftRight_eq_div_pow]

theorem shiftRight_seven_lt {num : UInt64} (h : num >>> 7 ≠ 0) :
    (num >>> 7).toNat < num.toNat := by
  have hne : (num >>> 7).toNat ≠ 0 := fun hz => h (UInt64.toNat_inj.mp hz)
  rw [shiftRight_seven_toNat] at hne ⊢
  omega

/-- `Serializer::serialize(uint64_t)`. -/
def serializeUInt64 (num : UInt64) (out : List UInt8) : List UInt8 :=
  let bits := (num &&& 0x7F).toUInt8
  let out := out ++ [bits ||| (decide (num >>> 7 ≠ 0)).toUInt8 * 0x80]
  if num >>> 7 ≠ 0 then serializeUInt64 (num >>> 7) out else out
termination_by num.toNat
decreasing_by exact shiftRight_seven_lt ‹_›

/-- The group of a byte, or-ed into the number read so far. -/
def addGroup (num : UInt64) (b : UInt8) (shift : Nat) : UInt64 :=
  num ||| intToUInt64 (pf.shiftLeft ((b &&& 0x7F).toBitVec.setWidth 32) shift)

/-- The loop of `Serializer::deserialize(uint64_t&)`. -/
def deserializeUInt64.loop (shift : Nat) (num : UInt64) : StreamM w UInt64 :=
  if shift ≥ 1 <<< 8 then throw (.outOfRange "varint too long")
  else do
    let b ← VectorStream.get
    if b &&& 0x80 ≠ 0 then loop (shift + 7) (addGroup pf num b shift)
    else return addGroup pf num b shift
termination_by 256 - shift

/-- `Serializer::deserialize(uint64_t&)`. -/
def deserializeUInt64 : StreamM w UInt64 := deserializeUInt64.loop pf 0 0

/-- The reader's loop on a list of bytes. -/
def varintFrom (shift : Nat) (num : UInt64) : WireParser UInt64
  | [] => .error (if shift ≥ 256 then .outOfRange "varint too long" else .outOfBounds)
  | b :: rest =>
      if shift ≥ 256 then .error (.outOfRange "varint too long")
      else if b &&& 0x80 ≠ 0 then varintFrom (shift + 7) (addGroup pf num b shift) rest
      else .ok (addGroup pf num b shift, rest)

/-- The variable length integers of the wire format. -/
def varint : WireParser UInt64 := varintFrom pf 0 0

theorem varintFrom_overlong {shift : Nat} (h : 256 ≤ shift) (num : UInt64) :
    varintFrom pf shift num = throw (.outOfRange "varint too long") := by
  funext input
  cases input <;> simp [varintFrom, h] <;> rfl

theorem varintFrom_step {shift : Nat} (h : shift < 256) (num : UInt64) :
    varintFrom pf shift num = (do
      let b ← Parser.item .outOfBounds
      if b &&& 0x80 ≠ 0 then varintFrom pf (shift + 7) (addGroup pf num b shift)
      else return addGroup pf num b shift) := by
  funext input
  cases input with
  | nil => simp [varintFrom, Nat.not_le.mpr h]; rfl
  | cons b rest =>
      have hitem : Parser.item Fault.outOfBounds (b :: rest) = .ok (b, rest) := rfl
      rw [Parser.bind_ok hitem]
      simp only [varintFrom, ge_iff_le, Nat.not_le.mpr h, if_false]
      split <;> rfl

theorem simulates_loop (shift : Nat) (num : UInt64) :
    Simulates (deserializeUInt64.loop pf shift num) (varintFrom pf shift num) := by
  by_cases h : 256 ≤ shift
  · rw [deserializeUInt64.loop, varintFrom_overlong pf h]
    simpa [h] using Simulates.throw _
  · rw [deserializeUInt64.loop, varintFrom_step pf (Nat.not_le.mp h)]
    simp only [ge_iff_le, Nat.reduceShiftLeft, h, if_false]
    refine Simulates.get.bind fun b => Simulates.ite (fun _ => ?_) fun _ => Simulates.pure _
    exact simulates_loop (shift + 7) (addGroup pf num b shift)
termination_by 256 - shift

/-- The reader refines the wire format's variable length integers. -/
theorem simulates_deserializeUInt64 : Simulates (deserializeUInt64 pf) (varint pf) :=
  simulates_loop pf 0 0

end RaspiOrbSlam.Protocol
