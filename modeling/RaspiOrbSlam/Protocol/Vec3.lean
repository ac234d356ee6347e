import RaspiOrbSlam.Foundation.BitFields
import RaspiOrbSlam.Protocol.Platform
import RaspiOrbSlam.Protocol.StreamSimulation

/-!
# Packed points

A point is three floats, held as their bit patterns. The writer packs the sign,
five exponent bits and fifteen mantissa bits of each component and one rounding
bit into a 64-bit word; the reader takes the word apart with three separately
written exponent expressions.
-/

namespace RaspiOrbSlam.Protocol

open Foundation

/-- Three floats, as bit patterns. -/
structure Vec3 where
  x : UInt32
  y : UInt32
  z : UInt32
  deriving DecidableEq

/-- The sign bit of a pattern. -/
def signOf (u : UInt32) : Nat := u.toNat / 2 ^ 31

/-- The biased exponent field of a pattern. -/
def exponentOf (u : UInt32) : Nat := u.toNat / 2 ^ 23 % 2 ^ 8

/-- The upper fifteen of the 23 mantissa bits. -/
def mantissaOf (u : UInt32) : Nat := u.toNat / 2 ^ 8 % 2 ^ 15

/-- `1ull << i`. -/
def oneBit (i : UInt64) : UInt64 := 1 <<< i

/-- `!!(word & mask)`. -/
def isSet (word mask : UInt64) : Bool := decide (word &&& mask ≠ 0)

/-- The word `res` of `Serializer::serialize(const vec3)`. -/
def packVec3 (vec : Vec3) : UInt64 :=
  let ux := vec.x.toUInt64
  let uy := vec.y.toUInt64
  let uz := vec.z.toUInt64
  let ex := (((ux >>> 23) &&& 0xFF) - 127).toUInt8
  let ey := (((uy >>> 23) &&& 0xFF) - 127).toUInt8
  let ez := (((uz >>> 23) &&& 0xFF) - 127).toUInt8
  let res := (isSet ux (intToUInt64 (1#32 <<< 31))).toUInt64 <<< 63
  let res := res ||| (ex &&& 0x1F).toUInt64 <<< 58
  let res := res ||| ((ux >>> 8) &&& 0x7fff) <<< 43
  let res := res ||| (isSet uy (intToUInt64 (1#32 <<< 31))).toUInt64 <<< 42
  let res := res ||| (ey &&& 0x1F).toUInt64 <<< 37
  let res := res ||| ((uy >>> 8) &&& 0x7fff) <<< 22
  let res := res ||| (isSet uz (intToUInt64 (1#32 <<< 31))).toUInt64 <<< 21
  let res := res ||| (ez &&& 0x1F).toUInt64 <<< 16
  let res := res ||| ((uz >>> 8) &&& 0x7fff) <<< 1
  res ||| (decide ((isSet ux (oneBit 16)).toNat + (isSet uy (oneBit 16)).toNat
    + (isSet uz (oneBit 16)).toNat ≥ 2)).toUInt64

/-- `Serializer::serialize(const vec3)`. -/
def serializeVec3 (vec : Vec3) (out : List UInt8) : List UInt8 :=
  let res := packVec3 vec
  out ++ [(res &&& 0xFF).toUInt8, ((res >>> 8) &&& 0xFF).toUInt8,
    ((res >>> 16) &&& 0xFF).toUInt8, ((res >>> 24) &&& 0xFF).toUInt8,
    ((res >>> 32) &&& 0xFF).toUInt8, ((res >>> 40) &&& 0xFF).toUInt8,
    ((res >>> 48) &&& 0xFF).toUInt8, ((res >>> 56) &&& 0xFF).toUInt8]

/-- The components that `Serializer::deserialize(vec3&)` computes from its word. -/
def unpackVec3 (word : UInt64) : Vec3 :=
  let roundingBit := (word &&& 1).toUInt8
  let fill := (0xff : UInt64) * roundingBit.toUInt64
  let x := (isSet word (oneBit 63)).toUInt32 <<< 31
  let x := x ||| (((((0xe0 : UInt64) <<< 5) * (word &&& oneBit 62) |||
    ((word >>> 58) &&& 0x1f)) + 127) <<< 23).toUInt32
  let x := x ||| (fill ||| (((word >>> 43) &&& 0x7fff) <<< 8)).toUInt32
  let y := (isSet word (oneBit 42)).toUInt32 <<< 31
  let y := y ||| (((((0xe0 : UInt64) <<< 5) * (word &&& oneBit 41) |||
    ((word >>> 37) &&& 0x1f)) + 127) <<< 23).toUInt32
  let y := y ||| (fill ||| (((word >>> 22) &&& 0x7fff) <<< 8)).toUInt32
  let z := (isSet word (oneBit 21)).toUInt32 <<< 31
  let z := z ||| (((((0xe0 : UInt64) * (isSet word (oneBit 20)).toUInt64 |||
    ((word >>> 16) &&& 0x1f)) + 127) &&& 0xff) <<< 23).toUInt32
  let z := z ||| (fill ||| (((word >>> 1) &&& 0x7fff) <<< 8)).toUInt32
  ⟨x, y, z⟩

/-- `Serializer::deserialize(vec3&)`. -/
def deserializeVec3 {w : Nat} : StreamM w Vec3 := do
  let b0 ← VectorStream.get
  let b1 ← VectorStream.get
  let b2 ← VectorStream.get
  let b3 ← VectorStream.get
  let b4 ← VectorStream.get
  let b5 ← VectorStream.get
  let b6 ← VectorStream.get
  let b7 ← VectorStream.get
  return unpackVec3 (b0.toUInt64 ||| b1.toUInt64 <<< 8 ||| b2.toUInt64 <<< 16 |||
    b3.toUInt64 <<< 24 ||| b4.toUInt64 <<< 32 ||| b5.toUInt64 <<< 40 |||
    b6.toUInt64 <<< 48 ||| b7.toUInt64 <<< 56)

end RaspiOrbSlam.Protocol
