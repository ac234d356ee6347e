import RaspiOrbSlam.Protocol.Varint
import RaspiOrbSlam.Protocol.Vec3

/-!
# The serializer's overloads

One writer and one reader for each type that the packets use. A float is held
as its bit pattern, a string as its bytes, and a `unique_ptr` as the object it
owns.
-/

namespace RaspiOrbSlam.Protocol

open Foundation

variable {w : Nat} (pf : Platform w) {α : Type}

def serializeBool (b : Bool) (out : List UInt8) : List UInt8 := out ++ [if b then 1 else 0]

def deserializeBool : StreamM w Bool := do
  let b ← VectorStream.get
  return decide (b ≠ 0)

def serializeInt8 (num : Int8) (out : List UInt8) : List UInt8 := out ++ [num.toUInt8]

def deserializeInt8 : StreamM w Int8 := do
  let b ← VectorStream.get
  return b.toInt8

def serializeUInt8 (num : UInt8) (out : List UInt8) : List UInt8 := out ++ [num]

def deserializeUInt8 : StreamM w UInt8 := VectorStream.get

def serializeUInt16 (num : UInt16) (out : List UInt8) : List UInt8 :=
  serializeUInt64 (num.toUInt64 &&& 0xFFFF) out

def deserializeUInt16 : StreamM w UInt16 := do
  let tmp ← deserializeUInt64 pf
  return tmp.toUInt16

/-- `resize(n)` of a string or a vector. -/
def resize (n : Nat) : StreamM w Unit :=
  if pf.maxSize < n then throw .allocation else pure ()

/-- The conversion of a `uint64_t` to `size_t`. -/
def toSize (w : Nat) (len : UInt64) : Nat := len.toNat % 2 ^ w

def serializeString (str : List UInt8) (out : List UInt8) : List UInt8 :=
  serializeUInt64 (UInt64.ofNat str.length) out ++ str

def deserializeString : StreamM w (List UInt8) := do
  let len ← deserializeUInt64 pf
  resize pf (toSize w len)
  let first ← VectorStream.curr
  let str ← VectorStream.copy first (toSize w len)
  VectorStream.advance (BitVec.ofNat w (toSize w len))
  return str

/-- `Serializer::serialize(const float)`. -/
def serializeFloat (num : UInt32) (out : List UInt8) : List UInt8 :=
  out ++ [(num &&& 0xFF).toUInt8, ((num >>> 8) &&& 0xFF).toUInt8,
    ((num >>> 16) &&& 0xFF).toUInt8, ((num >>> 24) &&& 0xFF).toUInt8]

/-- `Serializer::deserialize(float&)`. -/
def deserializeFloat : StreamM w UInt32 := do
  let b0 ← VectorStream.get
  let b1 ← VectorStream.get
  let b2 ← VectorStream.get
  let b3 ← VectorStream.get
  return b0.toUInt32 ||| b1.toUInt32 <<< 8 ||| b2.toUInt32 <<< 16 ||| b3.toUInt32 <<< 24

/-- Two floats, as bit patterns. -/
structure Vec2 where
  x : UInt32
  y : UInt32
  deriving DecidableEq

def serializeVec2 (vec : Vec2) (out : List UInt8) : List UInt8 :=
  serializeFloat vec.y (serializeFloat vec.x out)

def deserializeVec2 : StreamM w Vec2 := do
  let x ← deserializeFloat
  let y ← deserializeFloat
  return ⟨x, y⟩

/-- `Serializer::serialize(const Serializable*)`, given the bytes of the object. -/
def serializeObject (tmp : List UInt8) (out : List UInt8) : List UInt8 := out ++ tmp

/-- `Serializer::deserialize(Serializable*)`, given the object's own reader, or
`none` for a null pointer. -/
def deserializeObject : Option (StreamM w α) → StreamM w α
  | none => throw (.runtimeError "cannot deserialize stream into a null pointer")
  | some deserialize => do
      let pos ← VectorStream.position
      let oldShadowOffset ← VectorStream.setShadowOffset pos
      let obj ← deserialize
      let _ ← VectorStream.setShadowOffset oldShadowOffset
      return obj

/-- `Serializer::serialize(const std::vector<T>&)`. -/
def serializeVector (serialize : α → List UInt8 → List UInt8) (list : List α)
    (out : List UInt8) : List UInt8 :=
  list.foldl (fun out element => serialize element out)
    (serializeUInt64 (UInt64.ofNat list.length) out)

/-- `Serializer::deserialize(std::vector<T>&)`. The loop counts to the 64-bit
length; an element behind the resized list would be written out of bounds. -/
def deserializeVector (deserialize : StreamM w α) : StreamM w (List α) := do
  let len ← deserializeUInt64 pf
  resize pf (toSize w len)
  let list ← times deserialize (toSize w len)
  if toSize w len < len.toNat then throw .outOfBounds else return list

end RaspiOrbSlam.Protocol
