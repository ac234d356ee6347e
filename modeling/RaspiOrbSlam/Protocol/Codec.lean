import RaspiOrbSlam.Protocol.PacketFormat
import RaspiOrbSlam.Protocol.Vec3RoundTrip

/-!
# Codecs

A codec is a writer and a reader of one type together with what makes them fit:
the writer only appends, the reader refines a parser on the unread bytes, and
the parser reads every valid value's encoding and not a byte more. Objects and
lists inherit their codec from their parts, so the laws are proved once for a
part and once for each way of combining.
-/

namespace RaspiOrbSlam.Protocol

open Foundation

variable {w : Nat} {α : Type}

structure Codec (w : Nat) (α : Type) where
  serialize : α → List UInt8 → List UInt8
  deserialize : StreamM w α
  parser : WireParser α
  Valid : α → Prop
  /-- The value that is read back, which need not be the one written. -/
  restored : α → α
  serialize_append : ∀ a out, serialize a out = out ++ serialize a []
  simulates : Simulates deserialize parser
  yields : ∀ a, Valid a → Parser.Yields parser (serialize a []) (restored a)

namespace Codec

/-- Behind the bytes `pre`, a valid value's encoding is read back and no more. -/
theorem readBack (c : Codec w α) {a : α} (ha : c.Valid a) {pre suf : List UInt8}
    {vec : ByteVector w} (hvec : vec.bytes = c.serialize a pre ++ suf) {vs : VectorStream w}
    (hvs : vs.StandsAfter vec pre) :
    c.deserialize vs = .ok (c.restored a, vs.skip (c.serialize a []).length) ∧
      (vs.skip (c.serialize a []).length).StandsAfter vec (c.serialize a pre) := by
  rw [c.serialize_append, List.append_assoc] at hvec
  rw [c.serialize_append a pre]
  exact ⟨c.simulates.of_yields (c.yields a ha) (hvs.remaining_eq hvec), hvs.skip hvec⟩

/-- A nested object, behind the change of the shadow offset. -/
def object (c : Codec w α) : Codec w α where
  serialize a := serializeObject (c.serialize a [])
  deserialize := deserializeObject (some c.deserialize)
  parser := c.parser
  Valid := c.Valid
  restored := c.restored
  serialize_append _ _ := rfl
  simulates := simulates_deserializeObject c.simulates
  yields := c.yields

def vector (pf : Platform w) (c : Codec w α) : Codec w (List α) where
  serialize := serializeVector c.serialize
  deserialize := deserializeVector pf c.deserialize
  parser := listOf pf c.parser
  Valid list := pf.Fits list.length ∧ ∀ a ∈ list, c.Valid a
  restored := List.map c.restored
  serialize_append list out := by
    rw [serializeVector_append c.serialize_append list out,
      serializeVector_append c.serialize_append list [], List.nil_append]
  simulates := simulates_deserializeVector pf c.simulates
  yields _ h := yields_listOf pf c.serialize_append (fun a ha => c.yields a (h.2 a ha))
    h.1.1 h.1.2

def bool : Codec w Bool where
  serialize := serializeBool
  deserialize := deserializeBool
  parser := Protocol.bool
  Valid _ := True
  restored := id
  serialize_append _ _ := rfl
  simulates := simulates_deserializeBool
  yields b _ _ := by cases b <;> rfl

def int8 : Codec w Int8 where
  serialize := serializeInt8
  deserialize := deserializeInt8
  parser := Protocol.int8
  Valid _ := True
  restored := id
  serialize_append _ _ := rfl
  simulates := simulates_deserializeInt8
  yields _ _ _ := rfl

def uint8 : Codec w UInt8 where
  serialize := serializeUInt8
  deserialize := deserializeUInt8
  parser := Protocol.uint8
  Valid _ := True
  restored := id
  serialize_append _ _ := rfl
  simulates := simulates_deserializeUInt8
  yields _ _ _ := rfl

def uint16 (pf : Platform w) : Codec w UInt16 where
  serialize := serializeUInt16
  deserialize := deserializeUInt16 pf
  parser := Protocol.uint16 pf
  Valid _ := True
  restored := id
  serialize_append := serializeUInt16_append
  simulates := simulates_deserializeUInt16 pf
  yields num _ := yields_uint16 pf num

def string (pf : Platform w) : Codec w (List UInt8) where
  serialize := serializeString
  deserialize := deserializeString pf
  parser := Protocol.string pf
  Valid str := pf.Fits str.length
  restored := id
  serialize_append str out := by
    rw [serializeString, serializeUInt64_append, List.append_assoc]
    rfl
  simulates := simulates_deserializeString pf
  yields _ h := yields_string pf h.1 h.2

def float : Codec w UInt32 where
  serialize := serializeFloat
  deserialize := deserializeFloat
  parser := Protocol.float
  Valid _ := True
  restored := id
  serialize_append _ _ := rfl
  simulates := simulates_deserializeFloat
  yields num _ := yields_float num

def vec2 : Codec w Vec2 where
  serialize := serializeVec2
  deserialize := deserializeVec2
  parser := Protocol.vec2
  Valid _ := True
  restored := id
  serialize_append vec out := by simp [serializeVec2, serializeFloat]
  simulates := simulates_deserializeVec2
  yields vec _ := (yields_float vec.x).bind ((yields_float vec.y).bind (Parser.Yields.pure _))

/-- Packed points lose bits: a written point is read back unpacked from its packed word. -/
def vec3 : Codec w Vec3 where
  serialize := serializeVec3
  deserialize := deserializeVec3
  parser := Protocol.vec3
  Valid _ := True
  restored vec := unpackVec3 (packVec3 vec)
  serialize_append := serializeVec3_append
  simulates := simulates_deserializeVec3
  yields vec _ := yields_vec3 vec

def ledColor : Codec w LedColor where
  serialize c := serializeObject c.serialize
  deserialize := LedColor.deserialize
  parser := Protocol.ledColor
  Valid _ := True
  restored := id
  serialize_append _ _ := rfl
  simulates := simulates_ledColor
  yields _ _ _ := rfl

def overlayPoint (pf : Platform w) : Codec w OverlayPoint where
  serialize p := serializeObject p.serialize
  deserialize := OverlayPoint.deserialize pf
  parser := Protocol.overlayPoint pf
  Valid _ := True
  restored := id
  serialize_append _ _ := rfl
  simulates := simulates_overlayPoint pf
  yields p _ := by
    have hbytes : serializeObject p.serialize [] =
        serializeUInt16 p.mX [] ++ (serializeUInt16 p.mY [] ++ ([p.mFlags] ++ [])) := by
      change serializeUInt16 p.mY (serializeUInt16 p.mX []) ++ [p.mFlags] = _
      rw [serializeUInt16_append, List.append_assoc, List.append_nil]
    rw [hbytes]
    refine (yields_uint16 pf p.mX).bind ((yields_uint16 pf p.mY).bind ?_)
    exact (Parser.Yields.item _ p.mFlags).bind (Parser.Yields.pure _)

end Codec

end RaspiOrbSlam.Protocol
