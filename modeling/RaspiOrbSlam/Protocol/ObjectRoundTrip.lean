import RaspiOrbSlam.Protocol.PacketRoundTrip

/-!
# Reading back objects

An object goes through the overloads for `Serializable` by its own writer and
its own reader. The two agree on a plain object. The writer of a packet puts the
opcode in front, which its reader does not read: the reader has to start behind
it, as the receive procedure starts it.
-/

namespace RaspiOrbSlam.Protocol

open Foundation

variable {w : Nat} {T : Type}

/-- The writer's bytes begin with `head`, and the reader started behind `head`
returns the value and stops behind the last of them. The bytes may follow and
precede others, and the reader may be that of the object itself or the overload
for nested objects. -/
def ReadBackBehind (head : List UInt8) (serialize : T → List UInt8) (deserialize : StreamM w T)
    (v : T) : Prop :=
  head <+: serialize v ∧
    ∀ (pre suf : List UInt8) (vec : ByteVector w),
      vec.bytes = serializeObject (serialize v) pre ++ suf →
      ∀ vs : VectorStream w, vs.StandsAfter vec (pre ++ head) →
      ∀ read, read = deserialize ∨ read = deserializeObject (some deserialize) →
        ∃ vs', read vs = .ok (v, vs') ∧ vs'.StandsAfter vec (serializeObject (serialize v) pre)

theorem readBackBehind_of_yields {head bs : List UInt8} {serialize : T → List UInt8}
    {f : StreamM w T} {body : WireParser T} {v : T} (hbytes : serialize v = head ++ bs)
    (hf : Simulates f body) (hbody : Parser.Yields body bs v) :
    ReadBackBehind head serialize f v := by
  refine ⟨⟨bs, hbytes.symm⟩, ?_⟩
  intro pre suf vec hvec vs hvs read hread
  have hsim : Simulates read body := by
    rcases hread with rfl | rfl
    · exact hf
    · exact simulates_deserializeObject hf
  rw [serializeObject, hbytes, ← List.append_assoc] at hvec ⊢
  rw [List.append_assoc] at hvec
  exact ⟨_, hsim.of_yields hbody (hvs.remaining_eq hvec), hvs.skip hvec⟩

theorem Framed.readBackBehind {opcode : PacketOpcode} {serialize : T → List UInt8}
    {f : StreamM w T} {body : WireParser T} {p : T} (h : Framed opcode body (serialize p) p)
    (hf : Simulates f body) : ReadBackBehind [opcode.toByte] serialize f p := by
  obtain ⟨bs, hbytes, hbody⟩ := h
  exact readBackBehind_of_yields hbytes hf hbody

/-- The whole encoding of a codec's value is read back. -/
theorem Codec.readBackBehind (c : Codec w T) {v : T} (hv : c.Valid v) (h : c.restored v = v) :
    ReadBackBehind [] (fun v => c.serialize v []) c.deserialize v := by
  have hyields := c.yields v hv
  rw [h] at hyields
  exact readBackBehind_of_yields rfl c.simulates hyields

/-- A list of objects without an opcode, each written and read as a nested object. -/
theorem readBackBehind_list (pf : Platform w) (c : Codec w T) (hvalid : ∀ v, c.Valid v)
    (hrestored : c.restored = id) {list : List T} (hlist : pf.Fits list.length) :
    ReadBackBehind [] (fun list => serializeVector c.serialize list [])
      (deserializeVector pf c.deserialize) list := by
  apply (c.vector pf).readBackBehind ⟨hlist, fun v _ => hvalid v⟩
  change list.map c.restored = list
  rw [hrestored, List.map_id]

/-- Objects without an opcode are read back as they are, alone and in lists;
packets are read back behind their opcode. -/
theorem objects_readBack (pf : Platform w) :
    (∀ c, ReadBackBehind [] LedColor.serialize (LedColor.deserialize (w := w)) c) ∧
      (∀ p, ReadBackBehind [] OverlayPoint.serialize (OverlayPoint.deserialize pf) p) ∧
      (∀ colors : List LedColor, pf.Fits colors.length →
        ReadBackBehind []
          (fun list => serializeVector (fun c => serializeObject c.serialize) list [])
          (deserializeVector pf (deserializeObject (some LedColor.deserialize)))
          colors) ∧
      (∀ points : List OverlayPoint, pf.Fits points.length →
        ReadBackBehind []
          (fun list => serializeVector (fun p => serializeObject p.serialize) list [])
          (deserializeVector pf
            (deserializeObject (some (OverlayPoint.deserialize pf))))
          points) ∧
      (∀ p, ReadBackBehind [PacketOpcode.move.toByte] MovePacket.serialize
        (MovePacket.deserialize (w := w)) p) ∧
      (∀ p, ReadBackBehind [PacketOpcode.stop.toByte] StopPacket.serialize
        (StopPacket.deserialize (w := w)) p) ∧
      (∀ p : LedsPacket, pf.Fits p.mLeds.length →
        ReadBackBehind [PacketOpcode.leds.toByte] LedsPacket.serialize
          (LedsPacket.deserialize pf) p) ∧
      ∀ p, ReadBackBehind [PacketOpcode.stat.toByte] MetricsPacket.serialize
        (MetricsPacket.deserialize (w := w)) p := by
  refine ⟨fun c => Codec.ledColor.readBackBehind trivial rfl,
    fun p => (Codec.overlayPoint pf).readBackBehind trivial rfl,
    fun _ => readBackBehind_list pf Codec.ledColor.object (fun _ => trivial) rfl,
    fun _ => readBackBehind_list pf (Codec.overlayPoint pf).object
      (fun _ => trivial) rfl,
    fun p => p.framed.readBackBehind simulates_moveBody,
    fun p => p.framed.readBackBehind simulates_stopBody,
    fun p h => (p.framed pf h).readBackBehind (simulates_ledsBody pf),
    fun p => p.framed.readBackBehind simulates_metricsBody⟩

/-- Two colors behind the opcode of their list. -/
theorem objects_readBack_two_leds :
    ReadBackBehind [PacketOpcode.leds.toByte] LedsPacket.serialize
      (LedsPacket.deserialize armhf) ⟨[⟨255, 0, 120⟩, ⟨0, 0, 255⟩]⟩ :=
  (objects_readBack armhf).2.2.2.2.2.2.1 ⟨[⟨255, 0, 120⟩, ⟨0, 0, 255⟩]⟩ (by decide)

/-- The sample of the protocol's own `main`: the reader starts on the opcode, takes
it for the left speed, and leaves the right speed unread. -/
theorem move_misread_on_opcode :
    let data : ByteVector 32 := ⟨[1, 156, 0], by decide⟩
    (⟨-100, 0⟩ : MovePacket).serialize = data.bytes ∧
      MovePacket.deserialize (.ofVector data) = .ok (⟨1, -100⟩, ⟨data, 2, 0⟩) ∧
      ¬ReadBackBehind [] MovePacket.serialize (MovePacket.deserialize (w := 32)) ⟨-100, 0⟩ := by
  intro data
  have hbytes : (⟨-100, 0⟩ : MovePacket).serialize = data.bytes := by decide
  have hread : MovePacket.deserialize (.ofVector data) = .ok (⟨1, -100⟩, ⟨data, 2, 0⟩) := by
    decide +kernel
  refine ⟨hbytes, hread, fun h => ?_⟩
  have hdata : data.bytes = serializeObject (MovePacket.serialize ⟨-100, 0⟩) [] ++ [] := by
    decide
  obtain ⟨vs', hback, -⟩ := h.2 [] [] data hdata (.ofVector data) ⟨rfl, rfl⟩ _ (Or.inl rfl)
  rw [hread] at hback
  have hvalue : (⟨1, -100⟩ : MovePacket) = ⟨-100, 0⟩ := congrArg Prod.fst (Except.ok.inj hback)
  exact absurd hvalue (by decide)

end RaspiOrbSlam.Protocol
