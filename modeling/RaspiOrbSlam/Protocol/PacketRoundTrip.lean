import RaspiOrbSlam.Protocol.Codec

/-!
# Reading back packets

What the receive procedure makes of a packet's own bytes, whatever follows them.
The opcode that the writer puts in front is the byte that the procedure skips.
-/

namespace RaspiOrbSlam.Protocol

open Foundation

variable {w : Nat} {T : Type}

/-- In front of any bytes, the receive procedure returns `p` and stops behind `bytes`. -/
def ReceivedAs (deserialize : StreamM w T) (bytes : List UInt8) (p : T) : Prop :=
  ∀ (t : List UInt8) (data : ByteVector w), data.bytes = bytes ++ t →
    ∃ vs, deserializePacket deserialize data = .ok (p, vs) ∧ vs.StandsAfter data bytes

/-- The point `v'` is what the reader makes of the eight bytes of `v`. -/
def ReadAs (w : Nat) (v v' : Vec3) : Prop :=
  ∀ (vs : VectorStream w) (rest : List UInt8), vs.remaining = serializeVec3 v [] ++ rest →
    deserializeVec3 vs = .ok (v', vs.skip (serializeVec3 v []).length)

theorem receivedAs_of_yields {f : StreamM w T} {body : WireParser T} {a : T} {bs : List UInt8}
    (hf : Simulates f body) (hbody : Parser.Yields body bs a) (opcode : PacketOpcode) :
    ReceivedAs f (opcode.toByte :: bs) a := by
  intro t data hdata
  have hyields : Parser.Yields (Parser.item .outOfBounds >>= fun _ => body)
      ([opcode.toByte] ++ bs) a := (Parser.Yields.item _ _).bind hbody
  have hstands : (VectorStream.ofVector data).StandsAfter data [] := ⟨rfl, by
    simp [VectorStream.index, VectorStream.ofVector]⟩
  have hrem : (VectorStream.ofVector data).remaining = [opcode.toByte] ++ bs ++ t := by
    rw [VectorStream.ofVector_remaining, hdata]
    rfl
  exact ⟨_, (Simulates.get.bind fun _ => hf).of_yields hyields hrem, hstands.skip hdata⟩

/-- A writer puts the opcode in front of bytes that `body` reads as `p`. -/
def Framed (opcode : PacketOpcode) (body : WireParser T) (bytes : List UInt8) (p : T) : Prop :=
  ∃ bs, bytes = opcode.toByte :: bs ∧ Parser.Yields body bs p

theorem Framed.receivedAs {opcode : PacketOpcode} {f : StreamM w T} {body : WireParser T}
    {bytes : List UInt8} {p : T} (h : Framed opcode body bytes p) (hf : Simulates f body) :
    ReceivedAs f bytes p := by
  obtain ⟨bs, rfl, hbody⟩ := h
  exact receivedAs_of_yields hf hbody opcode

theorem MovePacket.framed (p : MovePacket) : Framed .move moveBody p.serialize p :=
  ⟨[p.mLeftSpeed.toUInt8, p.mRightSpeed.toUInt8], rfl, fun _ => rfl⟩

theorem MovePacket.received (p : MovePacket) :
    ReceivedAs (MovePacket.deserialize (w := w)) p.serialize p :=
  p.framed.receivedAs simulates_moveBody

theorem StopPacket.framed (p : StopPacket) : Framed .stop stopBody p.serialize p :=
  ⟨[], rfl, Parser.Yields.pure p⟩

theorem StopPacket.received (p : StopPacket) :
    ReceivedAs (StopPacket.deserialize (w := w)) p.serialize p :=
  p.framed.receivedAs simulates_stopBody

theorem LedsPacket.framed (pf : Platform w) (p : LedsPacket)
    (h : pf.Fits p.mLeds.length) : Framed .leds (ledsBody pf) p.serialize p := by
  let leds := Codec.ledColor.object.vector pf
  have hbody := (leds.yields p.mLeds ⟨h, fun _ _ => trivial⟩).map LedsPacket.mk
  have hrestored : leds.restored p.mLeds = p.mLeds := List.map_id p.mLeds
  rw [← bind_pure_comp, hrestored] at hbody
  exact ⟨leds.serialize p.mLeds [],
    leds.serialize_append p.mLeds [PacketOpcode.leds.toByte], hbody⟩

theorem LedsPacket.received (pf : Platform w) (p : LedsPacket)
    (h : pf.Fits p.mLeds.length) :
    ReceivedAs (LedsPacket.deserialize pf) p.serialize p :=
  (p.framed pf h).receivedAs (simulates_ledsBody pf)

theorem MetricsPacket.framed (p : MetricsPacket) : Framed .stat metricsBody p.serialize p :=
  ⟨_, rfl, (yields_float p.mFps).bind
    ((Parser.Yields.item _ p.mCpuUsage).bind ((Parser.Yields.item _ p.mMemUsage).bind
      ((Parser.Yields.item _ p.mTrackingState).bind (Parser.Yields.pure p))))⟩

theorem MetricsPacket.received (p : MetricsPacket) :
    ReceivedAs (MetricsPacket.deserialize (w := w)) p.serialize p :=
  p.framed.receivedAs simulates_metricsBody

/-- The points of a report come back one by one as their own encodings decode. -/
theorem ReportPacket.received (pf : Platform w) (p : ReportPacket)
    (hoverlay : pf.Fits p.mOverlay.length) (hpoints : pf.Fits p.mWorldPoints.length) :
    ReceivedAs (ReportPacket.deserialize pf) p.serialize
      { p with mWorldPoints := p.mWorldPoints.map fun v => unpackVec3 (packVec3 v) } := by
  let overlay := (Codec.overlayPoint pf).object.vector pf
  let points := Codec.vec3.vector pf
  have hbytes : p.serialize = PacketOpcode.opud.toByte ::
      (overlay.serialize p.mOverlay [] ++ points.serialize p.mWorldPoints []) := by
    calc
      p.serialize = points.serialize p.mWorldPoints
          (overlay.serialize p.mOverlay [PacketOpcode.opud.toByte]) := rfl
      _ = PacketOpcode.opud.toByte ::
          (overlay.serialize p.mOverlay [] ++ points.serialize p.mWorldPoints []) := by
        rw [points.serialize_append, overlay.serialize_append, List.append_assoc]
        rfl
  have hrestored : overlay.restored p.mOverlay = p.mOverlay := List.map_id p.mOverlay
  have hread := (points.yields p.mWorldPoints ⟨hpoints, fun _ _ => trivial⟩).map
    (ReportPacket.mk p.mOverlay)
  have hoverlay := overlay.yields p.mOverlay ⟨hoverlay, fun _ _ => trivial⟩
  rw [hrestored] at hoverlay
  rw [← bind_pure_comp] at hread
  rw [hbytes]
  exact receivedAs_of_yields (simulates_reportBody pf) (hoverlay.bind hread) .opud

/-- The position of a path packet comes back as its own encoding decodes, and so does the index
below `2 ^ 31`. -/
theorem PathPacket.received (pf : Platform w) (p : PathPacket) (hindex : p.mIndex.toNat < 2 ^ 31) :
    ReceivedAs (PathPacket.deserialize pf) p.serialize
      { p with mCurrentCameraPos := unpackVec3 (packVec3 p.mCurrentCameraPos) } := by
  have hbytes : p.serialize = PacketOpcode.cpud.toByte ::
      (serializeVec3 p.mCurrentCameraPos [] ++ serializeUInt64 p.mIndex []) := by
    rw [PathPacket.serialize, serializeUInt64_append, serializeVec3_append, List.append_assoc]
    rfl
  have hread := yields_varint pf p.mIndex
  rw [(intToUInt64_gathered_iff pf p.mIndex).mpr (Or.inl hindex)] at hread
  have hmap := hread.map (PathPacket.mk (unpackVec3 (packVec3 p.mCurrentCameraPos)))
  rw [← bind_pure_comp] at hmap
  rw [hbytes]
  exact receivedAs_of_yields (simulates_pathBody pf) ((yields_vec3 p.mCurrentCameraPos).bind hmap)
    .cpud

theorem readAs_unpackVec3_packVec3 (w : Nat) (v : Vec3) :
    ReadAs w v (unpackVec3 (packVec3 v)) :=
  fun _ _ hvs => simulates_deserializeVec3.of_yields (yields_vec3 v) hvs

theorem forall₂_readAs (w : Nat) (points : List Vec3) :
    List.Forall₂ (ReadAs w) points (points.map fun v => unpackVec3 (packVec3 v)) := by
  induction points with
  | nil => exact List.Forall₂.nil
  | cons v rest ih => exact List.Forall₂.cons (readAs_unpackVec3_packVec3 w v) ih

/-- The five packets that the writer and the reader agree on. -/
theorem packets_received (pf : Platform w) :
    (∀ p : MovePacket, ReceivedAs (MovePacket.deserialize (w := w)) p.serialize p) ∧
      (∀ p : StopPacket, ReceivedAs (StopPacket.deserialize (w := w)) p.serialize p) ∧
      (∀ p : LedsPacket, pf.Fits p.mLeds.length →
        ReceivedAs (LedsPacket.deserialize pf) p.serialize p) ∧
      (∀ p : MetricsPacket, ReceivedAs (MetricsPacket.deserialize (w := w)) p.serialize p) ∧
      ∀ p : ReportPacket, pf.Fits p.mOverlay.length → pf.Fits p.mWorldPoints.length →
        ∃ worldPoints, List.Forall₂ (ReadAs w) p.mWorldPoints worldPoints ∧
          ReceivedAs (ReportPacket.deserialize pf) p.serialize
            ⟨p.mOverlay, worldPoints⟩ :=
  ⟨MovePacket.received, StopPacket.received, LedsPacket.received pf, MetricsPacket.received,
    fun p hoverlay hpoints => ⟨_, forall₂_readAs w p.mWorldPoints,
      p.received pf hoverlay hpoints⟩⟩

/-- Two colors, in front of one more byte. -/
theorem packets_received_two_leds :
    let data : ByteVector 32 := ⟨[3, 2, 255, 0, 0, 0, 255, 0, 9], by decide⟩
    ∃ vs, deserializePacket (LedsPacket.deserialize armhf) data =
        .ok (⟨[⟨255, 0, 0⟩, ⟨0, 255, 0⟩]⟩, vs) ∧
      vs.StandsAfter data [3, 2, 255, 0, 0, 0, 255, 0] := by
  intro data
  have hbytes : (⟨[⟨255, 0, 0⟩, ⟨0, 255, 0⟩]⟩ : LedsPacket).serialize =
      [3, 2, 255, 0, 0, 0, 255, 0] := by decide +kernel
  have h := (packets_received armhf).2.2.1 ⟨[⟨255, 0, 0⟩, ⟨0, 255, 0⟩]⟩ (by decide) [9] data
  rw [hbytes] at h
  exact h rfl

end RaspiOrbSlam.Protocol
