import RaspiOrbSlam.Protocol.Packets
import RaspiOrbSlam.Protocol.WireFormat
import RaspiOrbSlam.Protocol.Vec3RoundTrip

/-!
# The format of the packets

Parsers for the objects and for the bodies of the packets, behind the opcode.
Each reader refines the parser of its type, and the receive procedure has the
outcome of one skipped byte followed by the body.
-/

namespace RaspiOrbSlam.Protocol

open Foundation

variable {w : Nat} (pf : Platform w)

def ledColor : WireParser LedColor := do
  let mRed ← uint8
  let mGreen ← uint8
  let mBlue ← uint8
  return ⟨mRed, mGreen, mBlue⟩

theorem simulates_ledColor : Simulates (LedColor.deserialize (w := w)) ledColor :=
  Simulates.get.bind fun _ => Simulates.get.bind fun _ => Simulates.get.bind fun _ =>
    Simulates.pure _

def overlayPoint : WireParser OverlayPoint := do
  let mX ← uint16 pf
  let mY ← uint16 pf
  let mFlags ← uint8
  return ⟨mX, mY, mFlags⟩

theorem simulates_overlayPoint : Simulates (OverlayPoint.deserialize pf) (overlayPoint pf) :=
  (simulates_deserializeUInt16 pf).bind fun _ => (simulates_deserializeUInt16 pf).bind fun _ =>
    Simulates.get.bind fun _ => Simulates.pure _

def moveBody : WireParser MovePacket := do
  let mLeftSpeed ← int8
  let mRightSpeed ← int8
  return ⟨mLeftSpeed, mRightSpeed⟩

theorem simulates_moveBody : Simulates (MovePacket.deserialize (w := w)) moveBody :=
  simulates_deserializeInt8.bind fun _ => simulates_deserializeInt8.bind fun _ =>
    Simulates.pure _

def stopBody : WireParser StopPacket := return ⟨⟩

theorem simulates_stopBody : Simulates (StopPacket.deserialize (w := w)) stopBody :=
  Simulates.pure _

def ledsBody : WireParser LedsPacket := do
  let mLeds ← listOf pf ledColor
  return ⟨mLeds⟩

theorem simulates_ledsBody : Simulates (LedsPacket.deserialize pf) (ledsBody pf) :=
  (simulates_deserializeVector pf (simulates_deserializeObject simulates_ledColor)).bind fun _ =>
    Simulates.pure _

def reportBody : WireParser ReportPacket := do
  let mOverlay ← listOf pf (overlayPoint pf)
  let mWorldPoints ← listOf pf vec3
  return ⟨mOverlay, mWorldPoints⟩

theorem simulates_reportBody : Simulates (ReportPacket.deserialize pf) (reportBody pf) :=
  (simulates_deserializeVector pf
    (simulates_deserializeObject (simulates_overlayPoint pf))).bind fun _ =>
      (simulates_deserializeVector pf simulates_deserializeVec3).bind fun _ => Simulates.pure _

def pathBody : WireParser PathPacket := do
  let mCurrentCameraPos ← vec3
  let mIndex ← varint pf
  return ⟨mCurrentCameraPos, mIndex⟩

theorem simulates_pathBody : Simulates (PathPacket.deserialize pf) (pathBody pf) :=
  simulates_deserializeVec3.bind fun _ => (simulates_deserializeUInt64 pf).bind fun _ =>
    Simulates.pure _

def metricsBody : WireParser MetricsPacket := do
  let mFps ← float
  let mCpuUsage ← uint8
  let mMemUsage ← uint8
  let mTrackingState ← uint8
  return ⟨mFps, mCpuUsage, mMemUsage, mTrackingState⟩

theorem simulates_metricsBody : Simulates (MetricsPacket.deserialize (w := w)) metricsBody :=
  simulates_deserializeFloat.bind fun _ => Simulates.get.bind fun _ => Simulates.get.bind fun _ =>
    Simulates.get.bind fun _ => Simulates.pure _

/-- The receive procedure skips the opcode and has the outcome of the body's parser. -/
theorem deserializePacket_cons {T : Type} {f : StreamM w T} {p : WireParser T}
    (hf : Simulates f p) {data : ByteVector w} {opcode : UInt8} {body : List UInt8}
    (hdata : data.bytes = opcode :: body) :
    (deserializePacket f data).map Prod.fst = (p body).map Prod.fst := by
  have hread := Simulates.get.bind (fun _ => hf) (VectorStream.ofVector data)
  rw [VectorStream.ofVector_remaining, hdata] at hread
  rcases hread with ⟨a, k, _, hp, hf⟩ | ⟨e, hp, hf⟩
  · change p body = _ at hp
    change deserializePacket f data = _ at hf
    rw [hp, hf]
    rfl
  · change p body = _ at hp
    change deserializePacket f data = _ at hf
    rw [hp, hf]
    rfl

end RaspiOrbSlam.Protocol
