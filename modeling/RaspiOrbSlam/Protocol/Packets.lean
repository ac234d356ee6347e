import RaspiOrbSlam.Protocol.Serializer

/-!
# Packets

The objects of the protocol, each with its own writer and reader. The writer of
a packet starts with the packet's opcode; its reader starts behind it.
-/

namespace RaspiOrbSlam.Protocol

variable {w : Nat} (pf : Platform w)

inductive PacketOpcode where
  /-- Movement with speed. -/
  | move
  /-- Immediate stop. -/
  | stop
  /-- Update LED colors. -/
  | leds
  /-- System statistics. -/
  | stat
  /-- Overlay and point update. -/
  | opud
  /-- Camera path update. -/
  | cpud
  deriving DecidableEq, Repr

/-- The byte of an opcode. -/
def PacketOpcode.toByte : PacketOpcode → UInt8
  | move => 1
  | stop => 2
  | leds => 3
  | stat => 4
  | opud => 5
  | cpud => 6

structure MovePacket where
  mLeftSpeed : Int8
  mRightSpeed : Int8
  deriving DecidableEq

def MovePacket.serialize (p : MovePacket) : List UInt8 :=
  serializeInt8 p.mRightSpeed (serializeInt8 p.mLeftSpeed [PacketOpcode.move.toByte])

def MovePacket.deserialize : StreamM w MovePacket := do
  let mLeftSpeed ← deserializeInt8
  let mRightSpeed ← deserializeInt8
  return ⟨mLeftSpeed, mRightSpeed⟩

structure StopPacket where
  deriving DecidableEq

def StopPacket.serialize (_ : StopPacket) : List UInt8 := [PacketOpcode.stop.toByte]

def StopPacket.deserialize : StreamM w StopPacket := return ⟨⟩

structure LedColor where
  mRed : UInt8
  mGreen : UInt8
  mBlue : UInt8
  deriving DecidableEq

def LedColor.serialize (c : LedColor) : List UInt8 :=
  serializeUInt8 c.mBlue (serializeUInt8 c.mGreen (serializeUInt8 c.mRed []))

def LedColor.deserialize : StreamM w LedColor := do
  let mRed ← deserializeUInt8
  let mGreen ← deserializeUInt8
  let mBlue ← deserializeUInt8
  return ⟨mRed, mGreen, mBlue⟩

/-- The colors are behind pointers; the writer needs every one of them to own an object. -/
structure LedsPacket where
  mLeds : List LedColor
  deriving DecidableEq

def LedsPacket.serialize (p : LedsPacket) : List UInt8 :=
  serializeVector (fun c => serializeObject c.serialize) p.mLeds [PacketOpcode.leds.toByte]

def LedsPacket.deserialize : StreamM w LedsPacket := do
  let mLeds ← deserializeVector pf (deserializeObject (some LedColor.deserialize))
  return ⟨mLeds⟩

structure OverlayPoint where
  mX : UInt16
  mY : UInt16
  mFlags : UInt8
  deriving DecidableEq

def OverlayPoint.serialize (p : OverlayPoint) : List UInt8 :=
  serializeUInt8 p.mFlags (serializeUInt16 p.mY (serializeUInt16 p.mX []))

def OverlayPoint.deserialize : StreamM w OverlayPoint := do
  let mX ← deserializeUInt16 pf
  let mY ← deserializeUInt16 pf
  let mFlags ← deserializeUInt8
  return ⟨mX, mY, mFlags⟩

structure ReportPacket where
  mOverlay : List OverlayPoint
  mWorldPoints : List Vec3
  deriving DecidableEq

def ReportPacket.serialize (p : ReportPacket) : List UInt8 :=
  serializeVector serializeVec3 p.mWorldPoints
    (serializeVector (fun q => serializeObject q.serialize) p.mOverlay
      [PacketOpcode.opud.toByte])

def ReportPacket.deserialize : StreamM w ReportPacket := do
  let mOverlay ← deserializeVector pf (deserializeObject (some (OverlayPoint.deserialize pf)))
  let mWorldPoints ← deserializeVector pf deserializeVec3
  return ⟨mOverlay, mWorldPoints⟩

structure PathPacket where
  mCurrentCameraPos : Vec3
  mIndex : UInt64
  deriving DecidableEq

def PathPacket.serialize (p : PathPacket) : List UInt8 :=
  serializeUInt64 p.mIndex (serializeVec3 p.mCurrentCameraPos [PacketOpcode.cpud.toByte])

def PathPacket.deserialize : StreamM w PathPacket := do
  let mCurrentCameraPos ← deserializeVec3
  let mIndex ← deserializeUInt64 pf
  return ⟨mCurrentCameraPos, mIndex⟩

structure MetricsPacket where
  mFps : UInt32
  mCpuUsage : UInt8
  mMemUsage : UInt8
  mTrackingState : UInt8
  deriving DecidableEq

def MetricsPacket.serialize (p : MetricsPacket) : List UInt8 :=
  serializeUInt8 p.mTrackingState (serializeUInt8 p.mMemUsage (serializeUInt8 p.mCpuUsage
    (serializeFloat p.mFps [PacketOpcode.stat.toByte])))

def MetricsPacket.deserialize : StreamM w MetricsPacket := do
  let mFps ← deserializeFloat
  let mCpuUsage ← deserializeUInt8
  let mMemUsage ← deserializeUInt8
  let mTrackingState ← deserializeUInt8
  return ⟨mFps, mCpuUsage, mMemUsage, mTrackingState⟩

/-- `deserializePacket`: a fresh stream, one byte skipped, then the packet's reader. -/
def deserializePacket {T : Type} (deserialize : StreamM w T) (data : ByteVector w) :
    Except Fault (T × VectorStream w) :=
  (do
    let _ ← VectorStream.get
    deserialize) (VectorStream.ofVector data)

end RaspiOrbSlam.Protocol
