import RaspiOrbSlam.Protocol.PacketRoundTrip
import RaspiOrbSlam.Server.ClientHandler
import RaspiOrbSlam.Tank.Serial

/-!
# From a message to the serial link

The overloads of `packetHandlers::handlePacket` turn the packet of a message
into commands for the tank. The bytes of a packet make the handler call the
overload of the packet with the packet itself; from there on only the commands
matter.
-/

namespace RaspiOrbSlam.Server

open Foundation Protocol Tank

variable {w : Nat}

/-- The loop over the colors; the index `i` is a `size_t` that becomes a byte. -/
def setLedColors (write : TankSerial → Frame → Int) (i : BitVec w) : List LedColor → SerialM Unit
  | [] => pure ()
  | l :: rest => do
      let _ ← setLedColor write (.ofBitVec (i.setWidth 8)) l.mRed l.mGreen l.mBlue
      setLedColors write (i + 1) rest

/-- `packetHandlers::handlePacket`, on a machine whose `size_t` has `w` bits. -/
def handlePacket (w : Nat) (write : TankSerial → Frame → Int) : Call → SerialM Unit
  | .move pkt => do
      let _ ← speed write pkt.mLeftSpeed pkt.mRightSpeed
  | .stop _ => do
      let _ ← Tank.stop write
  | .leds pkt => setLedColors write (0 : BitVec w) pkt.mLeds

/-- A message and the commands it causes. -/
def receive (pf : Platform w) (write : TankSerial → Frame → Int) (data : ByteVector w) :
    SerialM Unit :=
  match onBinaryMessage pf data with
  | .error e => throw e
  | .ok (.handlePacket call) => handlePacket w write call
  | .ok (.puts _) => pure ()

/-- The bytes of the packet of a call. -/
def Call.serialize : Call → List UInt8
  | .move pkt => pkt.serialize
  | .stop pkt => pkt.serialize
  | .leds pkt => pkt.serialize

/-- A list of colors has a length that can be sent. -/
def Call.Small (pf : Platform w) : Call → Prop
  | .leds pkt => pf.Fits pkt.mLeds.length
  | _ => True

/-- The bytes of a packet, whatever follows them, make the handler call
`handlePacket` with the packet. -/
theorem onBinaryMessage_serialize (pf : Platform w) {call : Call} (hsmall : call.Small pf)
    {data : ByteVector w} {t : List UInt8} (hdata : data.bytes = call.serialize ++ t) :
    onBinaryMessage pf data = .ok (.handlePacket call) := by
  cases call with
  | move pkt =>
      obtain ⟨vs, hread, _⟩ := MovePacket.received pkt t data hdata
      have hfirst : data.bytes[0]? = some PacketOpcode.move.toByte := by
        rw [hdata]
        rfl
      rw [onBinaryMessage, hfirst]
      simp only [if_true, hread]
      rfl
  | stop pkt =>
      obtain ⟨vs, hread, _⟩ := StopPacket.received pkt t data hdata
      have hfirst : data.bytes[0]? = some PacketOpcode.stop.toByte := by
        rw [hdata]
        rfl
      rw [onBinaryMessage, hfirst]
      simp only [if_true, hread]
      rfl
  | leds pkt =>
      obtain ⟨vs, hread, _⟩ := LedsPacket.received pf pkt hsmall t data hdata
      have hfirst : data.bytes[0]? = some PacketOpcode.leds.toByte := by
        have hbytes := (Codec.ledColor.object.vector pf).serialize_append pkt.mLeds
          [PacketOpcode.leds.toByte]
        change pkt.serialize = _ at hbytes
        change data.bytes = pkt.serialize ++ t at hdata
        rw [hdata, hbytes]
        rfl
      rw [onBinaryMessage, hfirst]
      simp only [if_true, hread]
      rfl

/-- The frame that `setLedColor` sends for one color. -/
def ledFrame (id : UInt8) (l : LedColor) : Frame :=
  commandFrame .ledSet [id, l.mRed, l.mGreen, l.mBlue]

def isLedSet (frame : Frame) : Bool := decide (opcodeOf frame = TankOpcode.ledSet.toByte)

theorem isLedSet_ledFrame (id : UInt8) (l : LedColor) : isLedSet (ledFrame id l) = true :=
  decide_eq_true (opcodeOf_commandFrame .ledSet (Nat.le_succ 4))

theorem ledFrame_id (id : UInt8) (l : LedColor) : (ledFrame id l)[3] = id :=
  (commandFrame_get .ledSet _ 3 (by decide)).trans (payload_arg .ledSet _ 0 (by decide))

/-- The frames of the colors from the index `i` on, the index cut to a byte. -/
def ledFrames (i : Nat) : List LedColor → List Frame
  | [] => []
  | l :: rest => ledFrame (UInt8.ofNat i) l :: ledFrames (i + 1) rest

@[simp] theorem length_ledFrames (i : Nat) (leds : List LedColor) :
    (ledFrames i leds).length = leds.length := by
  induction leds generalizing i with
  | nil => rfl
  | cons l rest ih => simp only [ledFrames, List.length_cons, ih]

theorem isLedSet_of_mem {i : Nat} {leds : List LedColor} {frame : Frame}
    (h : frame ∈ ledFrames i leds) : isLedSet frame = true := by
  induction leds generalizing i with
  | nil => cases h
  | cons l rest ih =>
      rcases List.mem_cons.mp h with rfl | h
      · exact isLedSet_ledFrame _ l
      · exact ih h

theorem filter_ledFrames (i : Nat) (leds : List LedColor) :
    (ledFrames i leds).filter isLedSet = ledFrames i leds :=
  List.filter_eq_self.mpr fun _ h => isLedSet_of_mem h

theorem ledFrames_ids (i : Nat) (leds : List LedColor) :
    (ledFrames i leds).map (fun frame => frame[3]) =
      (List.range' i leds.length).map UInt8.ofNat := by
  induction leds generalizing i with
  | nil => rfl
  | cons l rest ih =>
      rw [ledFrames, List.map_cons, ih, ledFrame_id]
      rfl

/-- The loop writes the frames of all colors in order. -/
theorem setLedColors_eq (hw : 8 ≤ w) (write : TankSerial → Frame → Int) (i : Nat)
    (leds : List LedColor) (serial : TankSerial) :
    setLedColors write (BitVec.ofNat w i) leds serial =
      (.ok (), { serial with written := serial.written ++ ledFrames i leds }) := by
  induction leds generalizing i serial with
  | nil =>
      rw [ledFrames, List.append_nil]
      rfl
  | cons l rest ih =>
      have hid : UInt8.ofBitVec ((BitVec.ofNat w i).setWidth 8) = UInt8.ofNat i := by
        rw [BitVec.setWidth_ofNat_of_le hw]
        rfl
      have hnext : BitVec.ofNat w i + 1 = BitVec.ofNat w (i + 1) := (BitVec.ofNat_add i 1).symm
      have hset : setLedColor write (UInt8.ofNat i) l.mRed l.mGreen l.mBlue serial =
          (.ok _, { serial with written := serial.written ++ [ledFrame (UInt8.ofNat i) l] }) :=
        sendCommandRaw_eq write (by simp) serial
      rw [setLedColors, hid, hnext, Fallible.bind_ok hset, ih, ledFrames, List.append_assoc]
      rfl

/-- Among the frames that the bytes of a packet cause, the LED_SET frames are one
for each color whose index fits the id byte, in the order of the indices, and no
id is used twice. -/
def AddressesEachLedOnce (pf : Platform w) (write : TankSerial → Frame → Int) (p : LedsPacket)
    (data : ByteVector w) (serial : TankSerial) : Prop :=
  ∃ serial' sent, receive pf write data serial = (.ok (), serial') ∧
    serial'.written = serial.written ++ sent ∧
    sent.filter isLedSet =
      (p.mLeds.take 256).zipIdx.map (fun l => ledFrame (UInt8.ofNat l.2) l.1) ∧
    ((sent.filter isLedSet).map fun frame => frame[3]).Nodup

/-- The bytes of a packet cause one frame a color, the index cut to a byte. -/
theorem receive_leds (pf : Platform w) (write : TankSerial → Frame → Int) {p : LedsPacket}
    (hp : pf.Fits p.mLeds.length) {data : ByteVector w} (hdata : data.bytes = p.serialize)
    (serial : TankSerial) :
    receive pf write data serial =
      (.ok (), { serial with written := serial.written ++ ledFrames 0 p.mLeds }) := by
  have hdata' : data.bytes = (Call.leds p).serialize ++ [] := hdata.trans (List.append_nil _).symm
  have hsmall : (Call.leds p).Small pf := hp
  have hcall := onBinaryMessage_serialize pf hsmall hdata'
  have hwidth : 8 ≤ w := Nat.le_trans (by decide) pf.le_width
  rw [receive, hcall]
  exact setLedColors_eq hwidth write 0 p.mLeds serial

theorem ledFrames_eq_map (i : Nat) (leds : List LedColor) :
    ledFrames i leds = (leds.zipIdx i).map fun l => ledFrame (UInt8.ofNat l.2) l.1 := by
  induction leds generalizing i with
  | nil => rfl
  | cons l rest ih => rw [ledFrames, ih, List.zipIdx_cons, List.map_cons]

/-- The indices below 256 are different bytes. -/
theorem nodup_bytes {n : Nat} (hn : n ≤ 256) : ((List.range' 0 n).map UInt8.ofNat).Nodup := by
  apply List.Nodup.map_on _ (List.nodup_range' ..)
  intro i hi j hj h
  have hnat := congrArg UInt8.toNat h
  rw [UInt8.toNat_ofNat', UInt8.toNat_ofNat'] at hnat
  have hi' := List.mem_range'_1.mp hi
  have hj' := List.mem_range'_1.mp hj
  omega

theorem length_le_of_addressesEachLedOnce (pf : Platform w)
    {write : TankSerial → Frame → Int} {p : LedsPacket} (hp : pf.Fits p.mLeds.length)
    {data : ByteVector w} (hdata : data.bytes = p.serialize) {serial : TankSerial}
    (h : AddressesEachLedOnce pf write p data serial) : p.mLeds.length ≤ 256 := by
  obtain ⟨serial', sent, hreceive, hwritten, hsent, _⟩ := h
  rw [receive_leds pf write hp hdata serial] at hreceive
  have hserial := congrArg Prod.snd hreceive
  subst hserial
  have hframes : sent = ledFrames 0 p.mLeds := (List.append_cancel_left hwritten).symm
  rw [hframes, filter_ledFrames] at hsent
  have hlen := congrArg List.length hsent
  simp only [length_ledFrames, List.length_map, List.length_zipIdx, List.length_take] at hlen
  omega

/-- Which packets address each LED once. -/
theorem addressesEachLedOnce_iff (pf : Platform w) (write : TankSerial → Frame → Int)
    (p : LedsPacket) (hp : pf.Fits p.mLeds.length) (data : ByteVector w)
    (hdata : data.bytes = p.serialize) (serial : TankSerial) :
    AddressesEachLedOnce pf write p data serial ↔ p.mLeds.length ≤ 256 := by
  refine ⟨length_le_of_addressesEachLedOnce pf hp hdata, ?_⟩
  intro hn
  refine ⟨_, ledFrames 0 p.mLeds, receive_leds pf write hp hdata serial, rfl, ?_, ?_⟩
  · rw [filter_ledFrames, List.take_of_length_le hn]
    exact ledFrames_eq_map 0 p.mLeds
  · rw [filter_ledFrames, ledFrames_ids]
    exact nodup_bytes hn

/-- Two colors, to two LEDs. -/
theorem addressesEachLedOnce_two_colors :
    AddressesEachLedOnce armhf (fun _ _ => 10) ⟨[⟨255, 0, 0⟩, ⟨0, 255, 0⟩]⟩
      ⟨[3, 2, 255, 0, 0, 0, 255, 0], by decide⟩ ⟨3, []⟩ :=
  (addressesEachLedOnce_iff armhf (fun _ _ => 10) ⟨[⟨255, 0, 0⟩, ⟨0, 255, 0⟩]⟩ (by decide)
    ⟨[3, 2, 255, 0, 0, 0, 255, 0], by decide⟩ (by decide +kernel) ⟨3, []⟩).mpr (by decide)

/-- 256 dark colors and a red one. -/
def oneColorTooMany : LedsPacket := ⟨List.replicate 256 ⟨0, 0, 0⟩ ++ [⟨255, 0, 0⟩]⟩

theorem oneColorTooMany_size : oneColorTooMany.serialize.length < 2 ^ 32 := by decide +kernel

/-- The red color goes to the LED of the first color. -/
theorem last_color_to_first_led :
    (∃ frames, receive armhf (fun _ _ => 10)
          ⟨oneColorTooMany.serialize, oneColorTooMany_size⟩ ⟨3, []⟩ = (.ok (), ⟨3, frames⟩) ∧
        frames[0]? = some (ledFrame 0 ⟨0, 0, 0⟩) ∧ frames[256]? = some (ledFrame 0 ⟨255, 0, 0⟩)) ∧
      ¬AddressesEachLedOnce armhf (fun _ _ => 10) oneColorTooMany
        ⟨oneColorTooMany.serialize, oneColorTooMany_size⟩ ⟨3, []⟩ := by
  have hp : oneColorTooMany.mLeds.length = 257 := by
    rw [oneColorTooMany, List.length_append, List.length_replicate]
    rfl
  have hsmall : armhf.Fits oneColorTooMany.mLeds.length := by
    rw [hp]
    decide
  have hbytes : (⟨oneColorTooMany.serialize, oneColorTooMany_size⟩ : ByteVector 32).bytes =
      oneColorTooMany.serialize := by dsimp only
  refine ⟨⟨ledFrames 0 oneColorTooMany.mLeds, ?_, rfl, by decide +kernel⟩, ?_⟩
  · have hrun := receive_leds armhf (fun _ _ => 10) hsmall hbytes ⟨3, []⟩
    rwa [List.nil_append] at hrun
  · intro h
    have hle := length_le_of_addressesEachLedOnce armhf hsmall hbytes h
    omega

end RaspiOrbSlam.Server
