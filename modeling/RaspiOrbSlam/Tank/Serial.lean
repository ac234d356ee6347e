import RaspiOrbSlam.Foundation.Checksum
import RaspiOrbSlam.Foundation.Fallible
import RaspiOrbSlam.Protocol.VectorStream
import Mathlib.Data.UInt

/-!
# The serial link to the tank

`TankSerial` turns each command into a frame of ten bytes and hands it to
`write`. What the system makes of a frame is up to it: `write` is a parameter
that may answer anything, depending on all frames before.

The header byte of a frame holds the opcode and the number of arguments, the
arguments stand in a zero-padded area behind it, and the checksum makes the sum
of these bytes vanish. A command can be read off its frame, and two commands'
frames differ in two places.
-/

namespace RaspiOrbSlam.Tank

open Foundation
open Protocol (Fault)

inductive TankOpcode where
  | stop
  | move
  | ledSet
  | ledClr
  | rainbow
  | ping
  deriving DecidableEq, Repr

def TankOpcode.toByte : TankOpcode → UInt8
  | stop => 0x01
  | move => 0x02
  | ledSet => 0x03
  | ledClr => 0x04
  | rainbow => 0x05
  | ping => 0x06

/-- The buffer `uint8_t packet[10]`. -/
abbrev Frame := Vector UInt8 10

/-- The descriptor of the port, and the frames that were handed to `write`. -/
structure TankSerial where
  mPortFD : Int
  written : List Frame
  deriving DecidableEq

/-- Code of the link. What it wrote stays written when it throws. -/
abbrev SerialM := Fallible Fault TankSerial

/-- `std::copy` into the buffer, from the index `i` on. -/
def copyAt (packet : Frame) (i : Nat) : List UInt8 → Frame
  | [] => packet
  | b :: rest => copyAt (packet.setIfInBounds i b) (i + 1) rest

/-- The checksum loop, over the indices 2 to 7. -/
def checksum (packet : Frame) : UInt8 :=
  ([2, 3, 4, 5, 6, 7] : List (Fin 10)).foldl (fun checksum i => checksum + packet[i]) 0

/-- The buffer that `sendCommandRaw` fills for a command. -/
def commandFrame (opc : TankOpcode) (args : List UInt8) : Frame :=
  let packet : Frame := Vector.replicate 10 0
  let packet := packet.set 0 0x18
  let packet := packet.set 1 0x11
  let packet := packet.set 2 (opc.toByte ||| UInt8.ofNat (args.length <<< 4))
  let packet := copyAt packet 3 args
  let packet := packet.set 8 (-checksum packet)
  packet.set 9 0x17

section Commands

variable (write : TankSerial → Frame → Int)

/-- The system call `write(mPortFD, packet, 10)`. -/
def writePacket (packet : Frame) : SerialM Int := fun serial =>
  (.ok (write serial packet), { serial with written := serial.written ++ [packet] })

def sendCommandRaw (opc : TankOpcode) (args : List UInt8) : SerialM Bool :=
  if args.length > 5 then throw (.outOfRange "Too many command arguments")
  else do
    let count ← writePacket write (commandFrame opc args)
    return decide (count = 10)

def stop : SerialM Bool := sendCommandRaw write .stop []

def speed (left right : Int8) : SerialM Bool :=
  sendCommandRaw write .move [left.toUInt8, right.toUInt8]

def setLedColor (id r g b : UInt8) : SerialM Bool :=
  sendCommandRaw write .ledSet [id, r, g, b]

/-- The loop of `setAllLeds` over the remaining indices. -/
def setAllLeds.loop (r g b : UInt8) (success : Bool) : List UInt8 → SerialM Bool
  | [] => return success
  | i :: rest => do
      let ok ← setLedColor write i r g b
      loop r g b (success && ok) rest

def setAllLeds (r g b : UInt8) : SerialM Bool :=
  setAllLeds.loop write r g b true [0, 1, 2, 3, 4, 5, 6, 7]

def clearLed (id : UInt8) : SerialM Bool := sendCommandRaw write .ledClr [id]

def clearLeds : SerialM Bool := sendCommandRaw write .ledClr []

def setRainbowMode (state : Bool) : SerialM Bool :=
  sendCommandRaw write .rainbow [state.toUInt8]

def ping : SerialM Bool := sendCommandRaw write .ping []

/-- A command of at most five arguments writes its frame, whatever `write` answers. -/
theorem sendCommandRaw_eq {opc : TankOpcode} {args : List UInt8} (h : args.length ≤ 5)
    (serial : TankSerial) :
    sendCommandRaw write opc args serial =
      (.ok (decide (write serial (commandFrame opc args) = 10)),
        { serial with written := serial.written ++ [commandFrame opc args] }) := by
  rw [sendCommandRaw, if_neg (Nat.not_lt.mpr h)]
  rfl

theorem sendCommandRaw_of_too_many {opc : TankOpcode} {args : List UInt8} (h : 5 < args.length)
    (serial : TankSerial) :
    sendCommandRaw write opc args serial =
      (.error (.outOfRange "Too many command arguments"), serial) := by
  rw [sendCommandRaw, if_pos h]
  rfl

end Commands

theorem copyAt_get (packet : Frame) (i : Nat) (bytes : List UInt8) (j : Nat) (hj : j < 10) :
    (copyAt packet i bytes)[j] =
      if i ≤ j ∧ j < i + bytes.length then bytes.getD (j - i) 0 else packet[j] := by
  induction bytes generalizing packet i with
  | nil =>
      have hnot : ¬(i ≤ j ∧ j < i + ([] : List UInt8).length) :=
        fun h => absurd h.2 (Nat.not_lt.mpr h.1)
      rw [if_neg hnot]
      rfl
  | cons b rest ih =>
      rw [copyAt, ih, Vector.getElem_setIfInBounds]
      by_cases hi : i = j
      · subst hi
        rw [if_neg (by omega), if_pos rfl, if_pos (by simp)]
        simp
      · rw [if_neg hi]
        by_cases hlt : i < j
        · obtain ⟨k, rfl⟩ := Nat.exists_eq_add_of_lt hlt
          have hiff : i + 1 ≤ i + k + 1 ∧ i + k + 1 < i + 1 + rest.length ↔
              i ≤ i + k + 1 ∧ i + k + 1 < i + (b :: rest).length := by
            rw [List.length_cons]
            omega
          rw [show i + k + 1 - (i + 1) = k by omega, show i + k + 1 - i = k + 1 by omega]
          simp only [hiff, List.getD_cons_succ]
        · rw [if_neg (by omega), if_neg (by omega)]

/-- The frame before the checksum is put in. -/
def payload (opc : TankOpcode) (args : List UInt8) : Frame :=
  copyAt (((Vector.replicate 10 0 |>.set 0 0x18).set 1 0x11).set 2
    (opc.toByte ||| UInt8.ofNat (args.length <<< 4))) 3 args

theorem commandFrame_eq (opc : TankOpcode) (args : List UInt8) :
    commandFrame opc args =
      ((payload opc args).set 8 (-checksum (payload opc args))).set 9 0x17 := rfl

theorem payload_header (opc : TankOpcode) (args : List UInt8) :
    (payload opc args)[2] = opc.toByte ||| UInt8.ofNat (args.length <<< 4) := by
  rw [payload, copyAt_get _ _ _ _ (by decide), if_neg (by omega)]
  rfl

/-- Behind the last argument the frame is zero. -/
theorem payload_arg (opc : TankOpcode) (args : List UInt8) (k : Nat) (hk : 3 + k < 10) :
    (payload opc args)[3 + k] = args.getD k 0 := by
  rw [payload, copyAt_get _ _ _ _ hk]
  by_cases h : k < args.length
  · rw [if_pos ⟨Nat.le_add_right 3 k, Nat.add_lt_add_left h 3⟩, Nat.add_sub_cancel_left]
  · rw [if_neg (by omega), List.getD_eq_getElem?_getD,
      List.getElem?_eq_none (Nat.le_of_not_lt h), Option.getD_none,
      Vector.getElem_set_ne _ _ (by omega), Vector.getElem_set_ne _ _ (by omega),
      Vector.getElem_set_ne _ _ (by omega), Vector.getElem_replicate]

/-- Between the two start bytes and the checksum a frame is its payload. -/
theorem commandFrame_get (opc : TankOpcode) (args : List UInt8) (i : Fin 10) (hi : i < 8) :
    (commandFrame opc args)[i] = (payload opc args)[i] := by
  have hi' : i.val < 8 := hi
  rw [commandFrame_eq]
  change (((payload opc args).set 8 _).set 9 0x17)[i.val] = (payload opc args)[i.val]
  rw [Vector.getElem_set_ne _ _ (by omega), Vector.getElem_set_ne _ _ (by omega)]

theorem commandFrame_checksum (opc : TankOpcode) (args : List UInt8) :
    (commandFrame opc args)[8] = -checksum (payload opc args) := by
  rw [commandFrame_eq, Vector.getElem_set_ne _ _ (by decide), Vector.getElem_set_self]

/-- The bytes 2 to 8: those that the checksum covers, and its own. -/
def summed : Finset (Fin 10) := {2, 3, 4, 5, 6, 7, 8}

/-- The checksum byte cancels the bytes before it. -/
theorem sum_commandFrame (opc : TankOpcode) (args : List UInt8) :
    ∑ i ∈ summed, (commandFrame opc args)[i] = 0 := by
  have hsum : ∑ i ∈ summed, (commandFrame opc args)[i] =
      checksum (commandFrame opc args) + (commandFrame opc args)[8] := by
    simp [summed, checksum, add_assoc]
  have hcheck : checksum (commandFrame opc args) = checksum (payload opc args) := by
    simp only [checksum, List.foldl_cons, List.foldl_nil, commandFrame_get, Fin.reduceLT]
  rw [hsum, hcheck, commandFrame_checksum, add_neg_cancel]

/-- The sum of bytes as numbers, modulo 256. -/
theorem sum_toNat_mod (places : Finset (Fin 10)) (frame : Frame) :
    (∑ i ∈ places, frame[i].toNat) % 256 = (∑ i ∈ places, frame[i]).toNat := by
  induction places using Finset.induction_on with
  | empty => rfl
  | insert i rest hi ih =>
      rw [Finset.sum_insert hi, Finset.sum_insert hi, UInt8.toNat_add, ← ih]
      omega

/-- The two halves of a header byte. -/
theorem header_halves (opc : TankOpcode) {n : Nat} (hn : n ≤ 5) :
    (opc.toByte ||| UInt8.ofNat (n <<< 4)) &&& 0x0F = opc.toByte ∧
      (opc.toByte ||| UInt8.ofNat (n <<< 4)) >>> 4 = UInt8.ofNat n := by
  have hlt : n < 6 := Nat.lt_succ_of_le hn
  have hall : ∀ n : Fin 6, (opc.toByte ||| UInt8.ofNat (n.val <<< 4)) &&& 0x0F = opc.toByte ∧
      (opc.toByte ||| UInt8.ofNat (n.val <<< 4)) >>> 4 = UInt8.ofNat n := by
    cases opc <;> decide
  exact hall ⟨n, hlt⟩

/-- The opcode in the lower half of the header byte. -/
def opcodeOf (frame : Frame) : UInt8 := frame[2] &&& 0x0F

theorem opcodeOf_commandFrame (opc : TankOpcode) {args : List UInt8} (hargs : args.length ≤ 5) :
    opcodeOf (commandFrame opc args) = opc.toByte := by
  have hheader : (commandFrame opc args)[2] = opc.toByte ||| UInt8.ofNat (args.length <<< 4) :=
    (commandFrame_get opc args 2 (by decide)).trans (payload_header opc args)
  rw [opcodeOf, hheader]
  exact (header_halves opc hargs).1

/-- The start, the end and the sum of a frame. -/
def Sound (frame : Frame) : Prop :=
  frame[0] = 0x18 ∧ frame[1] = 0x11 ∧ frame[9] = 0x17 ∧ ∑ i ∈ summed, frame[i] = 0

instance (frame : Frame) : Decidable (Sound frame) := by
  unfold Sound
  infer_instance

/-- The number of arguments in the upper half of the header byte. -/
def countOf (frame : Frame) : Nat := (frame[2] >>> 4).toNat

theorem commandFrame_getElem (opc : TankOpcode) (args : List UInt8) {k : Nat} (hk : k < 8) :
    (commandFrame opc args)[k] = (payload opc args)[k] :=
  commandFrame_get opc args ⟨k, by omega⟩ hk

theorem commandFrame_header (opc : TankOpcode) (args : List UInt8) :
    (commandFrame opc args)[2] = opc.toByte ||| UInt8.ofNat (args.length <<< 4) := by
  rw [commandFrame_getElem opc args (by decide), payload_header]

theorem TankOpcode.toByte_injective : Function.Injective TankOpcode.toByte := by
  intro opc opc' h
  cases opc <;> cases opc' <;> first | rfl | exact absurd h (by decide)

/-- A payload holds one command only. -/
theorem payload_injective {opc opc' : TankOpcode} {args args' : List UInt8}
    (hargs : args.length ≤ 5) (hargs' : args'.length ≤ 5)
    (h : ∀ i : Fin 10, 2 ≤ i → i < 8 → (payload opc args)[i] = (payload opc' args')[i]) :
    opc = opc' ∧ args = args' := by
  have hheader := h 2 (by decide) (by decide)
  change (payload opc args)[2] = (payload opc' args')[2] at hheader
  rw [payload_header, payload_header] at hheader
  have hopc : opc = opc' := by
    apply TankOpcode.toByte_injective
    rw [← (header_halves opc hargs).1, hheader, (header_halves opc' hargs').1]
  have hlen : args.length = args'.length := by
    have hhalf : UInt8.ofNat args.length = UInt8.ofNat args'.length := by
      rw [← (header_halves opc hargs).2, hheader, (header_halves opc' hargs').2]
    have hnat := congrArg UInt8.toNat hhalf
    rw [UInt8.toNat_ofNat', UInt8.toNat_ofNat'] at hnat
    omega
  refine ⟨hopc, ?_⟩
  apply List.ext_getElem hlen
  intro k hk hk'
  have harg := h ⟨3 + k, by omega⟩ (by simp [Fin.le_def]; omega) (by simp [Fin.lt_def]; omega)
  change (payload opc args)[3 + k] = (payload opc' args')[3 + k] at harg
  rw [payload_arg, payload_arg] at harg
  simpa [hk, hk'] using harg

/-- Two commands differ in a byte that the checksum covers. -/
theorem exists_difference {opc opc' : TankOpcode} {args args' : List UInt8}
    (hargs : args.length ≤ 5) (hargs' : args'.length ≤ 5) (hne : (opc, args) ≠ (opc', args')) :
    ∃ i ∈ summed, (commandFrame opc args)[i] ≠ (commandFrame opc' args')[i] := by
  by_contra hall
  push Not at hall
  apply hne
  obtain ⟨rfl, rfl⟩ := payload_injective hargs hargs' fun i hlow hhigh => by
    have hmem : i ∈ summed := by
      revert i
      decide
    rw [← commandFrame_get opc args i hhigh, ← commandFrame_get opc' args' i hhigh]
    exact hall i hmem
  rfl

/-- What `sendCommandRaw` writes: one frame whose covered bytes sum to zero, the
frames of two commands differing in two places; a command that is too long
throws and writes nothing. -/
theorem sendCommandRaw_frames (write : TankSerial → Frame → Int) :
    (∀ (opc : TankOpcode) (args : List UInt8) (serial : TankSerial), args.length ≤ 5 →
        (∃ ok, sendCommandRaw write opc args serial =
          (.ok ok, { serial with written := serial.written ++ [commandFrame opc args] })) ∧
        (∑ i ∈ summed, (commandFrame opc args)[i].toNat) % 256 = 0) ∧
      (∀ (opc opc' : TankOpcode) (args args' : List UInt8), args.length ≤ 5 → args'.length ≤ 5 →
        (opc, args) ≠ (opc', args') →
          2 ≤ (differing (commandFrame opc args).get (commandFrame opc' args').get).card) ∧
      ∀ (opc : TankOpcode) (args : List UInt8) (serial : TankSerial), 5 < args.length →
        sendCommandRaw write opc args serial =
          (.error (.outOfRange "Too many command arguments"), serial) := by
  refine ⟨?_, ?_, ?_⟩
  · intro opc args serial hargs
    refine ⟨⟨_, sendCommandRaw_eq write hargs serial⟩, ?_⟩
    rw [sum_toNat_mod, sum_commandFrame]
    rfl
  · intro opc opc' args args' hargs hargs' hne
    obtain ⟨i, hi, hdiff⟩ := exists_difference hargs hargs' hne
    refine two_le_card_differing ?_ hi hdiff
    exact (sum_commandFrame opc args).trans (sum_commandFrame opc' args').symm
  · intro opc args serial hargs
    exact sendCommandRaw_of_too_many write hargs serial

/-- The frames of `ping` and of `clearLed(0)`, and six arguments. -/
theorem sendCommandRaw_frames_ping :
    let write : TankSerial → Frame → Int := fun _ _ => 10
    let port : TankSerial := ⟨3, []⟩
    (∃ ok, ping write port =
        (.ok ok, ⟨3, [#v[0x18, 0x11, 0x06, 0, 0, 0, 0, 0, 0xFA, 0x17]]⟩)) ∧
      2 ≤ (differing (commandFrame .ping []).get (commandFrame .ledClr [0]).get).card ∧
      sendCommandRaw write .move [1, 2, 3, 4, 5, 6] port =
        (.error (.outOfRange "Too many command arguments"), port) := by
  intro write port
  obtain ⟨hwrites, hdiffer, hthrows⟩ := sendCommandRaw_frames write
  have hframe : commandFrame .ping [] = #v[0x18, 0x11, 0x06, 0, 0, 0, 0, 0, 0xFA, 0x17] := by
    decide
  refine ⟨?_, hdiffer .ping .ledClr [] [0] (by decide) (by decide) (by decide),
    hthrows .move [1, 2, 3, 4, 5, 6] port (by decide)⟩
  have h := (hwrites .ping [] port (by decide)).1
  rw [hframe] at h
  exact h

end RaspiOrbSlam.Tank
