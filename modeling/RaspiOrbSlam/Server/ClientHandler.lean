import RaspiOrbSlam.Protocol.Truncation

/-!
# Incoming messages

`TankProtocolHandler::onBinaryMessage` on every byte vector. The handler looks
at the first byte and hands the packet behind it to `handlePacket`; it never
compares a length with the message. The messages that it handles without
reading outside them are characterised by their bytes.
-/

namespace RaspiOrbSlam.Server

open Foundation Protocol

variable {w : Nat} (pf : Platform w)

/-- A call of one of the overloads of `packetHandlers::handlePacket`. -/
inductive Call where
  | move (pkt : MovePacket)
  | stop (pkt : StopPacket)
  | leds (pkt : LedsPacket)
  deriving DecidableEq

/-- What a message leads to. -/
inductive Outcome where
  | handlePacket (call : Call)
  | puts (text : String)
  deriving DecidableEq

def onBinaryMessage (data : ByteVector w) : Except Fault Outcome :=
  match data.bytes[0]? with
  | none => throw .outOfBounds
  | some opcode =>
      if opcode = PacketOpcode.move.toByte then do
        let (pkt, _) ← deserializePacket MovePacket.deserialize data
        return .handlePacket (.move pkt)
      else if opcode = PacketOpcode.stop.toByte then do
        let (pkt, _) ← deserializePacket StopPacket.deserialize data
        return .handlePacket (.stop pkt)
      else if opcode = PacketOpcode.leds.toByte then do
        let (pkt, _) ← deserializePacket (LedsPacket.deserialize pf) data
        return .handlePacket (.leds pkt)
      else return .puts "Received invalid packet"

/-- The number of colors or one of the colors that it counts is cut off. -/
def LedsCutOff (body : List UInt8) : Prop :=
  body.length ≤ marks body ∨ body.length - (marks body + 1) < groupSum body * 3

/-- The message ends before the packet that its opcode and its number of colors announce. -/
def TooShort : List UInt8 → Prop
  | [] => True
  | opcode :: body =>
      opcode = PacketOpcode.move.toByte ∧ body.length < 2 ∨
        opcode = PacketOpcode.leds.toByte ∧ LedsCutOff body

/-- The low half of the number of colors, and what the undefined shifts of a sixth byte and of
those behind it add to it. -/
def lowLength (body : List UInt8) : Nat :=
  (BitVec.ofNat 32 (groupSum body) ||| strayFrom pf 0 body).toNat

/-- The number of colors is refused before any color is read: it has too many marked bytes, or its
low half is a negative `int` or more than a `resize` can provide. -/
def LedsRefused (body : List UInt8) : Prop :=
  37 ≤ marks body ∨
    marks body < body.length ∧ (2 ^ 31 ≤ lowLength pf body ∨ pf.maxSize < lowLength pf body)

/-- Undefined shifts add colors that the message does not hold. -/
def LedsOverrun (body : List UInt8) : Prop :=
  5 ≤ marks body ∧ body.length - (marks body + 1) < lowLength pf body * 3

/-- The message is a list of colors and its body is such a list. -/
def OfLeds (P : List UInt8 → Prop) : List UInt8 → Prop
  | [] => False
  | opcode :: body => opcode = PacketOpcode.leds.toByte ∧ P body

/-- Every byte that is read lies in the message, and a message that is too short is rejected. -/
def HandledSafely (data : ByteVector w) : Prop :=
  onBinaryMessage pf data ≠ .error .outOfBounds ∧
    (TooShort data.bytes → ∃ e, onBinaryMessage pf data = .error e)

/-- The handler's outcome for a packet, given the outcome of its body's parser. -/
def dispatch {T : Type} (mk : T → Call) (body : Except Fault (T × List UInt8)) :
    Except Fault Outcome :=
  body.map fun r => .handlePacket (mk r.1)

theorem receive_eq_dispatch {T : Type} {f : StreamM w T} {p : WireParser T} (hf : Simulates f p)
    (mk : T → Call) {data : ByteVector w} {opcode : UInt8} {body : List UInt8}
    (hdata : data.bytes = opcode :: body) :
    (do
      let (pkt, _) ← deserializePacket f data
      return Outcome.handlePacket (mk pkt)) = dispatch mk (p body) := by
  have h := deserializePacket_cons hf hdata
  rcases hr : deserializePacket f data with e | ⟨a, vs⟩ <;>
    rcases hp : p body with e' | ⟨a', rest⟩ <;> rw [hr, hp] at h
  · cases h
    rfl
  · cases h
  · cases h
  · cases h
    rfl

/-- The handler as a case distinction on the opcode and the parsers of the bodies. -/
theorem onBinaryMessage_cons {data : ByteVector w} {opcode : UInt8} {body : List UInt8}
    (hdata : data.bytes = opcode :: body) :
    onBinaryMessage pf data =
      if opcode = PacketOpcode.move.toByte then dispatch .move (moveBody body)
      else if opcode = PacketOpcode.stop.toByte then dispatch .stop (stopBody body)
      else if opcode = PacketOpcode.leds.toByte then dispatch .leds (ledsBody pf body)
      else .ok (.puts "Received invalid packet") := by
  have hfirst : data.bytes[0]? = some opcode := by rw [hdata]; rfl
  rw [← receive_eq_dispatch simulates_moveBody .move hdata,
    ← receive_eq_dispatch simulates_stopBody .stop hdata,
    ← receive_eq_dispatch (simulates_ledsBody pf) .leds hdata, onBinaryMessage, hfirst]
  rfl

/-- Up to five bytes hold a low half that is not above the number. -/
theorem lowLength_le {body : List UInt8} (h : marks body < 5) :
    lowLength pf body ≤ groupSum body := by
  have hzero : strayFrom pf 0 body = 0#32 := strayFrom_eq_zero pf (by omega)
  rw [lowLength, hzero, BitVec.or_zero, BitVec.toNat_ofNat]
  exact Nat.mod_le _ _

theorem decodedLength_eq (body : List UInt8) :
    decodedLength pf body =
      lowLength pf body + if 2 ^ 31 ≤ lowLength pf body then 2 ^ 64 - 2 ^ 32 else 0 := by
  rw [decodedLength, decodedFrom_eq, BitVec.shiftLeft_zero, intToUInt64_toNat]
  rfl

theorem maxSize_lt_decodedLength_iff (body : List UInt8) :
    pf.maxSize < decodedLength pf body ↔
      2 ^ 31 ≤ lowLength pf body ∨ pf.maxSize < lowLength pf body := by
  have hmax := pf.maxSize_lt
  have hpow : 2 ^ (w - 1) ≤ 2 ^ 63 :=
    Nat.pow_le_pow_right (by decide) (Nat.sub_le_sub_right pf.width_le 1)
  rw [decodedLength_eq]
  split <;> omega

/-- What the reader makes of a number of colors. -/
theorem length_eq_lowLength (body : List UInt8) (h : ¬LedsRefused pf body) :
    length pf body =
      if marks body < body.length then .ok (lowLength pf body, body.drop (marks body + 1))
      else .error .outOfBounds := by
  have hover : ¬37 ≤ marks body := fun hover => h (Or.inl hover)
  rw [length_eq, if_neg hover]
  by_cases hend : marks body < body.length
  · have hmax : ¬(2 ^ 31 ≤ lowLength pf body ∨ pf.maxSize < lowLength pf body) :=
      fun hmax => h (Or.inr ⟨hend, hmax⟩)
    rw [if_pos hend, if_pos hend, if_neg (mt (maxSize_lt_decodedLength_iff pf body).mp hmax),
      decodedLength_eq, if_neg fun hlarge => hmax (Or.inl hlarge), Nat.add_zero]
  · rw [if_neg hend, if_neg hend]

/-- A refused length throws before a color is read. -/
theorem ledsBody_of_refused {body : List UInt8} (h : LedsRefused pf body) :
    ∃ e, ledsBody pf body = .error e ∧ e ≠ .outOfBounds := by
  have hlength := length_eq pf body
  by_cases hover : 37 ≤ marks body
  · rw [if_pos hover] at hlength
    exact ⟨_, Parser.bind_error (Parser.bind_error hlength), by simp⟩
  · obtain ⟨hend, hmax⟩ := h.resolve_left hover
    rw [if_neg hover, if_pos hend,
      if_pos ((maxSize_lt_decodedLength_iff pf body).mpr hmax)] at hlength
    exact ⟨_, Parser.bind_error (Parser.bind_error hlength), by simp⟩

/-- The colors of the low half are read as far as the message goes. -/
theorem ledsBody_of_not_refused {body : List UInt8} (h : ¬LedsRefused pf body) :
    if marks body < body.length ∧ lowLength pf body * 3 ≤ body.length - (marks body + 1) then
      ∃ r, ledsBody pf body = .ok r
    else ledsBody pf body = .error .outOfBounds := by
  have hlength := length_eq_lowLength pf body h
  have hcolors := fixedSize_ledColor.times (lowLength pf body)
  split
  · next hreads =>
    rw [if_pos hreads.1] at hlength
    obtain ⟨colors, hread⟩ := hcolors.reads (body.drop (marks body + 1)) (by
      rw [List.length_drop]
      exact hreads.2)
    exact ⟨_, Parser.bind_ok ((Parser.bind_ok hlength).trans hread)⟩
  · next hstops =>
    by_cases hend : marks body < body.length
    · rw [if_pos hend] at hlength
      have hstop := hcolors.stops (body.drop (marks body + 1)) (by
        rw [List.length_drop]
        exact Nat.not_le.mp fun hle => hstops ⟨hend, hle⟩)
      exact Parser.bind_error ((Parser.bind_ok hlength).trans hstop)
    · rw [if_neg hend] at hlength
      exact Parser.bind_error (Parser.bind_error hlength)

section Opcodes

variable {data : ByteVector w} {body : List UInt8}

theorem onBinaryMessage_leds (hdata : data.bytes = PacketOpcode.leds.toByte :: body) :
    onBinaryMessage pf data = dispatch .leds (ledsBody pf body) := by
  rw [onBinaryMessage_cons pf hdata, if_neg (by decide), if_neg (by decide), if_pos rfl]

/-- A list of colors that is cut off gets a call if the undefined part of its length is lost. -/
theorem handledSafely_leds (hdata : data.bytes = PacketOpcode.leds.toByte :: body) :
    HandledSafely pf data ↔
      ¬LedsCutOff body ∧ ¬LedsOverrun pf body ∨ LedsRefused pf body := by
  have hshort : TooShort data.bytes ↔ LedsCutOff body := by
    rw [hdata]
    exact ⟨fun h => (h.resolve_left fun hmove => absurd hmove.1 (by decide)).2,
      fun h => Or.inr ⟨rfl, h⟩⟩
  rw [HandledSafely, hshort, onBinaryMessage_leds pf hdata]
  by_cases hrefused : LedsRefused pf body
  · obtain ⟨e, herr, hne⟩ := ledsBody_of_refused pf hrefused
    rw [herr]
    exact iff_of_true ⟨fun he => hne (Except.error.inj he), fun _ => ⟨e, rfl⟩⟩ (Or.inr hrefused)
  have hbody := ledsBody_of_not_refused pf hrefused
  split at hbody
  · next hreads =>
    obtain ⟨r, hok⟩ := hbody
    rw [hok]
    constructor
    · rintro ⟨-, hcall⟩
      refine Or.inl ⟨fun hcut => ?_, fun hover => ?_⟩
      · obtain ⟨e, he⟩ := hcall hcut
        cases he
      · exact absurd hover.2 (Nat.not_lt.mpr hreads.2)
    · intro h
      exact ⟨nofun, fun hcut => absurd hcut (h.resolve_right hrefused).1⟩
  · next hstops =>
    rw [hbody]
    refine iff_of_false (fun h => h.1 rfl) fun h => ?_
    obtain ⟨hwhole, hover⟩ := h.resolve_right hrefused
    obtain ⟨hend, hcolors⟩ := not_or.mp hwhole
    refine hstops ⟨Nat.not_le.mp hend, ?_⟩
    by_cases hfive : 5 ≤ marks body
    · exact Nat.not_lt.mp fun hlt => hover ⟨hfive, hlt⟩
    · have hlow := lowLength_le pf (Nat.not_le.mp hfive)
      omega

theorem handledSafely_move (hdata : data.bytes = PacketOpcode.move.toByte :: body) :
    HandledSafely pf data ↔ ¬TooShort data.bytes := by
  rw [HandledSafely, onBinaryMessage_cons pf hdata, if_pos rfl]
  by_cases hlen : body.length < 2
  · rw [fixedSize_moveBody.stops body hlen, hdata]
    exact iff_of_false (fun h => h.1 rfl) fun h => h (Or.inl ⟨rfl, hlen⟩)
  · obtain ⟨a, hread⟩ := fixedSize_moveBody.reads body (Nat.not_lt.mp hlen)
    have hwhole : ¬TooShort data.bytes := by
      rw [hdata]
      rintro (hmove | hleds)
      · exact hlen hmove.2
      · exact absurd hleds.1 (by decide)
    rw [hread]
    exact iff_of_true ⟨nofun, fun hshort => absurd hshort hwhole⟩ hwhole

end Opcodes

/-- Exactly which messages are handled without a read outside them and, if they are too short,
rejected. -/
theorem handledSafely_iff (data : ByteVector w) :
    HandledSafely pf data ↔
      ¬TooShort data.bytes ∧ ¬OfLeds (LedsOverrun pf) data.bytes ∨
        OfLeds (LedsRefused pf) data.bytes := by
  cases hdata : data.bytes with
  | nil =>
      have hread : onBinaryMessage pf data = .error .outOfBounds := by
        rw [onBinaryMessage, hdata]
        rfl
      exact iff_of_false (fun h => h.1 hread) fun h => h.elim (fun h => h.1 trivial) id
  | cons opcode body =>
      by_cases hleds : opcode = PacketOpcode.leds.toByte
      · subst hleds
        rw [handledSafely_leds pf hdata]
        simp [TooShort, OfLeds, PacketOpcode.toByte]
      have hother : ∀ P, ¬OfLeds P (opcode :: body) := fun P h => hleds h.1
      simp only [hother, not_false_eq_true, and_true, or_false]
      by_cases hmove : opcode = PacketOpcode.move.toByte
      · subst hmove
        rw [handledSafely_move pf hdata, hdata]
      · have hwhole : ¬TooShort (opcode :: body) := by
          rintro (h | h)
          · exact hmove h.1
          · exact hleds h.1
        have hok : ∃ outcome, onBinaryMessage pf data = .ok outcome := by
          rw [onBinaryMessage_cons pf hdata, if_neg hmove, if_neg hleds]
          split
          · exact ⟨_, rfl⟩
          · exact ⟨_, rfl⟩
        obtain ⟨outcome, hok⟩ := hok
        rw [HandledSafely, hok, hdata]
        exact iff_of_true ⟨nofun, fun h => absurd h hwhole⟩ hwhole

/-- Of the empty message the opcode, and of a bare opcode the first speed, is read behind the end.
A message that counts `2 ^ 32` colors and holds none is handled as if it counted none. -/
theorem not_handledSafely_truncated :
    ¬HandledSafely armhf ⟨[], by decide⟩ ∧
      ¬HandledSafely armhf ⟨[1], by decide⟩ ∧
      ¬HandledSafely armhf ⟨[3, 0x80, 0x80, 0x80, 0x80, 0x10], by decide⟩ := by
  have hempty : onBinaryMessage armhf ⟨[], by decide⟩ = .error .outOfBounds := rfl
  have hopcode : onBinaryMessage armhf ⟨[1], by decide⟩ = .error .outOfBounds := by
    decide +kernel
  have hleds : (⟨[3, 0x80, 0x80, 0x80, 0x80, 0x10], by decide⟩ : ByteVector 32).bytes =
      PacketOpcode.leds.toByte :: [0x80, 0x80, 0x80, 0x80, 0x10] := rfl
  refine ⟨fun h => h.1 hempty, fun h => h.1 hopcode, ?_⟩
  rw [handledSafely_leds armhf hleds]
  rintro (⟨hwhole, -⟩ | hrefused)
  · exact hwhole (Or.inr (by decide))
  · revert hrefused
    rw [LedsRefused]
    decide

end RaspiOrbSlam.Server
