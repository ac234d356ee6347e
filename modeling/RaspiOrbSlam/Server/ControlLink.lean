import RaspiOrbSlam.ControlPage.MoveMessages
import RaspiOrbSlam.Foundation.TransitionSystem
import RaspiOrbSlam.Server.PacketHandlers
import RaspiOrbSlam.Tank.Receiver

/-!
# From the clients to the tank

The messages of every client arrive in order, and a thread of its own handles
them one after another. The threads share the serial port, to which they hand
frame by frame. Whatever the clients send, however the threads interleave and
whatever the port takes of the frames, the frames of a client are the commands
of its messages in order. The line carries what the port has taken of them: the
commands again, as long as no frame is cut short.
-/

namespace RaspiOrbSlam.Server

open Foundation Protocol Tank

/-- The commands for the colors from the index `i` on, the index cut to a byte. -/
def ledCommands (i : Nat) (leds : List LedColor) : List Command :=
  (leds.zipIdx i).map fun l => Command.ledSet (UInt8.ofNat l.2) l.1.mRed l.1.mGreen l.1.mBlue

/-- What a message means for the tank. -/
def Outcome.commands : Outcome → List Command
  | .handlePacket (.move pkt) => [Command.move pkt.mLeftSpeed.toUInt8 pkt.mRightSpeed.toUInt8]
  | .handlePacket (.stop _) => [Command.stop]
  | .handlePacket (.leds pkt) => ledCommands 0 pkt.mLeds
  | .puts _ => []

theorem map_frame_ledCommands (i : Nat) (leds : List LedColor) :
    (ledCommands i leds).map Command.frame = ledFrames i leds := by
  rw [ledFrames_eq_map, ledCommands, List.map_map]
  rfl

/-- Alone on the link, the handling of a message writes its commands. -/
theorem receive_commands {w : Nat} (pf : Platform w) (write : TankSerial → Frame → Int)
    {data : ByteVector w} {outcome : Outcome} (h : onBinaryMessage pf data = .ok outcome)
    (serial : TankSerial) :
    receive pf write data serial =
      (.ok (), { serial with
        written := serial.written ++ outcome.commands.map Command.frame }) := by
  rw [receive, h]
  cases outcome with
  | puts text =>
      change (Except.ok (), serial) = _
      rw [Outcome.commands, List.map_nil, List.append_nil]
  | handlePacket call =>
      cases call with
      | move pkt =>
          have hspeed : speed write pkt.mLeftSpeed pkt.mRightSpeed serial =
              (.ok _, { serial with written := serial.written ++
                [commandFrame .move [pkt.mLeftSpeed.toUInt8, pkt.mRightSpeed.toUInt8]] }) :=
            sendCommandRaw_eq write (by simp) serial
          exact Fallible.bind_ok hspeed
      | stop pkt =>
          have hstop : Tank.stop write serial =
              (.ok _, { serial with written := serial.written ++ [commandFrame .stop []] }) :=
            sendCommandRaw_eq write (by simp) serial
          exact Fallible.bind_ok hstop
      | leds pkt =>
          have hwidth : 8 ≤ w := (by decide : 8 ≤ 32).trans pf.le_width
          rw [Outcome.commands, map_frame_ledCommands]
          exact setLedColors_eq hwidth write 0 pkt.mLeds serial

/-- A call of `write` by the thread of a client, and how many bytes of its frame the port took. -/
structure Write (C F : Type) where
  client : C
  content : F
  count : Fin 11

/-- The port and the threads of the clients. -/
structure Link (C : Type) (w : Nat) where
  /-- The messages that each client has sent so far. -/
  sent : C → List (ByteVector w)
  /-- How many of them its thread has taken. -/
  taken : C → Nat
  /-- The frames that the thread still has to write for the last one. -/
  pending : C → List Frame
  /-- The calls of `write`, with the frames. -/
  written : List (Write C Frame)

inductive LinkAction (C : Type) (w : Nat) where
  | send (c : C) (data : ByteVector w)
  | take (c : C) (commands : List Command)
  | write (c : C) (count : Fin 11)

/-- The commands of a message; one that is refused has none. -/
def messageCommands {w : Nat} (pf : Platform w) (data : ByteVector w) : List Command :=
  match onBinaryMessage pf data with
  | .ok outcome => outcome.commands
  | .error _ => []

/-- The commands that a message can stand for. Behind a message that is cut off the handler reads
what happens to be there, so that it can stand for any commands. -/
def Means {w : Nat} (pf : Platform w) (data : ByteVector w) (commands : List Command) : Prop :=
  onBinaryMessage pf data = .error .outOfBounds ∨ commands = messageCommands pf data

instance {w : Nat} (pf : Platform w) (data : ByteVector w) (commands : List Command) :
    Decidable (Means pf data commands) :=
  inferInstanceAs (Decidable (_ ∨ _))

section System

variable {w : Nat} (pf : Platform w) {C : Type} [DecidableEq C]

/-- The threads do not look at what `write` answers: after a frame that the port took in part or
not at all, they go on with the next one. -/
def Link.step (s : Link C w) : LinkAction C w → Option (Link C w)
  | .send c data => some { s with sent := Function.update s.sent c (s.sent c ++ [data]) }
  | .take c commands =>
      if s.pending c = [] then
        (s.sent c)[s.taken c]?.bind fun data =>
          if Means pf data commands then some { s with
            taken := Function.update s.taken c (s.taken c + 1)
            pending := Function.update s.pending c (commands.map Command.frame) }
          else none
      else none
  | .write c count =>
      match s.pending c with
      | [] => none
      | frame :: rest => some { s with
          pending := Function.update s.pending c rest
          written := s.written ++ [⟨c, frame, count⟩] }

/-- The bytes on the serial line. -/
def Link.line (s : Link C w) : List UInt8 :=
  s.written.flatMap fun x => x.content.toList.take x.count

/-- What the thread of the client has written. -/
def Write.of {F : Type} (c : C) (written : List (Write C F)) : List F :=
  (written.filter fun x => x.client = c).map Write.content

/-- What the port has taken whole. -/
def Write.whole {F : Type} (written : List (Write C F)) : List (Write C F) :=
  written.filter fun x => x.count = 10

/-- Nothing that a client has sent is lost, doubled or out of order. -/
structure Link.InOrder (s : Link C w) : Prop where
  taken : ∀ c, s.taken c ≤ (s.sent c).length
  frames : ∀ c, ∃ meaning, List.Forall₂ (Means pf) ((s.sent c).take (s.taken c)) meaning ∧
    Write.of c s.written ++ s.pending c = meaning.flatten.map Command.frame

variable {pf}

/-- What each step does. -/
theorem Link.step_cases {s s' : Link C w} {a : LinkAction C w} (h : s.step pf a = some s') :
    (∃ c data, a = .send c data ∧
      s' = { s with sent := Function.update s.sent c (s.sent c ++ [data]) }) ∨
    (∃ c commands data, a = .take c commands ∧ s.pending c = [] ∧
      (s.sent c)[s.taken c]? = some data ∧ Means pf data commands ∧
      s' = { s with
        taken := Function.update s.taken c (s.taken c + 1)
        pending := Function.update s.pending c (commands.map Command.frame) }) ∨
    (∃ c count frame rest, a = .write c count ∧ s.pending c = frame :: rest ∧
      s' = { s with
        pending := Function.update s.pending c rest
        written := s.written ++ [⟨c, frame, count⟩] }) := by
  cases a with
  | send c data => exact .inl ⟨c, data, rfl, (Option.some.inj h).symm⟩
  | take c commands =>
      rw [Link.step] at h
      split at h
      · next hpending =>
        obtain ⟨data, hdata, hrest⟩ := Option.bind_eq_some_iff.mp h
        split at hrest
        · next hmeans =>
          exact .inr (.inl ⟨c, commands, data, rfl, hpending, hdata, hmeans,
            (Option.some.inj hrest).symm⟩)
        · cases hrest
      · cases h
  | write c count =>
      rw [Link.step] at h
      split at h
      · cases h
      · next frame rest hpending =>
        exact .inr (.inr ⟨c, count, frame, rest, rfl, hpending, (Option.some.inj h).symm⟩)

theorem Link.InOrder.send {s : Link C w} (hs : s.InOrder pf) (c : C) (data : ByteVector w) :
    ({ s with sent := Function.update s.sent c (s.sent c ++ [data]) } : Link C w).InOrder pf := by
  constructor
  · intro d
    by_cases hd : d = c
    · subst hd
      simp only [Function.update_self, List.length_append]
      exact Nat.le_add_right_of_le (hs.taken d)
    · simp only [Function.update_of_ne hd]
      exact hs.taken d
  · intro d
    have hframes := hs.frames d
    by_cases hd : d = c
    · subst hd
      simp only [Function.update_self, List.take_append_of_le_length (hs.taken d)]
      exact hframes
    · simp only [Function.update_of_ne hd]
      exact hframes

theorem Link.InOrder.take {s : Link C w} (hs : s.InOrder pf) {c : C} {data : ByteVector w}
    {commands : List Command} (hpending : s.pending c = [])
    (hdata : (s.sent c)[s.taken c]? = some data) (hmeans : Means pf data commands) :
    ({ s with
      taken := Function.update s.taken c (s.taken c + 1)
      pending := Function.update s.pending c (commands.map Command.frame) } :
        Link C w).InOrder pf := by
  obtain ⟨hlt, hget⟩ := List.getElem?_eq_some_iff.mp hdata
  constructor
  · intro d
    by_cases hd : d = c
    · subst hd
      simp only [Function.update_self]
      exact hlt
    · simp only [Function.update_of_ne hd]
      exact hs.taken d
  · intro d
    by_cases hd : d = c
    · subst hd
      obtain ⟨meaning, hmeaning, hframes⟩ := hs.frames d
      rw [hpending, List.append_nil] at hframes
      refine ⟨meaning ++ [commands], ?_, ?_⟩
      · simp only [Function.update_self]
        rw [List.take_succ_eq_append_getElem hlt, hget]
        exact List.rel_append hmeaning (.cons hmeans .nil)
      · simp only [Function.update_self]
        rw [List.flatten_append, List.flatten_singleton, List.map_append, ← hframes]
    · simp only [Function.update_of_ne hd]
      exact hs.frames d

theorem Link.InOrder.write {s : Link C w} (hs : s.InOrder pf) {c : C} {frame : Frame}
    {rest : List Frame} (hpending : s.pending c = frame :: rest) (count : Fin 11) :
    ({ s with
      pending := Function.update s.pending c rest
      written := s.written ++ [⟨c, frame, count⟩] } : Link C w).InOrder pf := by
  constructor
  · exact hs.taken
  · intro d
    obtain ⟨meaning, hmeaning, hframes⟩ := hs.frames d
    refine ⟨meaning, hmeaning, ?_⟩
    rw [← hframes]
    by_cases hd : d = c
    · subst hd
      rw [hpending]
      simp [Write.of]
    · have hother : ¬c = d := fun h => hd h.symm
      simp [Write.of, Function.update_of_ne hd, hother]

theorem Link.InOrder.step {s s' : Link C w} (hs : s.InOrder pf) {a : LinkAction C w}
    (h : s.step pf a = some s') : s'.InOrder pf := by
  rcases Link.step_cases h with ⟨c, data, -, rfl⟩ |
    ⟨c, commands, data, -, hpending, hdata, hmeans, rfl⟩ |
    ⟨c, count, frame, rest, -, hpending, rfl⟩
  · exact hs.send c data
  · exact hs.take hpending hdata hmeans
  · exact hs.write hpending count

theorem frame_injective : Function.Injective Command.frame := by
  intro c c' h
  have hdecode := decodeFrame_frame c
  rw [h, decodeFrame_frame] at hdecode
  exact (Option.some.inj hdecode).symm

/-- The same call, with the frame of its command. -/
def Write.framed (x : Write C Command) : Write C Frame := ⟨x.client, x.content.frame, x.count⟩

theorem Write.of_framed (c : C) (log : List (Write C Command)) :
    Write.of c (log.map Write.framed) = (Write.of c log).map Command.frame := by
  rw [Write.of, Write.of, List.filter_map, List.map_map, List.map_map]
  rfl

theorem Write.of_whole {F : Type} {c : C} {log : List (Write C F)}
    (h : ∀ x ∈ log, x.count = 10 ∨ x.client ≠ c) : Write.of c (Write.whole log) = Write.of c log := by
  rw [Write.of, Write.of, Write.whole, List.filter_filter]
  congr 1
  apply List.filter_congr
  intro x hx
  rcases h x hx with hten | hother
  · rw [hten, decide_eq_true rfl, Bool.and_true]
  · rw [decide_eq_false hother, Bool.false_and]

/-- What was written and what is still pending, as commands. -/
theorem Link.InOrder.exists_commands {s : Link C w} (hs : s.InOrder pf) :
    ∃ log : List (Write C Command), log.map Write.framed = s.written ∧
      ∀ c, ∃ meaning rest, List.Forall₂ (Means pf) ((s.sent c).take (s.taken c)) meaning ∧
        rest.map Command.frame = s.pending c ∧ Write.of c log ++ rest = meaning.flatten := by
  have hrange : s.written ∈ Set.range (List.map (Write.framed (C := C))) := by
    rw [Set.range_list_map]
    rintro ⟨c, frame, count⟩ hmem
    have hwritten : frame ∈ Write.of c s.written :=
      List.mem_map.mpr ⟨_, List.mem_filter.mpr ⟨hmem, decide_eq_true rfl⟩, rfl⟩
    obtain ⟨meaning, -, hframes⟩ := hs.frames c
    have hframe := List.mem_append_left (s.pending c) hwritten
    rw [hframes] at hframe
    obtain ⟨command, -, rfl⟩ := List.mem_map.mp hframe
    exact ⟨⟨c, command, count⟩, rfl⟩
  obtain ⟨log, hlog⟩ := hrange
  refine ⟨log, hlog, ?_⟩
  intro c
  obtain ⟨meaning, hmeaning, hframes⟩ := hs.frames c
  rw [← hlog, Write.of_framed] at hframes
  obtain ⟨front, rest, hall, hfront, hrest⟩ := List.map_eq_append_iff.mp hframes.symm
  refine ⟨meaning, rest, hmeaning, hrest, ?_⟩
  rw [hall, frame_injective.list_map hfront.symm]

omit [DecidableEq C] in
/-- Frames that the port takes whole or not at all: the receiver reads those that it takes. -/
theorem Link.reads_whole {s : Link C w} {log : List (Write C Command)}
    (hlog : log.map Write.framed = s.written) (hcut : ∀ x ∈ log, x.count = 0 ∨ x.count = 10) :
    Parser.Yields (times readFrame (Write.whole log).length) s.line
      ((Write.whole log).map Write.content) := by
  have hline : s.line = (Write.whole log).flatMap fun x => x.content.frame.toList := by
    rw [Link.line, ← hlog, List.flatMap_map, Write.whole]
    clear hlog
    induction log with
    | nil => rfl
    | cons x log ih =>
        obtain ⟨hx, hrest⟩ := List.forall_mem_cons.mp hcut
        have hbytes : x.framed.content.toList.take x.framed.count =
            x.content.frame.toList.take x.count := rfl
        rw [List.flatMap_cons, ih hrest, hbytes]
        rcases hx with hx | hx
        · rw [List.filter_cons_of_neg (by rw [hx]; decide), hx]
          rfl
        · rw [List.filter_cons_of_pos (by rw [hx]; decide), List.flatMap_cons, hx]
          congr 1
          exact List.take_of_length_le (Nat.le_of_eq x.content.frame.length_toList)
  rw [hline]
  exact Parser.Yields.times (Write.whole log) fun x _ => readFrame_frame x.content

/-- A message of the page is one command, with the bytes of the two speeds. -/
theorem messageCommands_delivered (left right : Int) :
    messageCommands pf (ControlPage.delivered pf left right) =
      [Command.move (ControlPage.toUint8 left) (ControlPage.toUint8 right)] := by
  rw [messageCommands, ControlPage.onBinaryMessage_delivered]
  rfl

section Progress

end Progress

/-- The commands for the speeds that a page has sent. -/
def moves (sent : List (Int × Int)) : List Command :=
  sent.map fun m => Command.move (ControlPage.toUint8 m.1) (ControlPage.toUint8 m.2)

/-- The messages of a page stand for its speeds and for nothing else. -/
theorem flatten_of_delivered {sent : List (Int × Int)} {meaning : List (List Command)}
    (h : List.Forall₂ (Means pf) (sent.map fun m => ControlPage.delivered pf m.1 m.2) meaning) :
    meaning.flatten = moves sent := by
  induction sent generalizing meaning with
  | nil =>
      cases h
      rfl
  | cons m sent ih =>
      obtain ⟨commands, rest, hmeans, hrest, rfl⟩ := List.forall₂_cons_left_iff.mp h
      have hcommands : commands = messageCommands pf (ControlPage.delivered pf m.1 m.2) := by
        apply hmeans.resolve_left
        rw [ControlPage.onBinaryMessage_delivered]
        nofun
      rw [List.flatten_cons, ih hrest, hcommands, messageCommands_delivered]
      rfl

/-- A receiver of the line reads exactly these commands of the client. -/
def Link.Reads (s : Link C w) (c : C) (commands : List Command) : Prop :=
  ∃ log : List (Write C Command),
    Parser.Yields (times readFrame log.length) s.line (log.map Write.content) ∧
    Write.of c log = commands

/-- No frame is cut short, and the port takes all frames of the client. -/
def Link.PortKeeps (s : Link C w) (c : C) : Prop :=
  ∀ x ∈ s.written, x.count = 10 ∨ x.count = 0 ∧ x.client ≠ c

/-- The commands of a page that are not pending. -/
theorem Link.InOrder.reads {s : Link C w} (hs : s.InOrder pf) {c : C} (hkeeps : s.PortKeeps c)
    {sent : List (Int × Int)}
    (hsent : s.sent c = sent.map fun m => ControlPage.delivered pf m.1 m.2) :
    ∃ k, k + (s.pending c).length = s.taken c ∧ s.Reads c (moves (sent.take k)) := by
  obtain ⟨log, hlog, hclients⟩ := hs.exists_commands
  obtain ⟨meaning, rest, hmeaning, hrest, hcommands⟩ := hclients c
  rw [hsent, ← List.map_take] at hmeaning
  rw [flatten_of_delivered hmeaning] at hcommands
  have htake := hs.taken c
  rw [hsent, List.length_map] at htake
  have hlength := congrArg List.length hcommands
  rw [List.length_append, moves, List.length_map, List.length_take, Nat.min_eq_left htake]
    at hlength
  have hcounts : ∀ x ∈ log, x.count = 10 ∨ x.count = 0 ∧ x.client ≠ c := by
    intro x hx
    apply hkeeps x.framed
    rw [← hlog]
    exact List.mem_map_of_mem hx
  have hwhole : Write.of c (Write.whole log) = Write.of c log :=
    Write.of_whole fun x hx => (hcounts x hx).imp_right And.right
  refine ⟨(Write.of c log).length, ?_, Write.whole log, ?_, ?_⟩
  · rw [← hrest, List.length_map]
    exact hlength
  · exact Link.reads_whole hlog fun x hx => (hcounts x hx).elim .inr fun h => .inl h.1
  · have hfront := congrArg (List.take (Write.of c log).length) hcommands
    rw [List.take_left, moves, ← List.map_take, List.take_take,
      Nat.min_eq_left (by omega)] at hfront
    rw [hwhole]
    exact hfront

end System

end RaspiOrbSlam.Server
