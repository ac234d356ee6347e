import RaspiOrbSlam.Foundation.EventRun
import RaspiOrbSlam.Tank.Serial

/-!
# The descriptor of the port

`TankSerial` keeps the descriptor that `::open` gave it in `mPortFD` and takes it
for open if it is positive. The port below notes what it obtains and closes.
Descriptor zero is never closed, and a port whose settings cannot be read or
written stays open although `open` returns false.
-/

namespace RaspiOrbSlam.Tank

open Foundation

/-- The `errno` of a failed call and its text. -/
structure SystemError where
  errno : Int
  strerror : String
  deriving DecidableEq

/-- What the system answers to the calls that one `open` makes. -/
structure OpenOutcome where
  /-- `::open`, with the descriptor that it returns. -/
  descriptor : Except SystemError Nat
  tcgetattr : Except SystemError Unit
  tcsetattr : Except SystemError Unit
  deriving DecidableEq

inductive PortEvent where
  /-- `::open` returned the descriptor. -/
  | opened (fd : Int)
  /-- `::close` was called with the descriptor. -/
  | closed (fd : Int)
  | openReturned (result : Bool)
  | closeReturned
  deriving DecidableEq

/-- The link with the events of its descriptor and the lines it printed. -/
structure Port extends TankSerial where
  log : List PortEvent
  stderr : List String
  deriving DecidableEq

inductive PortCall where
  | openPort (outcome : OpenOutcome)
  | close

namespace Port

/-- The constructor. -/
def initial : Port := ⟨⟨-1, []⟩, [], []⟩

def record (port : Port) (event : PortEvent) : Port := { port with log := port.log ++ [event] }

def print (port : Port) (action : String) (e : SystemError) : Port :=
  let line := "TankSerial failed to " ++ action ++ ": " ++ toString e.errno ++
    " (" ++ e.strerror ++ ")\n"
  { port with stderr := port.stderr ++ [line] }

/-- `TankSerial::close`. -/
def close (port : Port) : Port :=
  if port.mPortFD > 0 then { port.record (.closed port.mPortFD) with mPortFD := -1 } else port

/-- `TankSerial::open`. Between `tcgetattr` and `tcsetattr` it only changes the
settings that it hands over. -/
def openPort (port : Port) (outcome : OpenOutcome) : Bool × Port :=
  let port := if port.mPortFD > 0 then port.close else port
  match outcome.descriptor with
  | .error e => (false, { port.print "open" e with mPortFD := -1 })
  | .ok fd =>
      let port := { port.record (.opened fd) with mPortFD := fd }
      match outcome.tcgetattr with
      | .error e => (false, port.print "get termios" e)
      | .ok _ =>
          match outcome.tcsetattr with
          | .error e => (false, port.print "set termios" e)
          | .ok _ => (true, port)

def next (port : Port) : PortCall → Port
  | .openPort outcome =>
      let (result, port) := port.openPort outcome
      port.record (.openReturned result)
  | .close => port.close.record .closeReturned

/-- The destructor. -/
def destroy (port : Port) : Port := port.next .close

end Port

/-- The descriptors that are obtained and not closed. -/
def held (log : List PortEvent) : List Int :=
  log.foldl (fun held event =>
    match event with
    | .opened fd => fd :: held
    | .closed fd => held.erase fd
    | .openReturned _ | .closeReturned => held) []

/-- At no time more than one descriptor is held, none is held where `open` returned
false or `close` returned, and only a held descriptor is closed. -/
structure HoldsOne (log : List PortEvent) : Prop where
  atMostOne : ∀ first, first <+: log → (held first).length ≤ 1
  open_false : ∀ first, first ++ [.openReturned false] <+: log → held first = []
  closeReturned : ∀ first, first ++ [.closeReturned] <+: log → held first = []
  closed : ∀ first fd, first ++ [.closed fd] <+: log → fd ∈ held first

/-- In the end every descriptor is closed. -/
structure ClosesAll (log : List PortEvent) : Prop extends HoldsOne log where
  held_eq : held log = []

/-- `::open` fails, or it returns a descriptor other than zero and the settings are
read and written. -/
def OpenOutcome.Clean (outcome : OpenOutcome) : Prop :=
  ∀ fd, outcome.descriptor = .ok fd →
    fd ≠ 0 ∧ outcome.tcgetattr = .ok () ∧ outcome.tcsetattr = .ok ()

def PortCall.Clean : PortCall → Prop
  | openPort outcome => outcome.Clean
  | close => True

section Log

variable {log : List PortEvent} {fd : Int}

@[simp] theorem held_opened : held (log ++ [.opened fd]) = fd :: held log := by
  simp [held, List.foldl_append]

@[simp] theorem held_closed : held (log ++ [.closed fd]) = (held log).erase fd := by
  simp [held, List.foldl_append]

@[simp] theorem held_openReturned (result : Bool) :
    held (log ++ [.openReturned result]) = held log := by
  simp [held, List.foldl_append]

@[simp] theorem held_closeReturned : held (log ++ [.closeReturned]) = held log := by
  simp [held, List.foldl_append]

/-- What the law asks of an event while the given descriptors are held. -/
def Allowed (held : List Int) : PortEvent → Prop
  | .opened _ => held = []
  | .closed fd => fd ∈ held
  | .openReturned result => result = false → held = []
  | .closeReturned => held = []

theorem holdsOne_nil : HoldsOne [] where
  atMostOne first h := by
    rw [List.prefix_nil.mp h]
    exact Nat.zero_le 1
  open_false first h := by simp at h
  closeReturned first h := by simp at h
  closed first fd h := by simp at h

/-- The law is kept by every event that is allowed where it happens. -/
theorem HoldsOne.concat {event : PortEvent} (h : HoldsOne log) (hevent : Allowed (held log) event) :
    HoldsOne (log ++ [event]) where
  atMostOne first hfirst := by
    rcases List.prefix_concat_iff.mp hfirst with rfl | hfirst
    · cases event with
      | opened fd =>
          have hnone : held log = [] := hevent
          rw [held_opened, hnone]
          exact Nat.le_refl 1
      | closed fd =>
          rw [held_closed]
          exact (List.length_erase_le).trans (h.atMostOne log List.prefix_rfl)
      | openReturned result =>
          rw [held_openReturned]
          exact h.atMostOne log List.prefix_rfl
      | closeReturned =>
          rw [held_closeReturned]
          exact h.atMostOne log List.prefix_rfl
    · exact h.atMostOne first hfirst
  open_false first hfirst := by
    rcases concat_prefix_concat.mp hfirst with ⟨rfl, rfl⟩ | hfirst
    · exact hevent rfl
    · exact h.open_false first hfirst
  closeReturned first hfirst := by
    rcases concat_prefix_concat.mp hfirst with ⟨rfl, rfl⟩ | hfirst
    · exact hevent
    · exact h.closeReturned first hfirst
  closed first fd hfirst := by
    rcases concat_prefix_concat.mp hfirst with ⟨rfl, rfl⟩ | hfirst
    · exact hevent
    · exact h.closed first fd hfirst

/-- A descriptor that is never closed is held ever after. -/
theorem mem_held (hopened : .opened fd ∈ log) (hclosed : .closed fd ∉ log) : fd ∈ held log := by
  induction log using List.reverseRecOn with
  | nil => cases hopened
  | append_singleton log event ih =>
      rw [List.mem_append, not_or] at hclosed
      rcases List.mem_append.mp hopened with hopened | hlast
      · have hmem := ih hopened hclosed.1
        cases event with
        | opened other =>
            rw [held_opened]
            exact List.mem_cons_of_mem other hmem
        | closed other =>
            have hne : fd ≠ other := by
              rintro rfl
              exact hclosed.2 (List.mem_singleton_self _)
            rw [held_closed]
            exact (List.mem_erase_of_ne hne).mpr hmem
        | openReturned result => rwa [held_openReturned]
        | closeReturned => rwa [held_closeReturned]
      · obtain rfl := List.mem_singleton.mp hlast
        rw [held_opened]
        exact List.mem_cons_self

end Log

namespace Port

section Open

variable (port : Port) {outcome : OpenOutcome}

/-- `open` closes the port first if it takes it for open. -/
theorem openPort_eq (outcome : OpenOutcome) : port.openPort outcome =
    match outcome.descriptor with
    | .error e => (false, { port.close.print "open" e with mPortFD := -1 })
    | .ok fd =>
        let port := { port.close.record (.opened fd) with mPortFD := fd }
        match outcome.tcgetattr with
        | .error e => (false, port.print "get termios" e)
        | .ok _ =>
            match outcome.tcsetattr with
            | .error e => (false, port.print "set termios" e)
            | .ok _ => (true, port) := by
  have hclose : (if port.mPortFD > 0 then port.close else port) = port.close := by
    unfold close
    split <;> rfl
  unfold openPort
  rw [hclose]

theorem openPort_of_error {e : SystemError} (h : outcome.descriptor = .error e) :
    (port.openPort outcome).1 = false ∧ (port.openPort outcome).2.mPortFD = -1 ∧
      (port.openPort outcome).2.log = port.close.log := by
  rw [openPort_eq, h]
  exact ⟨rfl, rfl, rfl⟩

theorem openPort_of_ok {fd : Nat} (h : outcome.descriptor = .ok fd) :
    ((port.openPort outcome).1 = true ↔
        outcome.tcgetattr = .ok () ∧ outcome.tcsetattr = .ok ()) ∧
      (port.openPort outcome).2.mPortFD = fd ∧
      (port.openPort outcome).2.log = port.close.log ++ [.opened fd] := by
  rw [openPort_eq, h]
  cases hget : outcome.tcgetattr with
  | error e => simp [print, record]
  | ok _ =>
      cases hset : outcome.tcsetattr with
      | error e => simp [print, record]
      | ok _ => simp [record]

end Open

variable {port : Port}

/-- What is held is what the descriptor says. -/
structure Tracks (port : Port) : Prop where
  holdsOne : HoldsOne port.log
  held_eq : held port.log = if port.mPortFD > 0 then [port.mPortFD] else []

theorem tracks_initial : Tracks initial where
  holdsOne := holdsOne_nil
  held_eq := rfl

theorem Tracks.close (h : Tracks port) :
    HoldsOne port.close.log ∧ held port.close.log = [] ∧ ¬port.close.mPortFD > 0 := by
  unfold Port.close
  by_cases hopen : port.mPortFD > 0
  · have hheld := h.held_eq
    rw [if_pos hopen] at hheld ⊢
    refine ⟨h.holdsOne.concat ?_, ?_, (by decide : ¬(-1 : Int) > 0)⟩
    · change port.mPortFD ∈ held port.log
      rw [hheld]
      exact List.mem_singleton_self _
    · change held (port.log ++ [.closed port.mPortFD]) = []
      rw [held_closed, hheld, List.erase_cons_head]
  · have hheld := h.held_eq
    rw [if_neg hopen] at hheld ⊢
    exact ⟨h.holdsOne, hheld, hopen⟩

/-- One clean call keeps the descriptor and what is held together. -/
theorem Tracks.next (h : Tracks port) {call : PortCall} (hcall : call.Clean) :
    Tracks (port.next call) := by
  obtain ⟨hone, hnone, hclosed⟩ := h.close
  cases call with
  | close =>
      refine ⟨hone.concat hnone, ?_⟩
      change held (port.close.log ++ [.closeReturned]) = if port.close.mPortFD > 0 then _ else _
      rw [held_closeReturned, hnone, if_neg hclosed]
  | openPort outcome =>
      cases hfd : outcome.descriptor with
      | error e =>
          obtain ⟨-, hport, hlog⟩ := port.openPort_of_error hfd
          rw [← hlog] at hone hnone
          refine ⟨hone.concat fun _ => hnone, ?_⟩
          change held ((port.openPort outcome).2.log ++ [_]) =
            if (port.openPort outcome).2.mPortFD > 0 then _ else _
          rw [held_openReturned, hnone, hport, if_neg (by decide)]
      | ok fd =>
          obtain ⟨hne, hget, hset⟩ := hcall fd hfd
          obtain ⟨hresult, hport, hlog⟩ := port.openPort_of_ok hfd
          have htrue := hresult.mpr ⟨hget, hset⟩
          have hpos : (fd : Int) > 0 := by omega
          have hopened : HoldsOne (port.close.log ++ [.opened fd]) := hone.concat hnone
          rw [← hlog] at hopened
          refine ⟨hopened.concat fun hfalse => ?_, ?_⟩
          · cases htrue.symm.trans hfalse
          · change held ((port.openPort outcome).2.log ++ [_]) =
              if (port.openPort outcome).2.mPortFD > 0 then [(port.openPort outcome).2.mPortFD]
                else []
            rw [held_openReturned, hlog, held_opened, hnone, hport, if_pos hpos]

theorem Tracks.after (h : Tracks port) {calls : List PortCall}
    (hcalls : ∀ call ∈ calls, call.Clean) :
    Tracks (Foundation.after Port.next port calls) := by
  induction calls generalizing port with
  | nil => exact h
  | cons call rest ih =>
      exact ih (h.next (hcalls call List.mem_cons_self)) fun other hother =>
        hcalls other (List.mem_cons_of_mem call hother)

/-- After the destructor nothing is held. -/
theorem Tracks.destroy (h : Tracks port) : ClosesAll port.destroy.log := by
  obtain ⟨hone, hnone, -⟩ := h.close
  refine ⟨hone.concat hnone, ?_⟩
  change held (port.close.log ++ [.closeReturned]) = []
  rw [held_closeReturned, hnone]

theorem close_log (port : Port) :
    ∃ events, port.close.log = port.log ++ events ∧ .closed 0 ∉ events := by
  unfold Port.close
  by_cases hopen : port.mPortFD > 0
  · rw [if_pos hopen]
    refine ⟨[.closed port.mPortFD], rfl, ?_⟩
    rw [List.mem_singleton, PortEvent.closed.injEq]
    omega
  · rw [if_neg hopen]
    exact ⟨[], (List.append_nil _).symm, List.not_mem_nil⟩

/-- A call adds events to the log, and none of them closes descriptor zero. -/
theorem next_log (port : Port) (call : PortCall) :
    ∃ events, (port.next call).log = port.log ++ events ∧ .closed 0 ∉ events := by
  obtain ⟨events, hlog, hzero⟩ := port.close_log
  cases call with
  | close =>
      refine ⟨events ++ [.closeReturned], ?_, by simpa using hzero⟩
      rw [← List.append_assoc, ← hlog]
      rfl
  | openPort outcome =>
      cases hfd : outcome.descriptor with
      | error e =>
          obtain ⟨-, -, hopen⟩ := port.openPort_of_error hfd
          refine ⟨events ++ [.openReturned (port.openPort outcome).1], ?_, by simpa using hzero⟩
          rw [← List.append_assoc, ← hlog, ← hopen]
          rfl
      | ok fd =>
          obtain ⟨-, -, hopen⟩ := port.openPort_of_ok hfd
          refine ⟨events ++ [.opened fd, .openReturned (port.openPort outcome).1], ?_,
            by simpa using hzero⟩
          rw [← List.append_assoc, ← hlog, List.append_cons, ← hopen]
          rfl

theorem after_log (port : Port) (calls : List PortCall) :
    ∃ events, (after next port calls).log = port.log ++ events ∧ .closed 0 ∉ events := by
  induction calls generalizing port with
  | nil => exact ⟨[], (List.append_nil _).symm, List.not_mem_nil⟩
  | cons call rest ih =>
      obtain ⟨first, hfirst, hzero⟩ := port.next_log call
      obtain ⟨events, hrest, hnone⟩ := ih (port.next call)
      refine ⟨first ++ events, ?_, by simp [hzero, hnone]⟩
      rw [← List.append_assoc, ← hfirst, ← hrest]
      rfl

/-- If the destructor leaves nothing open, every call was clean. -/
theorem clean_of_closesAll {calls : List PortCall} {port : Port} (hzero : .closed 0 ∉ port.log)
    (h : ClosesAll (after next port calls).destroy.log) : ∀ call ∈ calls, call.Clean := by
  induction calls generalizing port with
  | nil => exact fun _ hcall => absurd hcall List.not_mem_nil
  | cons call rest ih =>
      obtain ⟨events, hlog, hevents⟩ := port.next_log call
      have hnext : .closed 0 ∉ (port.next call).log := by simp [hlog, hzero, hevents]
      refine List.forall_mem_cons.mpr ⟨?_, ih hnext h⟩
      cases call with
      | close => trivial
      | openPort outcome =>
          intro fd hfd
          obtain ⟨hresult, -, hopen⟩ := port.openPort_of_ok hfd
          obtain ⟨later, hlater, hnone⟩ :=
            (port.next (.openPort outcome)).after_log (rest ++ [.close])
          have hfinal : (after next port (.openPort outcome :: rest)).destroy.log =
              (port.next (.openPort outcome)).log ++ later := by
            rw [← hlater, after, after, List.foldl_append]
            rfl
          have hfirst : (port.next (.openPort outcome)).log =
              port.close.log ++ [.opened fd] ++ [.openReturned (port.openPort outcome).1] := by
            rw [← hopen]
            rfl
          rw [hfinal] at h
          cases hreturn : (port.openPort outcome).1 with
          | false =>
              rw [hreturn] at hfirst
              have hheld := h.open_false (port.close.log ++ [.opened fd]) ⟨later, by rw [hfirst]⟩
              rw [held_opened] at hheld
              cases hheld
          | true =>
              refine ⟨?_, hresult.mp hreturn⟩
              rintro rfl
              have hopened : .opened 0 ∈ (port.next (.openPort outcome)).log ++ later := by
                simp [hfirst]
              have hmem := mem_held hopened (by simp [hnext, hnone])
              rw [h.held_eq] at hmem
              cases hmem

/-- Over every sequence of calls that the destructor ends, the port holds at most
one descriptor, none after an `open` that returned false and none after `close`,
and closes each of them once, exactly if every call of `open` is clean. -/
theorem closesAll_iff (calls : List PortCall) :
    ClosesAll (after next initial calls).destroy.log ↔ ∀ call ∈ calls, call.Clean :=
  ⟨clean_of_closesAll List.not_mem_nil, fun h => (tracks_initial.after h).destroy⟩

/-- The system returns descriptor zero: the port is never closed. -/
theorem descriptor_zero_not_closed :
    let calls : List PortCall := [.openPort ⟨.ok 0, .ok (), .ok ()⟩, .close]
    (after next initial calls).destroy.log =
        [.opened 0, .openReturned true, .closeReturned, .closeReturned] ∧
      ¬ClosesAll (after next initial calls).destroy.log := by
  intro calls
  have hlog : (after next initial calls).destroy.log =
      [.opened 0, .openReturned true, .closeReturned, .closeReturned] := rfl
  refine ⟨hlog, fun h => ?_⟩
  have hheld := h.held_eq
  rw [hlog] at hheld
  exact absurd hheld (by decide)

/-- The settings cannot be read: the descriptor stays open where `open` returns false. -/
example :
    let calls : List PortCall := [.openPort ⟨.ok 3, .error ⟨25, "Inappropriate ioctl"⟩, .ok ()⟩]
    (after next initial calls).log = [.opened 3, .openReturned false] ∧
      held (after next initial calls).log = [3] := by
  decide

end Port

end RaspiOrbSlam.Tank
