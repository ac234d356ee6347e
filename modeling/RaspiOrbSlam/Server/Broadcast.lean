import RaspiOrbSlam.Foundation.TransitionSystem
import Mathlib.Data.Finset.Max
import Mathlib.Logic.Function.Basic

/-!
# The set of clients

Threads run `onConnect`, `onDisconnect` and `sendToAll` of the protocol handler
at the same time. Each of these locks `clientsMutex` with a temporary lock
object, which the end of the statement destroys, so the mutex is free again when
the set is changed or iterated over. The library calls `onConnect` once and
`onDisconnect` at most once for a handler, one after the other.
-/

namespace RaspiOrbSlam.Server

open Foundation

/-- The functions of `TankProtocolHandler` that use the set. -/
inductive Operation (H : Type) where
  | onConnect (this : H)
  | onDisconnect (this : H)
  | sendToAll
  deriving DecidableEq

/-- Where a thread stands. The lock object lives in `locked` only. -/
inductive Thread (H : Type) where
  | idle
  | entered (op : Operation H)
  | locked (op : Operation H)
  | unlocked (op : Operation H)
  /-- In front of the test of the loop of `sendToAll`, with its iterator. -/
  | loopTest (c : Option H)
  /-- Behind the body of the loop, in front of the increment of the iterator. -/
  | loopNext (c : H)
  | finished (op : Operation H)
  deriving DecidableEq

/-- What the library has done with a handler. -/
inductive Connection where
  | created | connecting | connected | disconnecting | gone
  deriving DecidableEq

structure Clients (τ H : Type) where
  thread : τ → Thread H
  clientsMutex : Option τ
  mAllClients : Finset H
  connection : H → Connection

/-- The steps that a thread takes. -/
inductive ClientStep (H : Type) where
  | call (op : Operation H)
  | lock
  | unlock
  | insert
  | erase
  | begin
  | sendBinary
  /-- The increment of the iterator. Behind an erased element it may give anything. -/
  | advance (next : Option H)
  | endLoop
  | leave
  deriving DecidableEq

namespace Clients

variable {τ H : Type}

/-- Whether the library may make the call now. -/
def Callable (s : Clients τ H) : Operation H → Prop
  | .onConnect h => s.connection h = .created
  | .onDisconnect h => s.connection h = .connected
  | .sendToAll => True

instance (s : Clients τ H) (op : Operation H) : Decidable (s.Callable op) := by
  cases op <;> unfold Callable <;> infer_instance

variable [DecidableEq τ] [LinearOrder H]

/-- The connections while the call runs. -/
def connectionDuring (s : Clients τ H) : Operation H → H → Connection
  | .onConnect h => Function.update s.connection h .connecting
  | .onDisconnect h => Function.update s.connection h .disconnecting
  | .sendToAll => s.connection

/-- The connections once the call has returned. -/
def connectionAfter (s : Clients τ H) : Operation H → H → Connection
  | .onConnect h => Function.update s.connection h .connected
  | .onDisconnect h => Function.update s.connection h .gone
  | .sendToAll => s.connection

/-- The element behind `c` in the order of the set. -/
def successor (clients : Finset H) (c : H) : Option H := (clients.filter (c < ·)).min

/-- Move one thread. -/
def moveTo (s : Clients τ H) (t : τ) (pc : Thread H) : Clients τ H :=
  { s with thread := Function.update s.thread t pc }

/-- One step of one thread. -/
def step (s : Clients τ H) (t : τ) (a : ClientStep H) : Option (Clients τ H) :=
  match a, s.thread t with
  | .call op, .idle =>
      if s.Callable op then
        some { s.moveTo t (.entered op) with connection := s.connectionDuring op }
      else none
  | .lock, .entered op =>
      if s.clientsMutex = none then
        some { s.moveTo t (.locked op) with clientsMutex := some t }
      else none
  | .unlock, .locked op => some { s.moveTo t (.unlocked op) with clientsMutex := none }
  | .insert, .unlocked (.onConnect h) =>
      some { s.moveTo t (.finished (.onConnect h)) with
        mAllClients := insert h s.mAllClients }
  | .erase, .unlocked (.onDisconnect h) =>
      some { s.moveTo t (.finished (.onDisconnect h)) with
        mAllClients := s.mAllClients.erase h }
  | .begin, .unlocked .sendToAll => some (s.moveTo t (.loopTest s.mAllClients.min))
  | .sendBinary, .loopTest (some c) => some (s.moveTo t (.loopNext c))
  | .advance next, .loopNext c =>
      if c ∈ s.mAllClients → next = successor s.mAllClients c then
        some (s.moveTo t (.loopTest next))
      else none
  | .endLoop, .loopTest none => some (s.moveTo t (.finished .sendToAll))
  | .leave, .finished op =>
      some { s.moveTo t .idle with connection := s.connectionAfter op }
  | _, _ => none

/-- No thread runs, no client is connected. -/
def Initial (s : Clients τ H) : Prop :=
  (∀ t, s.thread t = .idle) ∧ s.clientsMutex = none ∧ s.mAllClients = ∅ ∧
    ∀ h, s.connection h = .created

end Clients

/-- Every interleaving of the operations. -/
def clientSystem (τ H : Type) [DecidableEq τ] [LinearOrder H] :
    TransitionSystem (Clients τ H) (τ × ClientStep H) where
  Initial := Clients.Initial
  step s a := s.step a.1 a.2

namespace Clients

variable {τ H : Type} [DecidableEq τ] [LinearOrder H]

/-- What a step does, one case for each kind of step. -/
inductive Step (s : Clients τ H) (t : τ) : ClientStep H → Clients τ H → Prop
  | call (op : Operation H) : s.thread t = .idle → s.Callable op →
      Step s t (.call op) { s.moveTo t (.entered op) with connection := s.connectionDuring op }
  | lock (op : Operation H) : s.thread t = .entered op → s.clientsMutex = none →
      Step s t .lock { s.moveTo t (.locked op) with clientsMutex := some t }
  | unlock (op : Operation H) : s.thread t = .locked op →
      Step s t .unlock { s.moveTo t (.unlocked op) with clientsMutex := none }
  | insert (h : H) : s.thread t = .unlocked (.onConnect h) →
      Step s t .insert
        { s.moveTo t (.finished (.onConnect h)) with mAllClients := insert h s.mAllClients }
  | erase (h : H) : s.thread t = .unlocked (.onDisconnect h) →
      Step s t .erase
        { s.moveTo t (.finished (.onDisconnect h)) with mAllClients := s.mAllClients.erase h }
  | begin : s.thread t = .unlocked .sendToAll →
      Step s t .begin (s.moveTo t (.loopTest s.mAllClients.min))
  | sendBinary (c : H) : s.thread t = .loopTest (some c) →
      Step s t .sendBinary (s.moveTo t (.loopNext c))
  | advance (c : H) (next : Option H) : s.thread t = .loopNext c →
      (c ∈ s.mAllClients → next = successor s.mAllClients c) →
      Step s t (.advance next) (s.moveTo t (.loopTest next))
  | endLoop : s.thread t = .loopTest none →
      Step s t .endLoop (s.moveTo t (.finished .sendToAll))
  | leave (op : Operation H) : s.thread t = .finished op →
      Step s t .leave { s.moveTo t .idle with connection := s.connectionAfter op }

theorem step_cases {s s' : Clients τ H} {t : τ} {a : ClientStep H}
    (h : s.step t a = some s') : Step s t a s' := by
  unfold step at h
  split at h
  · next op hpc =>
    split at h
    · next hc => exact Option.some.inj h ▸ .call op hpc hc
    · cases h
  · next op hpc =>
    split at h
    · next hc => exact Option.some.inj h ▸ .lock op hpc hc
    · cases h
  · next op hpc => exact Option.some.inj h ▸ .unlock op hpc
  · next c hpc => exact Option.some.inj h ▸ .insert c hpc
  · next c hpc => exact Option.some.inj h ▸ .erase c hpc
  · next hpc => exact Option.some.inj h ▸ .begin hpc
  · next c hpc => exact Option.some.inj h ▸ .sendBinary c hpc
  · next next c hpc =>
    split at h
    · next hc => exact Option.some.inj h ▸ .advance c next hpc hc
    · cases h
  · next hpc => exact Option.some.inj h ▸ .endLoop hpc
  · next op hpc => exact Option.some.inj h ▸ .leave op hpc
  · cases h

end Clients

end RaspiOrbSlam.Server
