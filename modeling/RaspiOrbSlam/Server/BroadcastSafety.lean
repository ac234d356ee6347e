import RaspiOrbSlam.Server.Broadcast
import Mathlib.Order.Fin.Basic
import Mathlib.Data.Fintype.Basic

/-!
# Broadcasts and disconnects

The lock objects exclude nobody once they are destroyed. If a thread nevertheless
takes the mutex only while no other thread is still about to do the conflicting
work, then the set is never changed during a broadcast and no handler receives
after its disconnect. Without this a disconnect in the middle of a broadcast
breaks both.
-/

namespace RaspiOrbSlam.Server

open Foundation

/-- The handler that a call is about, and its connection until the call returns. -/
def Operation.engagement {H : Type} : Operation H → Option (H × Connection)
  | .onConnect h => some (h, .connecting)
  | .onDisconnect h => some (h, .disconnecting)
  | .sendToAll => none

/-- The call iterates over the set instead of changing it. -/
def Operation.broadcasts {H : Type} : Operation H → Bool
  | .sendToAll => true
  | _ => false

namespace Thread

variable {H : Type}

def engagement : Thread H → Option (H × Connection)
  | .entered op | .locked op | .unlocked op | .finished op => op.engagement
  | _ => none

/-- The thread holds or has given up the mutex, and is going to change the set. -/
def Changing : Thread H → Prop
  | .locked op | .unlocked op => op.broadcasts = false
  | _ => False

/-- The thread holds or has given up the mutex, and iterates over the set or is
going to. -/
def Iterating : Thread H → Prop
  | .locked op | .unlocked op => op.broadcasts = true
  | .loopTest _ | .loopNext _ => True
  | _ => False

instance (pc : Thread H) : Decidable pc.Changing := by
  unfold Changing
  split <;> infer_instance

instance (pc : Thread H) : Decidable pc.Iterating := by
  unfold Iterating
  split <;> infer_instance

/-- The thread is between the start and the end of the loop. -/
def InLoop : Thread H → Prop
  | .loopTest _ | .loopNext _ => True
  | _ => False

/-- The element that the iterator refers to. -/
def element : Thread H → Option H
  | .loopTest c => c
  | .loopNext c => some c
  | _ => none

theorem InLoop.iterating {pc : Thread H} (h : pc.InLoop) : pc.Iterating := by
  cases pc with
  | loopTest c | loopNext c => trivial
  | _ => exact h.elim

theorem iterating_of_element {pc : Thread H} {c : H} (h : pc.element = some c) :
    pc.Iterating := by
  cases pc with
  | loopTest c | loopNext c => trivial
  | _ => cases h

/-- A call is engaged with a handler only while the handler is in transition. -/
theorem engagement_busy {pc : Thread H} {h : H} {c : Connection}
    (hpc : pc.engagement = some (h, c)) : c = .connecting ∨ c = .disconnecting := by
  cases pc with
  | idle | loopTest _ | loopNext _ => cases hpc
  | entered op | locked op | unlocked op | finished op =>
      cases op <;> cases hpc <;> decide

end Thread

namespace Clients

variable {τ H : Type}

/-- The mutex is taken only while no other thread that has given it up is still
going to change the set under a broadcast, or to broadcast over a change. -/
def LocksAlone (s : Clients τ H) (a : τ × ClientStep H) : Prop :=
  match a.2, s.thread a.1 with
  | .lock, .entered op =>
      ∀ t, if op.broadcasts then ¬(s.thread t).Changing else ¬(s.thread t).Iterating
  | _, _ => True

instance [Fintype τ] (s : Clients τ H) (a : τ × ClientStep H) : Decidable (s.LocksAlone a) := by
  unfold LocksAlone
  split <;> infer_instance

/-- No thread changes the set while a thread iterates over it. -/
def Excluded (s : Clients τ H) : Prop :=
  ∀ t t', (s.thread t).Changing → ¬(s.thread t').Iterating

/-- Calls determine the connection of their handler, and a handler has one call at a time. -/
structure Engaged (s : Clients τ H) : Prop where
  connection : ∀ t h c, (s.thread t).engagement = some (h, c) → s.connection h = c
  alone : ∀ t t' h c c', (s.thread t).engagement = some (h, c) →
    (s.thread t').engagement = some (h, c') → t = t'

/-- Handlers that are gone, or are about to be, are not in the set. -/
structure Departed (s : Clients τ H) : Prop where
  erased : ∀ t h, s.thread t = .finished (.onDisconnect h) → h ∉ s.mAllClients
  gone : ∀ h, s.connection h = .gone → h ∉ s.mAllClients

/-- Iterators refer to elements of the set. -/
def Pointed (s : Clients τ H) : Prop :=
  ∀ t c, (s.thread t).element = some c → c ∈ s.mAllClients

/-- What the lock objects were meant to guarantee. -/
structure Orderly (s : Clients τ H) : Prop where
  excluded : s.Excluded
  engaged : s.Engaged
  departed : s.Departed
  pointed : s.Pointed

theorem Initial.orderly {s : Clients τ H} (h : s.Initial) : s.Orderly := by
  obtain ⟨hidle, _, hset, hconn⟩ := h
  refine ⟨?_, ⟨?_, ?_⟩, ⟨?_, ?_⟩, ?_⟩
  · intro t t' hc
    rw [hidle t] at hc
    exact hc.elim
  · intro t h c ht
    rw [hidle t] at ht
    cases ht
  · intro t t' h c c' ht
    rw [hidle t] at ht
    cases ht
  · intro t h ht
    rw [hidle t] at ht
    cases ht
  · intro h _
    rw [hset]
    exact Finset.notMem_empty h
  · intro t c ht
    rw [hidle t] at ht
    cases ht

/-- No insert or erase during a loop, and no message to a handler whose
`onDisconnect` has returned. -/
structure Undisturbed (s : Clients τ H) (t : τ) (a : ClientStep H) : Prop where
  unchanged : a = .insert ∨ a = .erase → ∀ t', ¬(s.thread t').InLoop
  receiver : a = .sendBinary → ∀ c, s.thread t = .loopTest (some c) → s.connection c ≠ .gone

theorem Callable.not_busy {s : Clients τ H} {op : Operation H} (hcall : s.Callable op)
    {h : H} {c : Connection} (hop : op.engagement = some (h, c)) :
    s.connection h ≠ .connecting ∧ s.connection h ≠ .disconnecting := by
  cases op with
  | onConnect h' | onDisconnect h' =>
      cases hop
      rw [show s.connection h = _ from hcall]
      decide
  | sendToAll => cases hop

section

variable [DecidableEq τ]

@[simp] theorem moveTo_thread_self (s : Clients τ H) (t : τ) (pc : Thread H) :
    (s.moveTo t pc).thread t = pc := Function.update_self ..

theorem moveTo_thread_of_ne (s : Clients τ H) {t t' : τ} (h : t' ≠ t) (pc : Thread H) :
    (s.moveTo t pc).thread t' = s.thread t' := Function.update_of_ne h ..

end

section

variable [LinearOrder H]

theorem connectionDuring_of_engagement (s : Clients τ H) {op : Operation H} {h : H}
    {c : Connection} (hop : op.engagement = some (h, c)) : s.connectionDuring op h = c := by
  cases op <;> cases hop <;> exact Function.update_self ..

theorem connectionDuring_of_ne (s : Clients τ H) {op : Operation H} {h : H}
    (hop : ∀ c, op.engagement ≠ some (h, c)) : s.connectionDuring op h = s.connection h := by
  cases op with
  | onConnect h' | onDisconnect h' =>
      exact Function.update_of_ne (fun heq => hop _ (by rw [heq]; rfl)) ..
  | sendToAll => rfl

theorem connectionAfter_of_ne (s : Clients τ H) {op : Operation H} {h : H}
    (hop : ∀ c, op.engagement ≠ some (h, c)) : s.connectionAfter op h = s.connection h := by
  cases op with
  | onConnect h' | onDisconnect h' =>
      exact Function.update_of_ne (fun heq => hop _ (by rw [heq]; rfl)) ..
  | sendToAll => rfl

/-- Only a call that has started or returned makes a handler gone. -/
theorem gone_of_connectionDuring {s : Clients τ H} {op : Operation H} {h : H}
    (hgone : s.connectionDuring op h = .gone) : s.connection h = .gone := by
  by_cases hop : ∃ c, op.engagement = some (h, c)
  · obtain ⟨c, hop⟩ := hop
    rw [connectionDuring_of_engagement s hop] at hgone
    cases op <;> cases hop <;> cases hgone
  · rwa [connectionDuring_of_ne s fun c hc => hop ⟨c, hc⟩] at hgone

theorem gone_of_connectionAfter {s : Clients τ H} {op : Operation H} {h : H}
    (hgone : s.connectionAfter op h = .gone) :
    op = .onDisconnect h ∨ s.connection h = .gone := by
  cases op with
  | onConnect h' =>
      by_cases heq : h = h'
      · rw [connectionAfter, heq, Function.update_self] at hgone
        cases hgone
      · exact Or.inr ((Function.update_of_ne heq ..).symm.trans hgone)
  | onDisconnect h' =>
      by_cases heq : h = h'
      · exact Or.inl (by rw [heq])
      · exact Or.inr ((Function.update_of_ne heq ..).symm.trans hgone)
  | sendToAll => exact Or.inr hgone

theorem mem_of_successor {clients : Finset H} {c next : H}
    (h : successor clients c = some next) : next ∈ clients :=
  Finset.mem_of_mem_filter next (Finset.mem_of_min h)

end

variable [DecidableEq τ] [LinearOrder H]

/-- A step moves one thread only. -/
theorem Step.thread_of_ne {s s' : Clients τ H} {t t' : τ} {a : ClientStep H}
    (hstep : Step s t a s') (h : t' ≠ t) : s'.thread t' = s.thread t' := by
  cases hstep <;> exact moveTo_thread_of_ne s h _

/-- A thread comes to change the set only by taking the mutex. -/
theorem Step.changing {s s' : Clients τ H} {t : τ} {a : ClientStep H}
    (hstep : Step s t a s') (h : (s'.thread t).Changing) :
    (s.thread t).Changing ∨ a = .lock ∧ ∃ op, op.broadcasts = false ∧ s.thread t = .entered op := by
  cases hstep with
  | lock op hpc _ =>
      simp only [moveTo_thread_self] at h
      exact Or.inr ⟨rfl, op, h, hpc⟩
  | unlock op hpc =>
      simp only [moveTo_thread_self] at h
      rw [hpc]
      exact Or.inl h
  | _ => simp [Thread.Changing] at h

/-- A thread comes to iterate over the set only by taking the mutex. -/
theorem Step.iterating {s s' : Clients τ H} {t : τ} {a : ClientStep H}
    (hstep : Step s t a s') (h : (s'.thread t).Iterating) :
    (s.thread t).Iterating ∨
      a = .lock ∧ ∃ op, op.broadcasts = true ∧ s.thread t = .entered op := by
  cases hstep with
  | lock op hpc _ =>
      simp only [moveTo_thread_self] at h
      exact Or.inr ⟨rfl, op, h, hpc⟩
  | unlock op hpc =>
      simp only [moveTo_thread_self] at h
      rw [hpc]
      exact Or.inl h
  | begin hpc =>
      rw [hpc]
      exact Or.inl rfl
  | sendBinary c hpc | advance c next hpc _ =>
      rw [hpc]
      exact Or.inl trivial
  | _ => simp [Thread.Iterating] at h

/-- A step starts a call, returns from one, or leaves the connections alone. -/
theorem Step.engagement_cases {s s' : Clients τ H} {t : τ} {a : ClientStep H}
    (hstep : Step s t a s') :
    (∃ op, s.Callable op ∧ (s'.thread t).engagement = op.engagement ∧
        s'.connection = s.connectionDuring op) ∨
      (∃ op, s.thread t = .finished op ∧ (s'.thread t).engagement = none ∧
        s'.connection = s.connectionAfter op) ∨
      (s'.thread t).engagement = (s.thread t).engagement ∧ s'.connection = s.connection := by
  cases hstep with
  | call op _ hcall => exact Or.inl ⟨op, hcall, by rw [moveTo_thread_self]; rfl, rfl⟩
  | leave op hpc => exact Or.inr (Or.inl ⟨op, hpc, by rw [moveTo_thread_self]; rfl, rfl⟩)
  | lock _ hpc | unlock _ hpc | insert _ hpc | erase _ hpc | begin hpc | sendBinary _ hpc
    | advance _ _ hpc | endLoop hpc =>
      exact Or.inr (Or.inr ⟨by rw [moveTo_thread_self, hpc]; rfl, rfl⟩)

theorem Excluded.step {s s' : Clients τ H} {t : τ} {a : ClientStep H} (h : s.Excluded)
    (ha : s.LocksAlone (t, a)) (hstep : Step s t a s') : s'.Excluded := by
  intro t₁ t₂ h₁ h₂
  have hchanging : (s.thread t₁).Changing ∨ t₁ = t ∧ a = .lock ∧
      ∃ op, op.broadcasts = false ∧ s.thread t = .entered op := by
    by_cases heq : t₁ = t
    · subst heq
      exact (hstep.changing h₁).imp id fun hl => ⟨rfl, hl⟩
    · exact Or.inl (hstep.thread_of_ne heq ▸ h₁)
  have hiterating : (s.thread t₂).Iterating ∨ t₂ = t ∧ a = .lock ∧
      ∃ op, op.broadcasts = true ∧ s.thread t = .entered op := by
    by_cases heq : t₂ = t
    · subst heq
      exact (hstep.iterating h₂).imp id fun hl => ⟨rfl, hl⟩
    · exact Or.inl (hstep.thread_of_ne heq ▸ h₂)
  rcases hchanging with hc | ⟨rfl, rfl, op, hop, hpc⟩ <;>
    rcases hiterating with hi | ⟨rfl, hlock, op', hop', hpc'⟩
  · exact h t₁ t₂ hc hi
  · subst hlock
    have halone := ha
    simp only [LocksAlone, hpc', hop', if_true] at halone
    exact halone t₁ hc
  · have halone := ha
    simp only [LocksAlone, hpc, hop, Bool.false_eq_true, if_false] at halone
    exact halone t₂ hi
  · rw [hpc] at hpc'
    rw [Thread.entered.inj hpc', hop'] at hop
    cases hop

/-- What another thread is engaged with after a step, it was engaged with before. -/
theorem Step.engagement_of_ne {s s' : Clients τ H} {t t' : τ} {a : ClientStep H}
    (hstep : Step s t a s') (hne : t' ≠ t) {h : H} {c : Connection}
    (ht : (s'.thread t').engagement = some (h, c)) :
    (s.thread t').engagement = some (h, c) := by
  rwa [hstep.thread_of_ne hne] at ht

/-- A new call finds its handler free. -/
theorem Engaged.call {s s' : Clients τ H} {t : τ} {a : ClientStep H} (h : s.Engaged)
    (hstep : Step s t a s') {op : Operation H} (hcall : s.Callable op)
    (hpc : (s'.thread t).engagement = op.engagement)
    (hconn : s'.connection = s.connectionDuring op) : s'.Engaged := by
  have hfree : ∀ t' h c, t' ≠ t → (s'.thread t').engagement = some (h, c) →
      ∀ c', op.engagement ≠ some (h, c') := by
    intro t' h' c hne ht c' hop
    have hold := hstep.engagement_of_ne hne ht
    have hbusy := Thread.engagement_busy hold
    rw [← h.connection t' h' c hold] at hbusy
    exact hbusy.elim (hcall.not_busy hop).1 (hcall.not_busy hop).2
  constructor
  · intro t' h' c ht
    rw [hconn]
    by_cases heq : t' = t
    · subst heq
      exact connectionDuring_of_engagement s (hpc ▸ ht)
    · rw [connectionDuring_of_ne s (hfree t' h' c heq ht)]
      exact h.connection t' h' c (hstep.engagement_of_ne heq ht)
  · intro t₁ t₂ h' c₁ c₂ h₁ h₂
    by_cases heq₁ : t₁ = t <;> by_cases heq₂ : t₂ = t
    · rw [heq₁, heq₂]
    · subst heq₁
      exact absurd (hpc ▸ h₁) (hfree t₂ h' c₂ heq₂ h₂ c₁)
    · subst heq₂
      exact absurd (hpc ▸ h₂) (hfree t₁ h' c₁ heq₁ h₁ c₂)
    · exact h.alone t₁ t₂ h' c₁ c₂ (hstep.engagement_of_ne heq₁ h₁)
        (hstep.engagement_of_ne heq₂ h₂)

/-- A call that returns was the only one for its handler. -/
theorem Engaged.leave {s s' : Clients τ H} {t : τ} {a : ClientStep H} (h : s.Engaged)
    (hstep : Step s t a s') {op : Operation H} (hpc : s.thread t = .finished op)
    (hnone : (s'.thread t).engagement = none)
    (hconn : s'.connection = s.connectionAfter op) : s'.Engaged := by
  have hne : ∀ t' h c, (s'.thread t').engagement = some (h, c) → t' ≠ t := by
    rintro t' h' c ht rfl
    rw [hnone] at ht
    cases ht
  have hold : (s.thread t).engagement = op.engagement := by rw [hpc]; rfl
  constructor
  · intro t' h' c ht
    have hbefore := hstep.engagement_of_ne (hne t' h' c ht) ht
    rw [hconn, connectionAfter_of_ne s fun c' hop =>
      hne t' h' c ht (h.alone t' t h' c c' hbefore (hold.trans hop))]
    exact h.connection t' h' c hbefore
  · intro t₁ t₂ h' c₁ c₂ h₁ h₂
    exact h.alone t₁ t₂ h' c₁ c₂ (hstep.engagement_of_ne (hne _ _ _ h₁) h₁)
      (hstep.engagement_of_ne (hne _ _ _ h₂) h₂)

theorem Engaged.step {s s' : Clients τ H} {t : τ} {a : ClientStep H} (h : s.Engaged)
    (hstep : Step s t a s') : s'.Engaged := by
  rcases hstep.engagement_cases with
    ⟨op, hcall, hpc, hconn⟩ | ⟨op, hpc, hnone, hconn⟩ | ⟨hpc, hconn⟩
  · exact h.call hstep hcall hpc hconn
  · exact h.leave hstep hpc hnone hconn
  · have hsame : ∀ t', (s'.thread t').engagement = (s.thread t').engagement := by
      intro t'
      by_cases heq : t' = t
      · rw [heq, hpc]
      · rw [hstep.thread_of_ne heq]
    constructor
    · intro t' h' c ht
      rw [hconn]
      exact h.connection t' h' c (hsame t' ▸ ht)
    · intro t₁ t₂ h' c₁ c₂ h₁ h₂
      exact h.alone t₁ t₂ h' c₁ c₂ (hsame t₁ ▸ h₁) (hsame t₂ ▸ h₂)

/-- A handler is gone only once its disconnect returns. -/
theorem Step.gone {s s' : Clients τ H} {t : τ} {a : ClientStep H} (hstep : Step s t a s')
    {h : H} (hgone : s'.connection h = .gone) :
    s.thread t = .finished (.onDisconnect h) ∨ s.connection h = .gone := by
  rcases hstep.engagement_cases with ⟨op, _, _, hconn⟩ | ⟨op, hpc, _, hconn⟩ | ⟨_, hconn⟩
  · exact Or.inr (gone_of_connectionDuring (hconn ▸ hgone))
  · rw [hconn] at hgone
    exact (gone_of_connectionAfter hgone).imp (fun hop => by rw [hpc, hop]) id
  · exact Or.inr (hconn ▸ hgone)

/-- A step inserts its handler, erases its handler, or leaves the set alone. -/
theorem step_mAllClients_cases {s s' : Clients τ H} {t : τ} {a : ClientStep H}
    (hstep : Step s t a s') :
    (∃ h, s'.mAllClients = insert h s.mAllClients ∧ s'.thread t = .finished (.onConnect h)) ∨
      (∃ h, s'.mAllClients = s.mAllClients.erase h ∧ (s.thread t).Changing ∧
        s'.thread t = .finished (.onDisconnect h)) ∨
      s'.mAllClients = s.mAllClients ∧ ∀ h, s'.thread t ≠ .finished (.onDisconnect h) := by
  cases hstep with
  | insert h hpc => exact Or.inl ⟨h, rfl, moveTo_thread_self ..⟩
  | erase h hpc =>
      refine Or.inr (Or.inl ⟨h, rfl, ?_, moveTo_thread_self ..⟩)
      simp [hpc, Thread.Changing, Operation.broadcasts]
  | _ => exact Or.inr (Or.inr ⟨rfl, fun h => by simp⟩)

theorem Departed.step {s s' : Clients τ H} {t : τ} {a : ClientStep H} (h : s.Departed)
    (hengaged : s'.Engaged) (hstep : Step s t a s') : s'.Departed := by
  have hnew : ∀ h₀, s'.mAllClients = insert h₀ s.mAllClients →
      s'.thread t = .finished (.onConnect h₀) → s'.connection h₀ = .connecting :=
    fun h₀ _ hpc => hengaged.connection t h₀ _ (by rw [hpc]; rfl)
  constructor
  · intro t' h' ht hmem
    have hconn : s'.connection h' = .disconnecting :=
      hengaged.connection t' h' _ (by rw [ht]; rfl)
    rcases step_mAllClients_cases hstep with ⟨h₀, hset, hpc⟩ | ⟨h₀, hset, _, hpc⟩ | ⟨hset, hpc⟩
    · have hne : t' ≠ t := fun heq => by
        rw [heq, hpc] at ht
        cases ht
      rw [hset, Finset.mem_insert] at hmem
      rcases hmem with rfl | hmem
      · rw [hnew _ hset hpc] at hconn
        cases hconn
      · exact h.erased t' h' (hstep.thread_of_ne hne ▸ ht) hmem
    · rw [hset, Finset.mem_erase] at hmem
      have hne : t' ≠ t := fun heq => by
        rw [heq, hpc] at ht
        cases ht
        exact hmem.1 rfl
      exact h.erased t' h' (hstep.thread_of_ne hne ▸ ht) hmem.2
    · have hne : t' ≠ t := fun heq => hpc h' (heq ▸ ht)
      exact h.erased t' h' (hstep.thread_of_ne hne ▸ ht) (hset ▸ hmem)
  · intro h' hgone hmem
    have hold : h' ∈ s.mAllClients := by
      rcases step_mAllClients_cases hstep with ⟨h₀, hset, hpc⟩ | ⟨h₀, hset, _⟩ | ⟨hset, _⟩
      · rw [hset, Finset.mem_insert] at hmem
        rcases hmem with rfl | hmem
        · rw [hnew _ hset hpc] at hgone
          cases hgone
        · exact hmem
      · exact Finset.mem_of_mem_erase (hset ▸ hmem)
      · exact hset ▸ hmem
    exact (hstep.gone hgone).elim (fun hpc => h.erased t h' hpc hold) fun hg => h.gone h' hg hold

/-- An iterator that a step produces refers to an element of the set. -/
theorem Pointed.element {s s' : Clients τ H} {t : τ} {a : ClientStep H} (h : s.Pointed)
    (hstep : Step s t a s') {c : H} (hc : (s'.thread t).element = some c) :
    c ∈ s.mAllClients := by
  cases hstep with
  | begin hpc =>
      rw [moveTo_thread_self] at hc
      exact Finset.mem_of_min hc
  | sendBinary c' hpc =>
      rw [moveTo_thread_self] at hc
      exact h t c (by rw [hpc]; exact hc)
  | advance c' next hpc hnext =>
      rw [moveTo_thread_self] at hc
      have hmem : c' ∈ s.mAllClients := h t c' (by rw [hpc]; rfl)
      exact mem_of_successor ((hnext hmem).symm.trans hc)
  | _ =>
      rw [moveTo_thread_self] at hc
      cases hc

theorem Pointed.step {s s' : Clients τ H} {t : τ} {a : ClientStep H} (h : s.Pointed)
    (hexcluded : s.Excluded) (hstep : Step s t a s') : s'.Pointed := by
  intro t' c hc
  have hold : c ∈ s.mAllClients := by
    by_cases heq : t' = t
    · exact h.element hstep (heq ▸ hc)
    · exact h t' c (hstep.thread_of_ne heq ▸ hc)
  rcases step_mAllClients_cases hstep with ⟨h₀, hset, _⟩ | ⟨h₀, hset, hchanging, hpc⟩ | ⟨hset, _⟩
  · exact hset ▸ Finset.mem_insert_of_mem hold
  · have hne : t' ≠ t := fun heq => by
      rw [heq, hpc] at hc
      cases hc
    rw [hstep.thread_of_ne hne] at hc
    exact (hexcluded t t' hchanging (Thread.iterating_of_element hc)).elim
  · exact hset ▸ hold

theorem orderly_of_reachableBy {s : Clients τ H}
    (h : (clientSystem τ H).ReachableBy LocksAlone s) : s.Orderly := by
  refine h.invariant (fun _ => Initial.orderly) fun {s s' a} _ hs ha hstep => ?_
  have hstep := step_cases hstep
  have hengaged := hs.engaged.step hstep
  exact ⟨hs.excluded.step ha hstep, hengaged, hs.departed.step hengaged hstep,
    hs.pointed.step hs.excluded hstep⟩

/-- In every run that takes the mutex only while no conflicting work is pending,
every step is undisturbed. -/
theorem broadcast_undisturbed {s s' : Clients τ H}
    (hs : (clientSystem τ H).ReachableBy LocksAlone s) {t : τ} {a : ClientStep H}
    (hstep : (clientSystem τ H).step s (t, a) = some s') : s.Undisturbed t a := by
  have horderly := orderly_of_reachableBy hs
  have hstep := step_cases hstep
  constructor
  · rintro ha t' hloop
    have hchanging : (s.thread t).Changing := by
      rcases ha with rfl | rfl
      · cases hstep with
        | insert h hpc =>
          simp [hpc, Thread.Changing, Operation.broadcasts]
      · cases hstep with
        | erase h hpc =>
          simp [hpc, Thread.Changing, Operation.broadcasts]
    exact horderly.excluded t t' hchanging hloop.iterating
  · rintro rfl c hpc hgone
    exact horderly.departed.gone c hgone (horderly.pointed t c (by rw [hpc]; rfl))

/-- A broadcast to one connected client. -/
theorem broadcast_undisturbed_one_client :
    ∃ s : Clients (Fin 2) (Fin 1), (clientSystem (Fin 2) (Fin 1)).ReachableBy LocksAlone s ∧
      s.thread 1 = .loopTest (some 0) ∧ s.Undisturbed 1 .sendBinary := by
  let start : Clients (Fin 2) (Fin 1) := ⟨fun _ => .idle, none, ∅, fun _ => .created⟩
  let actions : List (Fin 2 × ClientStep (Fin 1)) :=
    [(0, .call (.onConnect 0)), (0, .lock), (0, .unlock), (0, .insert), (0, .leave),
      (1, .call .sendToAll), (1, .lock), (1, .unlock), (1, .begin)]
  have hrun : ((clientSystem (Fin 2) (Fin 1)).run LocksAlone start actions).map (·.thread 1) =
      some (.loopTest (some 0)) := by decide
  obtain ⟨s, hs, hpc⟩ := Option.map_eq_some_iff.mp hrun
  have hreach : (clientSystem (Fin 2) (Fin 1)).ReachableBy LocksAlone s :=
    .run (.initial ⟨fun _ => rfl, rfl, rfl, fun _ => rfl⟩) hs
  have hstep : (clientSystem (Fin 2) (Fin 1)).step s (1, .sendBinary) =
      some (s.moveTo 1 (.loopNext 0)) := by
    change s.step 1 .sendBinary = _
    simp only [step, hpc]
  exact ⟨s, hreach, hpc, broadcast_undisturbed hreach hstep⟩

/-- A disconnect in the middle of a broadcast erases the client under the loop,
and the client receives after its disconnect. -/
theorem broadcast_disturbed_by_disconnect :
    (∃ s s' : Clients (Fin 2) (Fin 1), (clientSystem (Fin 2) (Fin 1)).Reachable s ∧
        (clientSystem (Fin 2) (Fin 1)).step s (0, .erase) = some s' ∧
        ¬s.Undisturbed 0 .erase) ∧
      ∃ s s' : Clients (Fin 2) (Fin 1), (clientSystem (Fin 2) (Fin 1)).Reachable s ∧
        (clientSystem (Fin 2) (Fin 1)).step s (1, .sendBinary) = some s' ∧
        ¬s.Undisturbed 1 .sendBinary := by
  let start : Clients (Fin 2) (Fin 1) := ⟨fun _ => .idle, none, ∅, fun _ => .created⟩
  let actions : List (Fin 2 × ClientStep (Fin 1)) :=
    [(0, .call (.onConnect 0)), (0, .lock), (0, .unlock), (0, .insert), (0, .leave),
      (1, .call .sendToAll), (1, .lock), (1, .unlock), (1, .begin),
      (0, .call (.onDisconnect 0)), (0, .lock), (0, .unlock)]
  have hstart : (clientSystem (Fin 2) (Fin 1)).Reachable start :=
    .initial ⟨fun _ => rfl, rfl, rfl, fun _ => rfl⟩
  have herase : ((clientSystem (Fin 2) (Fin 1)).run (fun _ _ => True) start actions).map
      (fun s => (s.thread 0, s.thread 1)) =
        some (.unlocked (.onDisconnect 0), .loopTest (some 0)) := by decide
  have hsend : ((clientSystem (Fin 2) (Fin 1)).run (fun _ _ => True) start
      (actions ++ [(0, .erase), (0, .leave)])).map (fun s => (s.thread 1, s.connection 0)) =
        some (.loopTest (some 0), .gone) := by decide
  obtain ⟨s₁, hs₁, hpc₁⟩ := Option.map_eq_some_iff.mp herase
  obtain ⟨s₂, hs₂, hpc₂⟩ := Option.map_eq_some_iff.mp hsend
  obtain ⟨h₀, h₁⟩ := Prod.mk.inj hpc₁
  obtain ⟨h₂, hgone⟩ := Prod.mk.inj hpc₂
  have hstep₁ : s₁.step 0 .erase = some { s₁.moveTo 0 (.finished (.onDisconnect 0)) with
      mAllClients := s₁.mAllClients.erase 0 } := by
    simp only [step, h₀]
  have hstep₂ : s₂.step 1 .sendBinary = some (s₂.moveTo 1 (.loopNext 0)) := by
    simp only [step, h₂]
  constructor
  · refine ⟨s₁, _, hstart.run hs₁, hstep₁, fun h => h.unchanged (Or.inr rfl) 1 ?_⟩
    rw [h₁]
    trivial
  · exact ⟨s₂, _, hstart.run hs₂, hstep₂, fun h => h.receiver rfl 0 h₂ hgone⟩

end Clients

end RaspiOrbSlam.Server
