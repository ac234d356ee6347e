import RaspiOrbSlam.Server.BroadcastSafety

/-!
# What a broadcast delivers

The loop of `sendToAll` goes over a set that other threads may change meanwhile. As long as
nobody erases the client that an iterator refers to, every client that stays is sent the message
exactly once. To insert a client, to erase one and to step an iterator forward are single steps
here, which exclude each other.
-/

namespace RaspiOrbSlam.Server

open Foundation

/-- What has happened since the loop of a thread began. -/
structure Delivery (H : Type) where
  /-- The clients that were sent the message, in this order. -/
  sent : List H
  /-- The clients that have been in the set all the time. -/
  stayed : Finset H
  /-- The clients that have been in the set at some time. -/
  appeared : Finset H

/-- The clients with what each thread's broadcast has delivered. -/
structure Watched (τ H : Type) where
  clients : Clients τ H
  delivery : τ → Delivery H

namespace Delivery

variable {H : Type} [LinearOrder H]

/-- The loop has sent the message to clients that it has passed, and those ahead of it are still
to be sent it. -/
structure Split (d : Delivery H) (passed ahead : H → Prop) : Prop where
  ordered : d.sent.Pairwise (· < ·)
  passed : ∀ c ∈ d.sent, passed c
  ahead : ∀ c ∈ d.stayed, c ∈ d.sent ∨ ahead c
  appeared : ∀ c ∈ d.sent, c ∈ d.appeared

/-- What the place of a thread in the loop says about its broadcast. -/
def At (d : Delivery H) : Thread H → Prop
  | .loopTest next => d.Split (fun c => ∀ n, next = some n → c < n)
      fun c => ∃ n, next = some n ∧ n ≤ c
  | .loopNext last => d.Split (fun c => c ≤ last) fun c => last < c
  | .finished .sendToAll => d.Split (fun _ => True) fun _ => False
  | _ => True

/-- The clients that stayed are in the set, and those in the set have appeared. -/
structure Brackets (d : Delivery H) (clients : Finset H) : Prop where
  stayed : d.stayed ⊆ clients
  appeared : clients ⊆ d.appeared

/-- Others may appear and leave. -/
theorem Split.mono {d d' : Delivery H} {passed ahead : H → Prop} (h : d.Split passed ahead)
    (hsent : d'.sent = d.sent) (hstayed : d'.stayed ⊆ d.stayed)
    (happeared : d.appeared ⊆ d'.appeared) : d'.Split passed ahead where
  ordered := hsent ▸ h.ordered
  passed := hsent ▸ h.passed
  ahead := fun c hc => hsent ▸ h.ahead c (hstayed hc)
  appeared := fun c hc => happeared (h.appeared c (hsent ▸ hc))

theorem At.mono {d d' : Delivery H} {pc : Thread H} (h : d.At pc) (hsent : d'.sent = d.sent)
    (hstayed : d'.stayed ⊆ d.stayed) (happeared : d.appeared ⊆ d'.appeared) : d'.At pc := by
  cases pc with
  | loopTest next | loopNext last => exact Split.mono h hsent hstayed happeared
  | finished op =>
      cases op with
      | sendToAll => exact Split.mono h hsent hstayed happeared
      | _ => trivial
  | _ => trivial

/-- The loop has reached the next client. -/
theorem Split.send {d : Delivery H} {c : H} (h : d.At (.loopTest (some c)))
    (hc : c ∈ d.appeared) : Delivery.At { d with sent := d.sent ++ [c] } (.loopNext c) where
  ordered := by
    apply List.pairwise_append.mpr
    refine ⟨h.ordered, List.pairwise_singleton _ c, ?_⟩
    intro x hx y hy
    obtain rfl := List.mem_singleton.mp hy
    exact h.passed x hx y rfl
  passed := by
    intro x hx
    rcases List.mem_append.mp hx with hx | hx
    · exact (h.passed x hx c rfl).le
    · exact (List.mem_singleton.mp hx).le
  ahead := by
    intro x hx
    rcases h.ahead x hx with hsent | ⟨n, hn, hle⟩
    · exact Or.inl (List.mem_append_left _ hsent)
    obtain rfl := Option.some_inj.mp hn
    rcases hle.eq_or_lt with rfl | hlt
    · exact Or.inl (List.mem_append_right _ (List.mem_singleton_self c))
    · exact Or.inr hlt
  appeared := by
    intro x hx
    rcases List.mem_append.mp hx with hx | hx
    · exact h.appeared x hx
    · exact List.mem_singleton.mp hx ▸ hc

/-- The iterator moves to the first client behind the last one. -/
theorem Split.next {d : Delivery H} {clients : Finset H} {last : H} (h : d.At (.loopNext last))
    (hd : d.Brackets clients) : d.At (.loopTest (Clients.successor clients last)) where
  ordered := h.ordered
  passed := by
    intro x hx n hn
    have hbehind := (Finset.mem_filter.mp (Finset.mem_of_min hn)).2
    exact (h.passed x hx).trans_lt hbehind
  ahead := by
    intro x hx
    rcases h.ahead x hx with hsent | hlt
    · exact Or.inl hsent
    have hmem : x ∈ clients.filter (last < ·) := Finset.mem_filter.mpr ⟨hd.stayed hx, hlt⟩
    obtain ⟨n, hn⟩ := Finset.min_of_mem hmem
    exact Or.inr ⟨n, hn, Finset.min_le_of_eq hmem hn⟩
  appeared := h.appeared

/-- The iterator starts at the first client. -/
theorem Split.first (clients : Finset H) :
    Delivery.At ⟨[], clients, clients⟩ (.loopTest clients.min) where
  ordered := .nil
  passed := nofun
  ahead := by
    intro x hx
    obtain ⟨n, hn⟩ := Finset.min_of_mem hx
    exact Or.inr ⟨n, hn, Finset.min_le_of_eq hx hn⟩
  appeared := nofun

/-- No client is left when the iterator is at the end. -/
theorem Split.finish {d : Delivery H} (h : d.At (.loopTest none)) :
    d.At (.finished .sendToAll) where
  ordered := h.ordered
  passed := fun _ _ => trivial
  ahead := fun c hc => (h.ahead c hc).imp_right fun ⟨_, hn, _⟩ => nomatch hn
  appeared := h.appeared

end Delivery

namespace Watched

variable {τ H : Type} [DecidableEq τ] [LinearOrder H]

/-- What a step adds to the deliveries. -/
def observe (s : Watched τ H) (t : τ) (a : ClientStep H) : τ → Delivery H :=
  match a, s.clients.thread t with
  | .begin, _ =>
      Function.update s.delivery t ⟨[], s.clients.mAllClients, s.clients.mAllClients⟩
  | .sendBinary, .loopTest (some c) => Function.update s.delivery t
      { s.delivery t with sent := (s.delivery t).sent ++ [c] }
  | .insert, .unlocked (.onConnect h) => fun t' =>
      { s.delivery t' with appeared := insert h (s.delivery t').appeared }
  | .erase, .unlocked (.onDisconnect h) => fun t' =>
      { s.delivery t' with stayed := (s.delivery t').stayed.erase h }
  | _, _ => s.delivery

def step (s : Watched τ H) (t : τ) (a : ClientStep H) : Option (Watched τ H) :=
  (s.clients.step t a).map fun clients => ⟨clients, s.observe t a⟩

/-- No thread runs and nothing has been sent. -/
def Initial (s : Watched τ H) : Prop :=
  s.clients.Initial ∧ ∀ t, s.delivery t = ⟨[], ∅, ∅⟩

/-- No iterator refers to the client that is erased. -/
def SparesIterators (s : Watched τ H) (a : τ × ClientStep H) : Prop :=
  ∀ h, a.2 = .erase → s.clients.thread a.1 = .unlocked (.onDisconnect h) →
    ∀ t, (s.clients.thread t).element ≠ some h

/-- Where the broadcasts stand. -/
structure Delivering (s : Watched τ H) : Prop where
  pointed : s.clients.Pointed
  brackets : ∀ t, (s.delivery t).Brackets s.clients.mAllClients
  place : ∀ t, (s.delivery t).At (s.clients.thread t)

omit [DecidableEq τ] in
theorem Initial.delivering {s : Watched τ H} (h : s.Initial) : s.Delivering := by
  obtain ⟨hclients, hdelivery⟩ := h
  have ⟨hidle, _, hset, _⟩ := hclients
  refine ⟨hclients.orderly.pointed, ?_, ?_⟩
  · intro t
    rw [hdelivery t, hset]
    exact ⟨Finset.Subset.refl _, Finset.Subset.refl _⟩
  · intro t
    rw [hidle t]
    trivial

/-- A step of another thread sends nothing for this one. -/
theorem observe_of_ne (s : Watched τ H) {t t' : τ} (h : t' ≠ t) (a : ClientStep H) :
    (s.observe t a t').sent = (s.delivery t').sent ∧
      (s.observe t a t').stayed ⊆ (s.delivery t').stayed ∧
      (s.delivery t').appeared ⊆ (s.observe t a t').appeared := by
  generalize hnext : s.observe t a = next
  unfold observe at hnext
  split at hnext
  all_goals subst hnext
  · rw [Function.update_of_ne h]
    exact ⟨rfl, Finset.Subset.refl _, Finset.Subset.refl _⟩
  · rw [Function.update_of_ne h]
    exact ⟨rfl, Finset.Subset.refl _, Finset.Subset.refl _⟩
  · exact ⟨rfl, Finset.Subset.refl _, Finset.subset_insert _ _⟩
  · exact ⟨rfl, Finset.erase_subset _ _, Finset.Subset.refl _⟩
  · exact ⟨rfl, Finset.Subset.refl _, Finset.Subset.refl _⟩

/-- Erasing spares the elements that iterators refer to. -/
theorem Delivering.pointed_step {s : Watched τ H} (h : s.Delivering) {t : τ} {a : ClientStep H}
    (hspares : s.SparesIterators (t, a)) {clients : Clients τ H}
    (hstep : Clients.Step s.clients t a clients) : clients.Pointed := by
  intro t' c hc
  have hold : c ∈ s.clients.mAllClients := by
    by_cases heq : t' = t
    · exact h.pointed.element hstep (heq ▸ hc)
    · exact h.pointed t' c (hstep.thread_of_ne heq ▸ hc)
  cases hstep with
  | insert h₀ hpc => exact Finset.mem_insert_of_mem hold
  | erase h₀ hpc =>
      have hne : t' ≠ t := by
        rintro rfl
        cases (congrArg Thread.element (Clients.moveTo_thread_self s.clients t' _)).symm.trans hc
      have hother : (s.clients.thread t').element = some c :=
        (congrArg Thread.element (Clients.moveTo_thread_of_ne s.clients hne _)).symm.trans hc
      refine Finset.mem_erase.mpr ⟨?_, hold⟩
      rintro rfl
      exact hspares c rfl hpc t' hother
  | _ => exact hold

/-- The stayed clients follow the erasures, the appeared ones the insertions. -/
theorem Delivering.brackets_step {s : Watched τ H} (h : s.Delivering) {t : τ} {a : ClientStep H}
    {clients : Clients τ H} (hstep : Clients.Step s.clients t a clients) (t' : τ) :
    (s.observe t a t').Brackets clients.mAllClients := by
  have hold := h.brackets t'
  cases hstep with
  | insert h₀ hpc =>
      simp only [observe, hpc]
      exact ⟨hold.stayed.trans (Finset.subset_insert _ _),
        Finset.insert_subset_insert h₀ hold.appeared⟩
  | erase h₀ hpc =>
      simp only [observe, hpc]
      exact ⟨Finset.erase_subset_erase h₀ hold.stayed,
        (Finset.erase_subset _ _).trans hold.appeared⟩
  | begin hpc =>
      by_cases heq : t' = t
      · simp only [observe, heq, Function.update_self]
        exact ⟨Finset.Subset.refl _, Finset.Subset.refl _⟩
      · simp only [observe, Function.update_of_ne heq]
        exact hold
  | sendBinary c hpc =>
      by_cases heq : t' = t
      · subst heq
        simp only [observe, hpc, Function.update_self]
        exact ⟨hold.stayed, hold.appeared⟩
      · simp only [observe, hpc, Function.update_of_ne heq]
        exact hold
  | _ => exact hold

/-- The place of the thread that takes a step. -/
theorem Delivering.place_step {s : Watched τ H} (h : s.Delivering) {t : τ} {a : ClientStep H}
    {clients : Clients τ H} (hstep : Clients.Step s.clients t a clients) :
    (s.observe t a t).At (clients.thread t) := by
  have hold := h.place t
  cases hstep with
  | begin hpc =>
      simp only [observe, Function.update_self, Clients.moveTo_thread_self]
      exact Delivery.Split.first _
  | sendBinary c hpc =>
      have hmem : c ∈ s.clients.mAllClients := h.pointed t c (by rw [hpc]; rfl)
      rw [hpc] at hold
      simp only [observe, hpc, Function.update_self, Clients.moveTo_thread_self]
      exact Delivery.Split.send hold ((h.brackets t).appeared hmem)
  | advance last next hpc hnext =>
      have hmem : last ∈ s.clients.mAllClients := h.pointed t last (by rw [hpc]; rfl)
      rw [hpc] at hold
      rw [hnext hmem, Clients.moveTo_thread_self]
      exact Delivery.Split.next hold (h.brackets t)
  | endLoop hpc =>
      rw [hpc] at hold
      rw [Clients.moveTo_thread_self]
      exact Delivery.Split.finish hold
  | _ =>
      change Delivery.At _ ((s.clients.moveTo t _).thread t)
      rw [Clients.moveTo_thread_self]
      trivial

theorem Delivering.step {s s' : Watched τ H} (h : s.Delivering) {t : τ} {a : ClientStep H}
    (hspares : s.SparesIterators (t, a)) (hstep : s.step t a = some s') : s'.Delivering := by
  obtain ⟨clients, hclients, rfl⟩ := Option.map_eq_some_iff.mp hstep
  have hcases := Clients.step_cases hclients
  refine ⟨h.pointed_step hspares hcases, h.brackets_step hcases, ?_⟩
  intro t'
  by_cases heq : t' = t
  · rw [heq]
    exact h.place_step hcases
  · obtain ⟨hsent, hstayed, happeared⟩ := s.observe_of_ne heq a
    have hplace := h.place t'
    rw [← hcases.thread_of_ne heq] at hplace
    exact hplace.mono hsent hstayed happeared

end Watched

/-- Every interleaving of the operations, with what the broadcasts deliver. -/
def deliverySystem (τ H : Type) [DecidableEq τ] [LinearOrder H] :
    TransitionSystem (Watched τ H) (τ × ClientStep H) where
  Initial := Watched.Initial
  step s a := s.step a.1 a.2

namespace Watched

variable {τ H : Type} [DecidableEq τ] [LinearOrder H]

/-- Every run of the clients can be watched. -/
theorem exists_delivery {Allowed : Clients τ H → τ × ClientStep H → Prop} {clients : Clients τ H}
    (h : (clientSystem τ H).ReachableBy Allowed clients) :
    ∃ delivery, (deliverySystem τ H).ReachableBy (fun s a => Allowed s.clients a)
      ⟨clients, delivery⟩ := by
  induction h with
  | initial h => exact ⟨fun _ => ⟨[], ∅, ∅⟩, .initial ⟨h, fun _ => rfl⟩⟩
  | step _ ha hstep ih =>
      obtain ⟨delivery, hreach⟩ := ih
      exact ⟨_, .step hreach ha (congrArg (Option.map _) hstep)⟩

/-- Whatever handlers connect and disconnect meanwhile, a broadcast that has ended has sent the
message to each client at most once and in the order of the set, to every client that was in the
set all the time, and to no client that never was. -/
theorem broadcast_delivers {s : Watched τ H}
    (h : (deliverySystem τ H).ReachableBy SparesIterators s) {t : τ}
    (hend : s.clients.thread t = .finished .sendToAll) :
    (s.delivery t).sent.Pairwise (· < ·) ∧ (∀ c ∈ (s.delivery t).stayed, c ∈ (s.delivery t).sent) ∧
      ∀ c ∈ (s.delivery t).sent, c ∈ (s.delivery t).appeared := by
  have hdelivering : s.Delivering :=
    h.invariant (fun _ => Initial.delivering) fun _ hs ha hstep => hs.step ha hstep
  have hplace := hdelivering.place t
  rw [hend] at hplace
  exact ⟨hplace.ordered, fun c hc => (hplace.ahead c hc).resolve_right id, hplace.appeared⟩

instance [Fintype τ] [Fintype H] (s : Watched τ H) (a : τ × ClientStep H) :
    Decidable (s.SparesIterators a) := by
  unfold SparesIterators
  infer_instance

/-- While the message goes to the clients 0 and 1, the client 2 connects and the client 0
disconnects. -/
theorem broadcast_delivers_three_clients :
    ∃ s : Watched (Fin 2) (Fin 3), (s.delivery 1).sent = [0, 1, 2] ∧ (s.delivery 1).stayed = {1} ∧
      (s.delivery 1).sent.Pairwise (· < ·) ∧
      (∀ c ∈ (s.delivery 1).stayed, c ∈ (s.delivery 1).sent) ∧
      ∀ c ∈ (s.delivery 1).sent, c ∈ (s.delivery 1).appeared := by
  let start : Watched (Fin 2) (Fin 3) :=
    ⟨⟨fun _ => .idle, none, ∅, fun _ => .created⟩, fun _ => ⟨[], ∅, ∅⟩⟩
  let connect (h : Fin 3) : List (Fin 2 × ClientStep (Fin 3)) :=
    [(0, .call (.onConnect h)), (0, .lock), (0, .unlock), (0, .insert), (0, .leave)]
  let actions : List (Fin 2 × ClientStep (Fin 3)) := connect 0 ++ connect 1 ++
    [(1, .call .sendToAll), (1, .lock), (1, .unlock), (1, .begin), (1, .sendBinary),
      (1, .advance (some 1))] ++ connect 2 ++
    [(0, .call (.onDisconnect 0)), (0, .lock), (0, .unlock), (0, .erase), (1, .sendBinary),
      (1, .advance (some 2)), (1, .sendBinary), (1, .advance none), (1, .endLoop)]
  have hrun : ((deliverySystem (Fin 2) (Fin 3)).run SparesIterators start actions).map
      (fun s => (s.clients.thread 1, (s.delivery 1).sent, (s.delivery 1).stayed)) =
        some (.finished .sendToAll, [0, 1, 2], {1}) := by decide +kernel
  obtain ⟨s, hs, hstate⟩ := Option.map_eq_some_iff.mp hrun
  obtain ⟨hend, hlists⟩ := Prod.mk.inj hstate
  obtain ⟨hsent, hstayed⟩ := Prod.mk.inj hlists
  have hreach : (deliverySystem (Fin 2) (Fin 3)).ReachableBy SparesIterators s :=
    .run (.initial ⟨⟨fun _ => rfl, rfl, rfl, fun _ => rfl⟩, fun _ => rfl⟩) hs
  exact ⟨s, hsent, hstayed, broadcast_delivers hreach hend⟩

end Watched

end RaspiOrbSlam.Server
