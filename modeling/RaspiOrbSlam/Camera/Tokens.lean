import RaspiOrbSlam.Camera.Buffers

/-!
# The tokens of the two semaphores

A thread that has passed its `wait` and not reached its `notify` holds a token,
the counts hold the others. There are one or two tokens in every reachable state:
a saturated `notify` can destroy the second one and never the last. While the
main loop uses a buffer and the camera thread holds the other token, no third
token lets anyone come around, so the two never meet in one buffer.
-/

namespace RaspiOrbSlam.Camera

open Foundation

/-- The token between `nextFrameSignal.wait` and `frameAvailableSignal.notify`. -/
def CameraThread.token : CameraThread → Nat
  | .loopHead | .waiting | .finished => 0
  | _ => 1

/-- The place that the thread writes or is about to write. -/
def CameraThread.target : CameraThread → Option (Fin 2)
  | .aimed i | .copying i | .aimedTime i => some i
  | _ => none

theorem CameraThread.token_of_target {pc : CameraThread} {i : Fin 2} (h : pc.target = some i) :
    pc.token = 1 := by
  cases pc with
  | aimed _ | copying _ | aimedTime _ => rfl
  | _ => cases h

namespace MainLoop

/-- The token between `frameAvailableSignal.wait` and `nextFrameSignal.notify`. -/
def token : MainLoop → Nat
  | .loopHead | .waiting | .tracking _ _ | .finished => 0
  | _ => 1

/-- The loop has the token and has not yet swapped. -/
def Reading : MainLoop → Prop
  | .loopHead | .waiting | .swapped _ _ | .tracking _ _ | .finished => False
  | _ => True

/-- The buffer that `getCameraBuffer` has chosen, until the swap. -/
def buffer : MainLoop → Option (Fin 2)
  | .gotImage i | .aimedTime i _ => some i
  | .returned frame | .copying frame _ | .copied frame _ | .aimedSwap frame _ _ =>
      some frame.imData
  | _ => none

/-- The image that has been copied out. -/
def image : MainLoop → Option Image
  | .copied _ im | .aimedSwap _ im _ | .swapped _ im | .tracking _ im => some im
  | _ => none

/-- Every index that the loop has read is the current one. -/
def UpToDate (current : Fin 2) : MainLoop → Prop
  | .gotImage i => i = current
  | .aimedTime i j => i = current ∧ j = current
  | .returned frame | .copying frame _ | .copied frame _ => frame.imData = current
  | .aimedSwap frame _ next => frame.imData = current ∧ next = nextIndex current
  | _ => True

theorem reading_of_buffer {pc : MainLoop} {i : Fin 2} (h : pc.buffer = some i) : pc.Reading := by
  cases pc with
  | gotImage _ | aimedTime _ _ | returned _ | copying _ _ | copied _ _ | aimedSwap _ _ _ => trivial
  | _ => cases h

theorem UpToDate.buffer_eq {pc : MainLoop} {current i : Fin 2} (h : pc.UpToDate current)
    (hi : pc.buffer = some i) : i = current := by
  cases pc with
  | gotImage j | returned frame | copying frame first | copied frame im =>
      exact Option.some.inj hi ▸ h
  | aimedTime j k | aimedSwap frame im next => exact Option.some.inj hi ▸ h.1
  | _ => cases hi

end MainLoop

/-- With a maximum of one, `notify` leaves one. -/
theorem Semaphore.notify_mCount {s : Semaphore} (h : s.mMax = 1) : s.notify.mCount = 1 := by
  rw [notify, h]
  exact Nat.min_eq_left (Nat.le_add_left 1 s.mCount)

theorem Semaphore.wait_eq_none_iff {s : Semaphore} : s.wait = none ↔ s.mCount = 0 := by
  rw [wait]
  split <;> simp_all

theorem nextIndex_ne (i : Fin 2) : nextIndex i ≠ i := by
  revert i
  decide

namespace State

/-- One or two tokens, and at most one in each count. -/
structure Tokens (s : State) : Prop where
  next_max : s.nextFrameSignal.mMax = 1
  available_max : s.frameAvailableSignal.mMax = 1
  next_le : s.nextFrameSignal.mCount ≤ 1
  available_le : s.frameAvailableSignal.mCount ≤ 1
  pos : 1 ≤ s.nextFrameSignal.mCount + s.frameAvailableSignal.mCount + s.cameraThread.token +
    s.mainLoop.token
  le_two : s.nextFrameSignal.mCount + s.frameAvailableSignal.mCount + s.cameraThread.token +
    s.mainLoop.token ≤ 2

/-- A step that touches neither count and neither token. -/
theorem Tokens.of_eq {s s' : State} (h : s.Tokens) (hn : s'.nextFrameSignal = s.nextFrameSignal)
    (ha : s'.frameAvailableSignal = s.frameAvailableSignal)
    (hc : s'.cameraThread.token = s.cameraThread.token)
    (hm : s'.mainLoop.token = s.mainLoop.token) : s'.Tokens := by
  obtain ⟨h₁, h₂, h₃, h₄, h₅, h₆⟩ := h
  constructor <;> simp only [hn, ha, hc, hm] <;> assumption

theorem Tokens.step {s s' : State} {actor : Actor} (h : s.Tokens)
    (hstep : Step s actor s') : s'.Tokens := by
  cases hstep with
  | shutdown => exact h.of_eq rfl rfl rfl rfl
  | cameraLoop pc hpc hnext =>
      refine h.of_eq rfl rfl ?_ rfl
      rw [hpc]
      rcases hnext with rfl | rfl <;> rfl
  | mainLoop pc hpc hnext =>
      refine h.of_eq rfl rfl rfl ?_
      rw [hpc]
      rcases hnext with rfl | rfl <;> rfl
  | capture hpc | chooseImage hpc | startCopy _ hpc | endCopy _ hpc | chooseTime hpc
    | stamp _ hpc =>
      exact h.of_eq rfl rfl (by rw [hpc]; rfl) rfl
  | readImage hpc | readIndex _ hpc | hand _ _ hpc | startRead _ hpc | endRead _ _ hpc
    | chooseSwap _ _ hpc | swap _ _ _ hpc | track _ _ hpc =>
      exact h.of_eq rfl rfl rfl (by rw [hpc]; rfl)
  | cameraWait hpc hcount =>
      obtain ⟨hn, ha, hn1, ha1, hpos, hle⟩ := h
      simp only [hpc, CameraThread.token] at hpos hle
      constructor <;> simp only [CameraThread.token] <;> omega
  | mainWait hpc hcount =>
      obtain ⟨hn, ha, hn1, ha1, hpos, hle⟩ := h
      simp only [hpc, MainLoop.token] at hpos hle
      constructor <;> simp only [MainLoop.token] <;> omega
  | notifyAvailable hpc =>
      obtain ⟨hn, ha, hn1, ha1, hpos, hle⟩ := h
      have hcount := Semaphore.notify_mCount ha
      simp only [hpc, CameraThread.token] at hpos hle
      constructor <;> simp only [CameraThread.token, hcount] <;> first | assumption | omega
  | notifyNext frame im hpc =>
      obtain ⟨hn, ha, hn1, ha1, hpos, hle⟩ := h
      have hcount := Semaphore.notify_mCount hn
      simp only [hpc, MainLoop.token] at hpos hle
      constructor <;> simp only [MainLoop.token, hcount] <;> first | assumption | omega

theorem tokens_of_reachable {s : State} (h : cameraSystem.Reachable s) : s.Tokens := by
  refine h.invariant ?_ fun _ hs _ hstep => hs.step (step_cases hstep)
  rintro s rfl
  constructor <;> decide

/-- The camera thread is blocked in `nextFrameSignal.wait`. -/
def CameraBlocked (s : State) : Prop :=
  s.cameraThread = .waiting ∧ s.nextFrameSignal.wait = none

/-- The main loop is blocked in `frameAvailableSignal.wait`. -/
def MainBlocked (s : State) : Prop :=
  s.mainLoop = .waiting ∧ s.frameAvailableSignal.wait = none

/-- The last token is never lost, so the two threads never block each other. -/
theorem not_both_blocked {s : State} (h : cameraSystem.Reachable s) :
    ¬(s.CameraBlocked ∧ s.MainBlocked) := by
  rintro ⟨⟨hcamera, hnext⟩, ⟨hmain, havailable⟩⟩
  have hpos := (tokens_of_reachable h).pos
  rw [hcamera, hmain, Semaphore.wait_eq_none_iff.mp hnext,
    Semaphore.wait_eq_none_iff.mp havailable] at hpos
  exact absurd hpos (by decide)

/-- After one frame the camera thread is blocked, and the waiting main loop is not. -/
theorem not_both_blocked_one_frame :
    ∃ s : State, cameraSystem.Reachable s ∧ s.CameraBlocked ∧ s.mainLoop = .waiting ∧
      ¬s.MainBlocked := by
  have hrun : (cameraSystem.run (fun _ _ => True) start
      (.main :: List.replicate 10 .camera)).map
        (fun s => (s.cameraThread, s.nextFrameSignal.wait, s.mainLoop)) =
          some (.waiting, none, .waiting) := by decide
  obtain ⟨s, hs, hpc⟩ := Option.map_eq_some_iff.mp hrun
  simp only [Prod.mk.injEq] at hpc
  obtain ⟨hcamera, hnext, hmain⟩ := hpc
  have hstart : cameraSystem.Reachable start := .initial rfl
  have hreach := hstart.run hs
  exact ⟨s, hreach, ⟨hcamera, hnext⟩, hmain,
    fun hblocked => not_both_blocked hreach ⟨⟨hcamera, hnext⟩, hblocked⟩⟩

end State

end RaspiOrbSlam.Camera
