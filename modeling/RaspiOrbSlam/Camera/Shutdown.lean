import RaspiOrbSlam.Camera.Tokens

/-!
# The shutdown of the camera

Once the flag is set, a thread ends at the head of its loop, and the two threads
together take a bounded number of further steps. At the end both have finished, or
one of them waits forever for a signal of the other, which has finished; they
never wait both.
-/

namespace RaspiOrbSlam.Camera

open Foundation

/-- The steps to the end of the thread, if it ends at the head of the loop. -/
def CameraThread.remaining : CameraThread → Nat
  | .finished => 0
  | .loopHead => 1
  | .stamped => 2
  | .aimedTime _ => 3
  | .copied => 4
  | .copying _ => 5
  | .aimed _ => 6
  | .captured => 7
  | .acquired => 8
  | .waiting => 9

def MainLoop.remaining : MainLoop → Nat
  | .finished => 0
  | .loopHead => 1
  | .tracking _ _ => 2
  | .swapped _ _ => 3
  | .aimedSwap _ _ _ => 4
  | .copied _ _ => 5
  | .copying _ _ => 6
  | .returned _ => 7
  | .aimedTime _ _ => 8
  | .gotImage _ => 9
  | .acquired => 10
  | .waiting => 11

namespace State

def remaining (s : State) : Nat := s.cameraThread.remaining + s.mainLoop.remaining

/-- How the two threads can end up. -/
inductive Ended (s : State) : Prop
  | both : s.cameraThread = .finished → s.mainLoop = .finished → Ended s
  | mainWaits : s.cameraThread = .finished → s.mainLoop = .waiting →
      s.frameAvailableSignal.mCount = 0 → Ended s
  | cameraWaits : s.mainLoop = .finished → s.cameraThread = .waiting →
      s.nextFrameSignal.mCount = 0 → Ended s

theorem cameraStep_remaining {s s' : State} (hflag : s.gShutdownFlag = true)
    (h : s.cameraStep = some s') :
    s'.remaining + 1 = s.remaining ∧ s'.gShutdownFlag = true := by
  unfold cameraStep at h
  split at h
  case h_2 hpc =>
    obtain ⟨sem, -, rfl⟩ := Option.map_eq_some_iff.mp h
    refine ⟨?_, hflag⟩
    simp only [remaining, hpc, CameraThread.remaining]
    omega
  case h_10 => cases h
  all_goals
    next hpc =>
    cases h
    refine ⟨?_, hflag⟩
    simp only [remaining, hpc, hflag, if_true, CameraThread.remaining]
    omega

theorem mainStep_remaining {s s' : State} (hflag : s.gShutdownFlag = true)
    (h : s.mainStep = some s') :
    s'.remaining + 1 = s.remaining ∧ s'.gShutdownFlag = true := by
  unfold mainStep at h
  split at h
  case h_2 hpc =>
    obtain ⟨sem, -, rfl⟩ := Option.map_eq_some_iff.mp h
    refine ⟨?_, hflag⟩
    simp only [remaining, hpc, MainLoop.remaining]
  case h_12 => cases h
  all_goals
    next hpc =>
    cases h
    refine ⟨?_, hflag⟩
    simp only [remaining, hpc, hflag, if_true, MainLoop.remaining]

/-- A thread that cannot go on has finished or waits for a signal. -/
theorem of_cameraStep_eq_none {s : State} (h : s.cameraStep = none) :
    s.cameraThread = .finished ∨ s.cameraThread = .waiting ∧ s.nextFrameSignal.mCount = 0 := by
  unfold cameraStep at h
  split at h
  case h_2 hpc =>
    exact .inr ⟨hpc, Semaphore.wait_eq_none_iff.mp (Option.map_eq_none_iff.mp h)⟩
  case h_10 hpc => exact .inl hpc
  all_goals cases h

theorem of_mainStep_eq_none {s : State} (h : s.mainStep = none) :
    s.mainLoop = .finished ∨ s.mainLoop = .waiting ∧ s.frameAvailableSignal.mCount = 0 := by
  unfold mainStep at h
  split at h
  case h_2 hpc =>
    exact .inr ⟨hpc, Semaphore.wait_eq_none_iff.mp (Option.map_eq_none_iff.mp h)⟩
  case h_12 hpc => exact .inl hpc
  all_goals cases h

theorem ended_of_stuck {s : State} (h : s.Tokens) (hcamera : s.cameraStep = none)
    (hmain : s.mainStep = none) : s.Ended := by
  rcases of_cameraStep_eq_none hcamera with hc | ⟨hc, hnext⟩ <;>
    rcases of_mainStep_eq_none hmain with hm | ⟨hm, havailable⟩
  · exact .both hc hm
  · exact .mainWaits hc hm havailable
  · exact .cameraWaits hm hc hnext
  · have hpos := h.pos
    rw [hc, hm, hnext, havailable] at hpos
    exact absurd hpos (by decide)

/-- A run of the two threads after the flag has been set. -/
theorem shutdown_run {s s' : State} (h : cameraSystem.Reachable s)
    (hflag : s.gShutdownFlag = true) {actors : List Actor}
    (hthreads : ∀ actor ∈ actors, actor ≠ .shutdownHandler)
    (hrun : cameraSystem.run (fun _ _ => True) s actors = some s') :
    s'.remaining + actors.length = s.remaining ∧ cameraSystem.Reachable s' := by
  refine ⟨?_, h.run hrun⟩
  clear h
  induction actors generalizing s with
  | nil =>
      cases hrun
      rfl
  | cons actor actors ih =>
      rw [TransitionSystem.run, if_pos trivial] at hrun
      obtain ⟨next, hnext, hrest⟩ := Option.bind_eq_some_iff.mp hrun
      obtain ⟨hremaining, hflag'⟩ :
          next.remaining + 1 = s.remaining ∧ next.gShutdownFlag = true := by
        cases actor with
        | camera => exact cameraStep_remaining hflag hnext
        | main => exact mainStep_remaining hflag hnext
        | shutdownHandler => exact absurd rfl (hthreads .shutdownHandler List.mem_cons_self)
      have hall := ih hflag' (fun a ha => hthreads a (List.mem_cons_of_mem _ ha)) hrest
      rw [List.length_cons]
      omega

theorem remaining_le (s : State) : s.remaining ≤ 20 := by
  have hcamera : s.cameraThread.remaining ≤ 9 := by
    cases s.cameraThread <;> simp [CameraThread.remaining]
  have hmain : s.mainLoop.remaining ≤ 11 := by
    cases s.mainLoop <;> simp [MainLoop.remaining]
  exact Nat.add_le_add hcamera hmain

/-- After the flag has been set the two threads take at most 20 more steps, in any order. When
neither can go on, both have finished, or one has finished and the other waits for its signal. -/
theorem shutdown_outcomes {s s' : State} (h : cameraSystem.Reachable s)
    (hflag : s.gShutdownFlag = true) {actors : List Actor}
    (hthreads : ∀ actor ∈ actors, actor ≠ .shutdownHandler)
    (hrun : cameraSystem.run (fun _ _ => True) s actors = some s') :
    actors.length ≤ 20 ∧ (s'.cameraStep = none → s'.mainStep = none → s'.Ended) := by
  obtain ⟨hremaining, hreachable⟩ := shutdown_run h hflag hthreads hrun
  have hle := remaining_le s
  refine ⟨by omega, ?_⟩
  exact ended_of_stuck (tokens_of_reachable hreachable)

/-- The main loop has used the first signal and waits for a frame when the flag is set; the camera
thread ends without capturing one, and the main loop waits forever. -/
theorem shutdown_outcomes_main_waits :
    ∃ s s' : State, cameraSystem.Reachable s ∧ s.gShutdownFlag = true ∧
      cameraSystem.run (fun _ _ => True) s [.camera] = some s' ∧
      s'.cameraThread = .finished ∧ s'.MainBlocked ∧
      ([Actor.camera].length ≤ 20 ∧ (s'.cameraStep = none → s'.mainStep = none → s'.Ended)) := by
  have hrun : (cameraSystem.run (fun _ _ => True) start
      (List.replicate 12 .main ++ [.shutdownHandler])).map
        (fun s => (s.gShutdownFlag, (cameraSystem.run (fun _ _ => True) s [.camera]).map
          fun s' => (s'.cameraThread, s'.mainLoop, s'.frameAvailableSignal.wait))) =
      some (true, some (.finished, .waiting, none)) := by decide
  obtain ⟨s, hs, hpc⟩ := Option.map_eq_some_iff.mp hrun
  simp only [Prod.mk.injEq] at hpc
  obtain ⟨hflag, hlast⟩ := hpc
  obtain ⟨s', hs', hend⟩ := Option.map_eq_some_iff.mp hlast
  simp only [Prod.mk.injEq] at hend
  have hstart : cameraSystem.Reachable start := .initial rfl
  exact ⟨s, s', hstart.run hs, hflag, hs', hend.1, hend.2,
    shutdown_outcomes (hstart.run hs) hflag (by decide) hs'⟩

end State

end RaspiOrbSlam.Camera
