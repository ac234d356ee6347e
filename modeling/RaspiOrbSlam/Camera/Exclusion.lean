import RaspiOrbSlam.Camera.Tokens

/-!
# No torn frame

A copy into the current buffer can only have been aimed before the last swap. The
two tokens were then both held, so no frame is available until the camera thread
notifies, and the main loop cannot come back to the buffer before. Hence the image
that it copies out is the one that `getCameraBuffer` returned, in one piece.
-/

namespace RaspiOrbSlam.Camera

open Foundation

namespace State

/-- Every index that the main loop has read is still the current one. -/
def UpToDate (s : State) : Prop := s.mainLoop.UpToDate s.currentCameraBuffer

/-- While the camera thread aims at the current buffer, no frame is available and
the main loop uses no buffer. -/
def Apart (s : State) : Prop :=
  s.cameraThread.target = some s.currentCameraBuffer →
    s.frameAvailableSignal.mCount = 0 ∧ ¬s.mainLoop.Reading

/-- Only the copy in progress tears a buffer. -/
def Whole (s : State) : Prop :=
  ∀ i, s.cameraBuffers i = .torn → s.cameraThread = .copying i

/-- The main loop's image and time are the last that `getCameraBuffer` returned. -/
def Held (s : State) : Prop :=
  match s.mainLoop with
  | .returned frame =>
      s.handed.head? = some (s.cameraBuffers frame.imData, frame.timestamp)
  | .copying frame first =>
      s.cameraBuffers frame.imData = first ∧ s.handed.head? = some (first, frame.timestamp)
  | .copied frame im | .aimedSwap frame im _ | .swapped frame im | .tracking frame im =>
      s.handed.head? = some (im, frame.timestamp)
  | _ => True

/-- No image was torn when `getCameraBuffer` returned it. -/
def HandedWhole (s : State) : Prop := ∀ r ∈ s.handed, r.1 ≠ .torn

theorem UpToDate.step {s s' : State} {actor : Actor} (hs : s.UpToDate)
    (hstep : Step s actor s') : s'.UpToDate := by
  unfold UpToDate at hs
  cases hstep with
  | mainLoop pc hpc hnext => rcases hnext with rfl | rfl <;> trivial
  | mainWait hpc _ | swap _ _ _ hpc | notifyNext _ _ hpc | track _ _ hpc => trivial
  | readImage hpc => exact rfl
  | readIndex i hpc =>
      rw [hpc] at hs
      exact ⟨hs, rfl⟩
  | hand i j hpc =>
      rw [hpc] at hs
      exact hs.1
  | startRead frame hpc | endRead frame first hpc =>
      rw [hpc] at hs
      exact hs
  | chooseSwap frame im hpc =>
      rw [hpc] at hs
      exact ⟨hs, rfl⟩
  | _ => exact hs

theorem upToDate_of_reachable {s : State} (h : cameraSystem.Reachable s) : s.UpToDate := by
  refine h.invariant ?_ fun _ hs _ hstep => hs.step (step_cases hstep)
  rintro s rfl
  trivial

/-- With both tokens held no frame is available. -/
theorem Tokens.none_available {s : State} (h : s.Tokens) (hcamera : s.cameraThread.token = 1)
    (hmain : s.mainLoop.token = 1) : s.frameAvailableSignal.mCount = 0 := by
  have hle := h.le_two
  omega

theorem Apart.step {s s' : State} {actor : Actor} (h : s.Apart) (htokens : s.Tokens)
    (hstep : Step s actor s') : s'.Apart := by
  intro htarget
  cases hstep with
  | shutdown => exact h htarget
  | cameraLoop pc hpc hnext => rcases hnext with rfl | rfl <;> cases htarget
  | cameraWait hpc _ | capture hpc | endCopy i hpc | stamp i hpc | notifyAvailable hpc =>
      cases htarget
  | chooseImage hpc | chooseTime hpc => exact absurd (Option.some.inj htarget) (nextIndex_ne _)
  | startCopy i hpc => exact h (by rw [hpc]; exact htarget)
  | mainLoop pc hpc hnext =>
      refine ⟨(h htarget).1, ?_⟩
      rcases hnext with rfl | rfl <;> exact id
  | mainWait hpc hcount => exact absurd (h htarget).1 hcount
  | readImage hpc | readIndex i hpc | hand i j hpc | startRead frame hpc | endRead frame first hpc
    | chooseSwap frame im hpc =>
      exact absurd (by rw [hpc]; trivial) (h htarget).2
  | swap frame im next hpc =>
      exact ⟨htokens.none_available (CameraThread.token_of_target htarget) (by rw [hpc]; rfl), id⟩
  | notifyNext frame im hpc | track frame im hpc => exact ⟨(h htarget).1, id⟩

theorem apart_of_reachable {s : State} (h : cameraSystem.Reachable s) : s.Apart := by
  refine h.invariant ?_ fun hr hs _ hstep => hs.step (tokens_of_reachable hr) (step_cases hstep)
  rintro s rfl htarget
  cases htarget

/-- The camera thread does not aim at a buffer that the main loop uses. -/
theorem target_ne {s : State} (h : cameraSystem.Reachable s) {i : Fin 2}
    (hi : s.cameraThread.target = some i) (hreading : s.mainLoop.Reading) :
    i ≠ s.currentCameraBuffer := by
  rintro rfl
  exact (apart_of_reachable h hi).2 hreading

/-- A copy does not touch the buffer that the main loop uses. -/
theorem update_buffer {s : State} (h : cameraSystem.Reachable s) {i j : Fin 2}
    (hi : s.cameraThread.target = some i) (hj : s.mainLoop.buffer = some j) (im : Image) :
    Function.update s.cameraBuffers i im j = s.cameraBuffers j := by
  have hcurrent := (upToDate_of_reachable h).buffer_eq hj
  have hne := target_ne h hi (MainLoop.reading_of_buffer hj)
  exact Function.update_of_ne (hcurrent ▸ hne.symm) ..

theorem Whole.step {s s' : State} {actor : Actor} (h : s.Whole)
    (hstep : Step s actor s') : s'.Whole := by
  intro i himage
  cases hstep with
  | cameraLoop _ hpc _ | cameraWait hpc _ | capture hpc | chooseImage hpc | chooseTime hpc
    | stamp _ hpc | notifyAvailable hpc =>
      have hold := h i himage
      rw [hpc] at hold
      cases hold
  | startCopy j hpc =>
      by_cases heq : i = j
      · rw [heq]
      · have hold := h i ((Function.update_of_ne heq ..).symm.trans himage)
        rw [hpc] at hold
        cases hold
  | endCopy j hpc =>
      by_cases heq : i = j
      · rw [heq] at himage
        cases (Function.update_self ..).symm.trans himage
      · have hold := h i ((Function.update_of_ne heq ..).symm.trans himage)
        rw [hpc] at hold
        exact absurd (CameraThread.copying.inj hold).symm heq
  | _ => exact h i himage

theorem whole_of_reachable {s : State} (h : cameraSystem.Reachable s) : s.Whole := by
  refine h.invariant ?_ fun _ hs _ hstep => hs.step (step_cases hstep)
  rintro s rfl i himage
  cases himage

/-- Only the buffer in use matters for what the main loop holds. -/
theorem Held.of_update {s : State} (h : s.Held) (hr : cameraSystem.Reachable s) {i : Fin 2}
    (hi : s.cameraThread.target = some i) (im : Image) (pc : CameraThread) :
    Held { s with cameraThread := pc, cameraBuffers := Function.update s.cameraBuffers i im } := by
  have hupdate : ∀ j, s.mainLoop.buffer = some j → _ := fun j hj => update_buffer hr hi hj im
  unfold Held at h ⊢
  cases hpc : s.mainLoop with
  | returned frame | copying frame first =>
      rw [hpc] at h
      simpa only [hpc, hupdate frame.imData (by rw [hpc]; rfl)] using h
  | copied frame im' | aimedSwap frame im' next | swapped frame im' | tracking frame im' =>
      rw [hpc] at h
      simpa only [hpc] using h
  | _ => trivial

theorem Held.step {s s' : State} {actor : Actor} (h : s.Held) (hr : cameraSystem.Reachable s)
    (hstep : Step s actor s') : s'.Held := by
  cases hstep with
  | startCopy i hpc => exact h.of_update hr (by rw [hpc]; rfl) _ _
  | endCopy i hpc => exact h.of_update hr (by rw [hpc]; rfl) _ _
  | mainLoop pc hpc hnext => rcases hnext with rfl | rfl <;> trivial
  | mainWait hpc _ | readImage hpc | readIndex _ hpc | track _ _ hpc => trivial
  | hand i j hpc => exact rfl
  | startRead frame hpc =>
      rw [Held, hpc] at h
      exact ⟨rfl, h⟩
  | endRead frame first hpc =>
      rw [Held, hpc] at h
      change s.handed.head? =
        some (if s.cameraBuffers frame.imData = first then first else .torn, _)
      rw [if_pos h.1]
      exact h.2
  | chooseSwap frame im hpc | swap frame im next hpc | notifyNext frame im hpc =>
      rw [Held, hpc] at h
      exact h
  | _ => exact h

theorem held_of_reachable {s : State} (h : cameraSystem.Reachable s) : s.Held := by
  refine h.invariant ?_ fun hr hs _ hstep => hs.step hr (step_cases hstep)
  rintro s rfl
  trivial

theorem HandedWhole.step {s s' : State} {actor : Actor} (h : s.HandedWhole)
    (hr : cameraSystem.Reachable s) (hstep : Step s actor s') : s'.HandedWhole := by
  cases hstep with
  | hand i j hpc =>
      intro r hmem
      rcases List.mem_cons.mp hmem with rfl | hmem
      · intro himage
        have htarget : s.cameraThread.target = some i := by
          rw [whole_of_reachable hr i himage]
          rfl
        have hbuffer : s.mainLoop.buffer = some i := by
          rw [hpc]
          rfl
        exact target_ne hr htarget (MainLoop.reading_of_buffer hbuffer)
          ((upToDate_of_reachable hr).buffer_eq hbuffer)
      · exact h r hmem
  | _ => exact h

theorem handedWhole_of_reachable {s : State} (h : cameraSystem.Reachable s) : s.HandedWhole := by
  refine h.invariant ?_ fun hr hs _ hstep => hs.step hr (step_cases hstep)
  rintro s rfl r hmem
  cases hmem

/-- An image that was copied out is the one that `getCameraBuffer` returned last. -/
theorem image_handed {s : State} (h : cameraSystem.Reachable s) {im : Image}
    (him : s.mainLoop.image = some im) : ∃ r ∈ s.handed, r.1 = im := by
  have hheld := held_of_reachable h
  unfold Held at hheld
  cases hpc : s.mainLoop with
  | copied frame im' | aimedSwap frame im' next | swapped frame im' | tracking frame im' =>
      rw [hpc] at him hheld
      exact ⟨_, List.mem_of_head? hheld, Option.some.inj him⟩
  | _ =>
      rw [hpc] at him
      cases him

/-- The camera thread never copies into the buffer that the main loop uses, and
no image that the main loop copies out is torn. -/
theorem no_torn_frame {s : State} (h : cameraSystem.Reachable s) :
    (∀ i, s.cameraThread = .copying i → s.mainLoop.buffer ≠ some i) ∧
      ∀ im, s.mainLoop.image = some im → im ≠ .torn := by
  constructor
  · intro i hpc hbuffer
    exact target_ne h (by rw [hpc]; rfl) (MainLoop.reading_of_buffer hbuffer)
      ((upToDate_of_reachable h).buffer_eq hbuffer)
  · intro im him
    obtain ⟨r, hmem, rfl⟩ := image_handed h him
    exact handedWhole_of_reachable h r hmem

/-- Both threads copy at the same time, one into each buffer. -/
theorem no_torn_frame_both_copying :
    ∃ s : State, cameraSystem.Reachable s ∧ s.cameraThread = .copying 1 ∧
      s.mainLoop = .copying ⟨0, 0⟩ .blank ∧ s.mainLoop.buffer ≠ some 1 := by
  have hrun : (cameraSystem.run (fun _ _ => True) start
      (List.replicate 6 .main ++ List.replicate 5 .camera)).map
        (fun s => (s.cameraThread, s.mainLoop)) =
          some (.copying 1, .copying ⟨0, 0⟩ .blank) := by decide
  obtain ⟨s, hs, hpc⟩ := Option.map_eq_some_iff.mp hrun
  obtain ⟨hcamera, hmain⟩ := Prod.mk.inj hpc
  have hstart : cameraSystem.Reachable start := .initial rfl
  have hreach := hstart.run hs
  exact ⟨s, hreach, hcamera, hmain, (no_torn_frame hreach).1 1 hcamera⟩

end State

end RaspiOrbSlam.Camera
