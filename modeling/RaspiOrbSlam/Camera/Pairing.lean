import RaspiOrbSlam.Camera.Exclusion

/-!
# Images and their times

The camera thread reads the current index once for the image and once more for
the time. If no swap falls between the two reads, then every image is handed over
with the time of its own frame. A swap between them sends the time to the other
buffer.
-/

namespace RaspiOrbSlam.Camera

open Foundation

/-- Image and time come from the same frame, or neither was ever written. -/
def WrittenTogether : Image → Nat → Prop
  | .blank, t => t = 0
  | .frame n, t => n = t
  | .torn, _ => False

instance (im : Image) (t : Nat) : Decidable (WrittenTogether im t) := by
  cases im <;> unfold WrittenTogether <;> infer_instance

/-- The thread has read the index for the image and not yet for the time. -/
def CameraThread.BetweenReads : CameraThread → Prop
  | .aimed _ | .copying _ | .copied => True
  | _ => False

instance (pc : CameraThread) : Decidable pc.BetweenReads := by
  cases pc <;> unfold CameraThread.BetweenReads <;> infer_instance

namespace State

/-- The main loop writes the current index only while the camera thread is not
between its two reads. -/
def SwapsOutside (s : State) (actor : Actor) : Prop :=
  s.indexWrite actor ≠ none → ¬s.cameraThread.BetweenReads

instance (s : State) (actor : Actor) : Decidable (s.SwapsOutside actor) := by
  unfold SwapsOutside
  infer_instance

/-- The buffer that holds, or is about to hold, an image without its time. -/
def pending (s : State) : Option (Fin 2) :=
  match s.cameraThread with
  | .copying i | .aimedTime i => some i
  | .copied => some s.nextBuffer
  | _ => none

/-- What the camera thread has done so far for the frame at hand: it aims at the
next buffer, and once the copy has ended the frame is in place. -/
def Aligned (s : State) : Prop :=
  match s.cameraThread with
  | .aimed i | .copying i => i = s.nextBuffer
  | .copied => s.cameraBuffers s.nextBuffer = .frame s.captures
  | .aimedTime i => s.cameraBuffers i = .frame s.captures
  | _ => True

/-- Every buffer but the pending one holds an image with its time. -/
def Paired (s : State) : Prop :=
  ∀ i, s.pending ≠ some i → WrittenTogether (s.cameraBuffers i) (s.cameraBufferTimes i)

/-- Every image was handed over with its time. -/
def HandedPaired (s : State) : Prop := ∀ r ∈ s.handed, WrittenTogether r.1 r.2

/-- What holds of images and times when all swaps are outside the two reads. -/
structure Synchronised (s : State) : Prop where
  aligned : s.Aligned
  paired : s.Paired
  handed : s.HandedPaired

theorem Aligned.step {s s' : State} {actor : Actor} (h : s.Aligned) (ha : s.SwapsOutside actor)
    (hstep : Step s actor s') : s'.Aligned := by
  cases hstep with
  | cameraLoop pc hpc hnext => rcases hnext with rfl | rfl <;> trivial
  | cameraWait hpc _ | capture hpc | stamp _ hpc | notifyAvailable hpc => trivial
  | chooseImage hpc => exact rfl
  | startCopy i hpc =>
      rw [Aligned, hpc] at h
      exact h
  | endCopy i hpc =>
      rw [Aligned, hpc] at h
      subst h
      exact Function.update_self ..
  | chooseTime hpc =>
      rw [Aligned, hpc] at h
      exact h
  | swap frame im next hpc =>
      have hswap := ha (by simp [indexWrite_of_aimedSwap hpc])
      unfold Aligned at h ⊢
      cases hcamera : s.cameraThread with
      | aimed i | copying i | copied =>
          rw [hcamera] at hswap
          exact absurd trivial hswap
      | aimedTime i =>
          rw [hcamera] at h
          exact h
      | _ => trivial
  | _ => exact h

/-- A step that changes neither the buffers nor the times keeps all pairs. -/
theorem Paired.of_eq {s s' : State} (h : s.Paired) (himages : s'.cameraBuffers = s.cameraBuffers)
    (htimes : s'.cameraBufferTimes = s.cameraBufferTimes)
    (hpending : ∀ i, s'.pending ≠ some i → s.pending ≠ some i) : s'.Paired := by
  intro i hi
  rw [himages, htimes]
  exact h i (hpending i hi)

theorem Paired.step {s s' : State} {actor : Actor} (h : s.Paired) (haligned : s.Aligned)
    (ha : s.SwapsOutside actor) (hstep : Step s actor s') : s'.Paired := by
  cases hstep with
  | cameraLoop pc hpc _ | cameraWait hpc _ | capture hpc | chooseImage hpc
    | notifyAvailable hpc =>
      refine h.of_eq rfl rfl fun i _ => ?_
      simp only [pending, hpc, ne_eq, reduceCtorEq, not_false_eq_true]
  | startCopy j hpc =>
      intro i hi
      have hne : i ≠ j := fun heq => hi (by rw [heq]; rfl)
      change WrittenTogether (Function.update s.cameraBuffers j .torn i) _
      rw [Function.update_of_ne hne]
      exact h i (by simp only [pending, hpc, ne_eq, reduceCtorEq, not_false_eq_true])
  | endCopy j hpc =>
      intro i hi
      rw [Aligned, hpc] at haligned
      have hne : i ≠ j := fun heq => hi (by rw [heq, haligned]; rfl)
      change WrittenTogether (Function.update s.cameraBuffers j _ i) _
      rw [Function.update_of_ne hne]
      exact h i (by rw [pending, hpc]; exact fun heq => hne (Option.some.inj heq).symm)
  | chooseTime hpc =>
      refine h.of_eq rfl rfl fun i hi => ?_
      rw [pending, hpc]
      exact hi
  | stamp j hpc =>
      intro i _
      rw [Aligned, hpc] at haligned
      change WrittenTogether _ (Function.update s.cameraBufferTimes j s.captures i)
      by_cases heq : i = j
      · rw [heq, Function.update_self]
        change WrittenTogether (s.cameraBuffers j) _
        rw [haligned]
        exact rfl
      · rw [Function.update_of_ne heq]
        exact h i (by rw [pending, hpc]; exact fun hj => heq (Option.some.inj hj).symm)
  | swap frame im next hpc =>
      have hswap := ha (by simp [indexWrite_of_aimedSwap hpc])
      refine h.of_eq rfl rfl fun i hi => ?_
      unfold pending at hi ⊢
      cases hcamera : s.cameraThread with
      | copied =>
          rw [hcamera] at hswap
          exact absurd trivial hswap
      | _ => simpa only [hcamera] using hi
  | _ => exact h.of_eq rfl rfl fun _ hi => hi

/-- The buffer that the main loop uses is not pending. -/
theorem pending_ne {s : State} (h : cameraSystem.Reachable s) {i : Fin 2}
    (hi : s.mainLoop.buffer = some i) : s.pending ≠ some i := by
  intro hpending
  have hcurrent := (upToDate_of_reachable h).buffer_eq hi
  have hreading := MainLoop.reading_of_buffer hi
  unfold pending at hpending
  cases hpc : s.cameraThread with
  | copying j | aimedTime j =>
      rw [hpc] at hpending
      exact target_ne h (by rw [hpc]; exact hpending) hreading hcurrent
  | copied =>
      rw [hpc] at hpending
      exact nextIndex_ne s.currentCameraBuffer ((Option.some.inj hpending).trans hcurrent)
  | _ =>
      rw [hpc] at hpending
      cases hpending

theorem HandedPaired.step {s s' : State} {actor : Actor} (h : s.HandedPaired)
    (hr : cameraSystem.Reachable s) (hpaired : s.Paired) (hstep : Step s actor s') :
    s'.HandedPaired := by
  cases hstep with
  | hand i j hpc =>
      intro r hmem
      rcases List.mem_cons.mp hmem with rfl | hmem
      · have huptodate := upToDate_of_reachable hr
        rw [UpToDate, hpc] at huptodate
        have hij : j = i := huptodate.2.trans huptodate.1.symm
        rw [hij]
        exact hpaired i (pending_ne hr (by rw [hpc]; rfl))
      · exact h r hmem
  | _ => exact h

theorem synchronised_of_reachableBy {s : State} (h : cameraSystem.ReachableBy SwapsOutside s) :
    s.Synchronised := by
  refine h.invariant ?_ fun hr hs ha hstep => ?_
  · rintro s rfl
    exact ⟨trivial, fun _ _ => rfl, fun r hmem => nomatch hmem⟩
  · have hstep := step_cases hstep
    exact ⟨hs.aligned.step ha hstep, hs.paired.step hs.aligned ha hstep,
      hs.handed.step hr.reachable hs.paired hstep⟩

/-- In every run that swaps only outside the two reads of the index, every image
is handed over, and passed to `TrackMonocular`, with the time of its own frame. -/
theorem images_keep_their_times {s : State} (h : cameraSystem.ReachableBy SwapsOutside s) :
    (∀ r ∈ s.handed, WrittenTogether r.1 r.2) ∧
      ∀ frame im, s.mainLoop = .tracking frame im → WrittenTogether im frame.timestamp := by
  have hhanded := (synchronised_of_reachableBy h).handed
  refine ⟨hhanded, fun frame im hpc => ?_⟩
  have hheld := held_of_reachable h.reachable
  rw [Held, hpc] at hheld
  exact hhanded _ (List.mem_of_head? hheld)

/-- The blank start and the first frame, each with its time. -/
theorem images_keep_their_times_first_frame :
    ∃ s : State, cameraSystem.ReachableBy SwapsOutside s ∧
      s.handed = [(.frame 1, 1), (.blank, 0)] ∧ ∀ r ∈ s.handed, WrittenTogether r.1 r.2 := by
  have hrun : (cameraSystem.run SwapsOutside start
      (List.replicate 2 .main ++ List.replicate 9 .camera ++ List.replicate 14 .main)).map
        (·.handed) = some [(.frame 1, 1), (.blank, 0)] := by decide +kernel
  obtain ⟨s, hs, hhanded⟩ := Option.map_eq_some_iff.mp hrun
  have hstart : cameraSystem.ReachableBy SwapsOutside start := .initial rfl
  have hreach := hstart.run hs
  exact ⟨s, hreach, hhanded, (images_keep_their_times hreach).1⟩

/-- A swap between the two reads: the first frame is in buffer 1, its time goes to
buffer 0, and the frame is tracked with the initial time. -/
theorem first_frame_without_its_time :
    ∃ s : State, cameraSystem.Reachable s ∧ s.mainLoop = .tracking ⟨1, 0⟩ (.frame 1) ∧
      (.frame 1, 0) ∈ s.handed ∧ ¬WrittenTogether (.frame 1) 0 := by
  have hrun : (cameraSystem.run (fun _ _ => True) start
      (List.replicate 6 .camera ++ List.replicate 9 .main ++ List.replicate 3 .camera ++
        List.replicate 12 .main)).map (fun s => (s.mainLoop, s.handed)) =
          some (.tracking ⟨1, 0⟩ (.frame 1), [(.frame 1, 0), (.blank, 0)]) := by decide +kernel
  obtain ⟨s, hs, hpc⟩ := Option.map_eq_some_iff.mp hrun
  obtain ⟨hmain, hhanded⟩ := Prod.mk.inj hpc
  have hstart : cameraSystem.Reachable start := .initial rfl
  exact ⟨s, hstart.run hs, hmain, by rw [hhanded]; simp, by decide⟩

end State

end RaspiOrbSlam.Camera
