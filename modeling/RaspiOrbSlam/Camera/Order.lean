import RaspiOrbSlam.Camera.Exclusion

/-!
# The order of the frames

Between two swaps the camera thread should choose the next buffer once. If the
main loop swaps to a buffer that was not chosen since the last swap, it comes back
to an image that it has already handed over. As long as it does so only with
buffers that were never written, the frames are handed over in increasing order.
-/

namespace RaspiOrbSlam.Camera

open Foundation

/-- The capture number of a frame. -/
def Image.number : Image → Option Nat
  | .frame n => some n
  | _ => none

/-- The loop has got the current buffer and has not yet swapped. -/
def MainLoop.Got : MainLoop → Prop
  | .returned _ | .copying _ _ | .copied _ _ | .aimedSwap _ _ _ => True
  | _ => False

/-- The buffer of the copy that is about to start or in progress. -/
def CameraThread.copyTarget : CameraThread → Option (Fin 2)
  | .aimed i | .copying i => some i
  | _ => none

theorem CameraThread.target_of_copyTarget {pc : CameraThread} {i : Fin 2}
    (h : pc.copyTarget = some i) : pc.target = some i := by
  cases pc with
  | aimed _ | copying _ => exact h
  | _ => cases h

namespace State

/-- The main loop swaps to a buffer that was chosen since the last swap, or to one
that was never written. -/
def SwapsToChosen (s : State) (actor : Actor) : Prop :=
  ∀ next ∈ s.indexWrite actor, s.chosen = true ∨ s.cameraBuffers next = .blank

instance (s : State) (actor : Actor) : Decidable (s.SwapsToChosen actor) := by
  unfold SwapsToChosen
  infer_instance

/-- The capture numbers that were handed over, the last one first. -/
def numbers (s : State) : List Nat := s.handed.filterMap fun r => r.1.number

/-- The image of a buffer once the copy at hand has ended. -/
def expected (s : State) (i : Fin 2) : Image :=
  if s.cameraThread.copyTarget = some i then .frame s.captures else s.cameraBuffers i

/-- No number is ahead of the captures, and a frame that has not been placed yet
is newer than all others. -/
structure Numbered (s : State) : Prop where
  handed_le : ∀ n ∈ s.numbers, n ≤ s.captures
  expected_le : ∀ i n, (s.expected i).number = some n → n ≤ s.captures
  handed_lt : s.cameraThread = .captured → ∀ n ∈ s.numbers, n < s.captures
  expected_lt : s.cameraThread = .captured →
    ∀ i n, (s.expected i).number = some n → n < s.captures

/-- A copy aims at the next buffer, and after the swap at the current one. -/
def Placed (s : State) : Prop :=
  ∀ i, s.cameraThread.copyTarget = some i →
    i = if s.chosen then s.nextBuffer else s.currentCameraBuffer

/-- The current frame, until it is got, and the chosen one are newer than all that
were handed over, and the chosen one is the newest. -/
structure Ordered (s : State) : Prop where
  sorted : s.numbers.Pairwise (· > ·)
  current : ¬s.mainLoop.Got →
    ∀ n, (s.expected s.currentCameraBuffer).number = some n → ∀ m ∈ s.numbers, m < n
  next : s.chosen = true → ∃ n, (s.expected s.nextBuffer).number = some n ∧
    (∀ m ∈ s.numbers, m < n) ∧
      (¬s.mainLoop.Got →
        ∀ m, (s.expected s.currentCameraBuffer).number = some m → m < n)

theorem expected_eq_buffer {s : State} {i : Fin 2} (h : s.cameraThread.copyTarget ≠ some i) :
    s.expected i = s.cameraBuffers i := if_neg h

/-- No copy is expected in the buffer that the main loop uses. -/
theorem expected_of_buffer {s : State} (h : cameraSystem.Reachable s) {i : Fin 2}
    (hi : s.mainLoop.buffer = some i) : s.expected i = s.cameraBuffers i :=
  expected_eq_buffer fun htarget =>
    target_ne h (CameraThread.target_of_copyTarget htarget) (MainLoop.reading_of_buffer hi)
      ((upToDate_of_reachable h).buffer_eq hi)

/-- What a buffer will hold changes only when a new copy is aimed. -/
theorem Step.expected_eq {s s' : State} {actor : Actor} (hstep : Step s actor s')
    (hpc : s.cameraThread ≠ .captured) (i : Fin 2) : s'.expected i = s.expected i := by
  cases hstep with
  | chooseImage h => exact absurd h hpc
  | cameraLoop pc h hnext =>
      rcases hnext with rfl | rfl <;> simp [expected, h, CameraThread.copyTarget]
  | cameraWait h _ | capture h | chooseTime h | stamp j h | notifyAvailable h =>
      simp [expected, h, CameraThread.copyTarget]
  | startCopy j h =>
      by_cases heq : j = i
      · simp [expected, h, CameraThread.copyTarget, heq]
      · simp [expected, h, CameraThread.copyTarget, heq, Function.update_of_ne (Ne.symm heq)]
  | endCopy j h =>
      by_cases heq : j = i
      · simp [expected, h, CameraThread.copyTarget, heq]
      · simp [expected, h, CameraThread.copyTarget, heq, Function.update_of_ne (Ne.symm heq)]
  | _ => rfl

/-- The chosen buffer expects the frame at hand. -/
theorem expected_chooseImage (s : State) (hpc : s.cameraThread = .captured) (i : Fin 2) :
    expected { s with cameraThread := .aimed s.nextBuffer, chosen := true } i =
      if i = s.nextBuffer then .frame s.captures else s.expected i := by
  simp [expected, hpc, CameraThread.copyTarget, eq_comm]

/-- The numbers after `getCameraBuffer` has returned once more. -/
theorem mem_numbers_hand {s : State} (i j : Fin 2) {m : Nat} {pc : MainLoop} :
    m ∈ numbers { s with
        mainLoop := pc
        handed := (s.cameraBuffers i, s.cameraBufferTimes j) :: s.handed } ↔
      (s.cameraBuffers i).number = some m ∨ m ∈ s.numbers := by
  simp [numbers]

theorem Numbered.of_eq {s s' : State} (h : s.Numbered) (hn : s'.numbers = s.numbers)
    (hc : s'.captures = s.captures) (he : ∀ i, s'.expected i = s.expected i)
    (hpc : s'.cameraThread = .captured → s.cameraThread = .captured) : s'.Numbered := by
  constructor
  · rw [hn, hc]
    exact h.handed_le
  · intro i n hi
    rw [hc]
    exact h.expected_le i n (he i ▸ hi)
  · intro hcaptured
    rw [hn, hc]
    exact h.handed_lt (hpc hcaptured)
  · intro hcaptured i n hi
    rw [hc]
    exact h.expected_lt (hpc hcaptured) i n (he i ▸ hi)

theorem Numbered.step {s s' : State} {actor : Actor} (h : s.Numbered)
    (hr : cameraSystem.Reachable s) (hstep : Step s actor s') : s'.Numbered := by
  have hexpected := hstep.expected_eq
  cases hstep with
  | capture hpc =>
      have he := hexpected (by simp [hpc])
      have hhanded : ∀ n ∈ s.numbers, n < s.captures + 1 :=
        fun n hn => Nat.lt_succ_of_le (h.handed_le n hn)
      have hnew : ∀ i n, (s.expected i).number = some n → n < s.captures + 1 :=
        fun i n hi => Nat.lt_succ_of_le (h.expected_le i n hi)
      exact ⟨fun n hn => Nat.le_of_lt (hhanded n hn),
        fun i n hi => Nat.le_of_lt (hnew i n (he i ▸ hi)), fun _ => hhanded,
        fun _ i n hi => hnew i n (he i ▸ hi)⟩
  | chooseImage hpc =>
      refine ⟨h.handed_le, fun i n hi => ?_, fun hcaptured => (nomatch hcaptured),
        fun hcaptured => (nomatch hcaptured)⟩
      rw [expected_chooseImage s hpc i] at hi
      split at hi
      · exact Nat.le_of_eq (Option.some.inj hi).symm
      · exact h.expected_le i n hi
  | hand i j hpc =>
      have he := expected_of_buffer hr (i := i) (by rw [hpc]; rfl)
      refine ⟨fun n hn => ?_, h.expected_le, fun hcaptured n hn => ?_, h.expected_lt⟩
      · rcases (mem_numbers_hand i j).mp hn with hnew | hold
        · exact h.expected_le i n (he ▸ hnew)
        · exact h.handed_le n hold
      · rcases (mem_numbers_hand i j).mp hn with hnew | hold
        · exact h.expected_lt hcaptured i n (he ▸ hnew)
        · exact h.handed_lt hcaptured n hold
  | cameraLoop pc hpc hnext =>
      refine h.of_eq rfl rfl (hexpected (by simp [hpc])) ?_
      rcases hnext with rfl | rfl <;> exact fun hcaptured => (nomatch hcaptured)
  | cameraWait hpc _ | startCopy _ hpc | endCopy _ hpc | chooseTime hpc | stamp _ hpc
    | notifyAvailable hpc =>
      exact h.of_eq rfl rfl (hexpected (by simp [hpc])) fun hcaptured => (nomatch hcaptured)
  | _ => exact h.of_eq rfl rfl (fun _ => rfl) id

theorem numbered_of_reachable {s : State} (h : cameraSystem.Reachable s) : s.Numbered := by
  refine h.invariant ?_ fun hr hs _ hstep => hs.step hr (step_cases hstep)
  rintro s rfl
  exact ⟨fun n hn => (nomatch hn), fun i n hi => (nomatch hi), fun hcaptured => (nomatch hcaptured),
    fun hcaptured => (nomatch hcaptured)⟩

theorem Placed.step {s s' : State} {actor : Actor} (h : s.Placed)
    (hr : cameraSystem.Reachable s) (hstep : Step s actor s') : s'.Placed := by
  intro i htarget
  cases hstep with
  | cameraLoop pc _ hnext => rcases hnext with rfl | rfl <;> cases htarget
  | cameraWait | capture | endCopy | chooseTime | stamp | notifyAvailable => cases htarget
  | chooseImage hpc => exact (Option.some.inj htarget).symm
  | startCopy j hpc => exact h i (by rw [hpc]; exact htarget)
  | swap frame im next hpc =>
      have hplace := h i htarget
      have hne := target_ne hr (CameraThread.target_of_copyTarget htarget)
        (MainLoop.reading_of_buffer (i := frame.imData) (by rw [hpc]; rfl))
      have huptodate := upToDate_of_reachable hr
      rw [UpToDate, hpc] at huptodate
      split at hplace
      · exact hplace.trans huptodate.2.symm
      · exact absurd hplace hne
  | _ => exact h i htarget

theorem placed_of_reachable {s : State} (h : cameraSystem.Reachable s) : s.Placed := by
  refine h.invariant ?_ fun hr hs _ hstep => hs.step hr (step_cases hstep)
  rintro s rfl i htarget
  cases htarget

theorem Ordered.of_eq {s s' : State} (h : s.Ordered) (hn : s'.numbers = s.numbers)
    (he : ∀ i, s'.expected i = s.expected i)
    (hcurrent : s'.currentCameraBuffer = s.currentCameraBuffer) (hchosen : s'.chosen = s.chosen)
    (hgot : s.mainLoop.Got → s'.mainLoop.Got) : s'.Ordered := by
  have hnext : s'.nextBuffer = s.nextBuffer := congrArg nextIndex hcurrent
  constructor
  · rw [hn]
    exact h.sorted
  · rw [hn, hcurrent, he]
    exact fun hnot => h.current (mt hgot hnot)
  · rw [hn, hcurrent, hchosen, hnext, he, he]
    intro hc
    obtain ⟨n, hnumber, hhanded, hcur⟩ := h.next hc
    exact ⟨n, hnumber, hhanded, fun hnot => hcur (mt hgot hnot)⟩

/-- Where the main loop swaps to, a newer frame is expected or none. -/
theorem Ordered.swap {s : State} (h : s.Ordered) (hr : cameraSystem.Reachable s)
    {frame : CameraBufferRes} {im : Image} {next : Fin 2}
    (hpc : s.mainLoop = .aimedSwap frame im next) (ha : s.SwapsToChosen .main) {n : Nat}
    (hn : (s.expected next).number = some n) : ∀ m ∈ s.numbers, m < n := by
  have hnext : next = s.nextBuffer := by
    have huptodate := upToDate_of_reachable hr
    rw [UpToDate, hpc] at huptodate
    exact huptodate.2
  have hcases := ha next (indexWrite_of_aimedSwap hpc)
  by_cases hchosen : s.chosen = true
  · obtain ⟨n', hnumber, hhanded, _⟩ := h.next hchosen
    rw [← hnext, hn] at hnumber
    exact Option.some.inj hnumber ▸ hhanded
  · have hblank := hcases.resolve_left hchosen
    have htarget : s.cameraThread.copyTarget ≠ some next := by
      intro htarget
      have hplace := placed_of_reachable hr next htarget
      rw [if_neg hchosen, hnext] at hplace
      exact nextIndex_ne _ hplace
    rw [expected_eq_buffer htarget, hblank] at hn
    cases hn

theorem Ordered.step {s s' : State} {actor : Actor} (h : s.Ordered)
    (hr : cameraSystem.Reachable s) (ha : s.SwapsToChosen actor) (hstep : Step s actor s') :
    s'.Ordered := by
  have hexpected := hstep.expected_eq
  cases hstep with
  | chooseImage hpc =>
      have hnumbered := numbered_of_reachable hr
      have he := expected_chooseImage s hpc
      have hcurrent : expected _ s.currentCameraBuffer = s.expected s.currentCameraBuffer :=
        (he _).trans (if_neg (nextIndex_ne _).symm)
      refine ⟨h.sorted, fun hgot n hn => h.current hgot n (hcurrent ▸ hn), fun _ => ?_⟩
      refine ⟨s.captures, ?_, hnumbered.handed_lt hpc, fun _ m hm => ?_⟩
      · exact congrArg Image.number ((he s.nextBuffer).trans (if_pos rfl))
      · exact hnumbered.expected_lt hpc _ m (hcurrent ▸ hm)
  | hand i j hpc =>
      have hcurrent : i = s.currentCameraBuffer :=
        (upToDate_of_reachable hr).buffer_eq (by rw [hpc]; rfl)
      have he : s.expected s.currentCameraBuffer = s.cameraBuffers i := by
        rw [← hcurrent]
        exact expected_of_buffer hr (by rw [hpc]; rfl)
      have hgot : ¬s.mainLoop.Got := by
        rw [hpc]
        exact id
      have hnewest := h.current hgot
      rw [he] at hnewest
      refine ⟨?_, fun hnot => absurd trivial hnot, fun hchosen => ?_⟩
      · change List.Pairwise (· > ·) (List.filterMap _ (_ :: s.handed))
        rw [List.filterMap_cons]
        split
        · exact h.sorted
        · next n hn => exact List.pairwise_cons.mpr ⟨hnewest n hn, h.sorted⟩
      · obtain ⟨n, hnumber, hhanded, hcur⟩ := h.next hchosen
        refine ⟨n, hnumber, fun m hm => ?_, fun hnot => absurd trivial hnot⟩
        rcases (mem_numbers_hand i j).mp hm with hnew | hold
        · exact hcur hgot m (he ▸ hnew)
        · exact hhanded m hold
  | swap frame im next hpc =>
      exact ⟨h.sorted, fun _ n hn => h.swap hr hpc ha hn, fun hchosen => (nomatch hchosen)⟩
  | cameraLoop _ hpc _ | cameraWait hpc _ | capture hpc | startCopy _ hpc | endCopy _ hpc
    | chooseTime hpc | stamp _ hpc | notifyAvailable hpc =>
      exact h.of_eq rfl (hexpected (by simp [hpc])) rfl rfl id
  | shutdown => exact h.of_eq rfl (fun _ => rfl) rfl rfl id
  | startRead _ hpc | endRead _ _ hpc | chooseSwap _ _ hpc =>
      exact h.of_eq rfl (fun _ => rfl) rfl rfl fun _ => trivial
  | mainLoop _ hpc _ | mainWait hpc _ | readImage hpc | readIndex _ hpc | notifyNext _ _ hpc
    | track _ _ hpc =>
      refine h.of_eq rfl (fun _ => rfl) rfl rfl fun hgot => ?_
      rw [hpc] at hgot
      exact hgot.elim

theorem ordered_of_reachableBy {s : State} (h : cameraSystem.ReachableBy SwapsToChosen s) :
    s.Ordered := by
  refine h.invariant ?_ fun hr hs ha hstep => hs.step hr.reachable ha (step_cases hstep)
  rintro s rfl
  exact ⟨List.Pairwise.nil, fun _ n hn => (nomatch hn), fun hchosen => (nomatch hchosen)⟩

/-- In every run that swaps only to chosen or blank buffers, the frames that
`getCameraBuffer` returns call after call have increasing numbers, and none is torn. -/
theorem frames_in_order {s : State} (h : cameraSystem.ReachableBy SwapsToChosen s) :
    s.numbers.reverse.Pairwise (· < ·) ∧ ∀ r ∈ s.handed, r.1 ≠ .torn :=
  ⟨List.pairwise_reverse.mpr (ordered_of_reachableBy h).sorted,
    handedWhole_of_reachable h.reachable⟩

/-- Two frames, each chosen before its swap. -/
theorem frames_in_order_two_frames :
    ∃ s : State, cameraSystem.ReachableBy SwapsToChosen s ∧ s.numbers.reverse = [1, 2] ∧
      s.numbers.reverse.Pairwise (· < ·) := by
  have hrun : (cameraSystem.run SwapsToChosen start
      (List.replicate 2 .main ++ List.replicate 9 .camera ++ List.replicate 11 .main ++
        List.replicate 9 .camera ++ List.replicate 14 .main)).map (·.numbers.reverse) =
          some [1, 2] := by decide +kernel
  obtain ⟨s, hs, hnumbers⟩ := Option.map_eq_some_iff.mp hrun
  have hstart : cameraSystem.ReachableBy SwapsToChosen start := .initial rfl
  have hreach := hstart.run hs
  exact ⟨s, hreach, hnumbers, (frames_in_order hreach).1⟩

/-- The third frame is chosen only after the swap, so the main loop comes back to
the first frame behind the second. -/
theorem first_frame_twice :
    ∃ s : State, cameraSystem.Reachable s ∧ s.numbers.reverse = [1, 2, 1] ∧
      ¬s.numbers.reverse.Pairwise (· < ·) := by
  have hrun : (cameraSystem.run (fun _ _ => True) start
      (List.replicate 2 .main ++ List.replicate 9 .camera ++ List.replicate 11 .main ++
        List.replicate 9 .camera ++ List.replicate 11 .main ++ List.replicate 3 .camera ++
        List.replicate 10 .main ++ List.replicate 6 .camera ++ List.replicate 4 .main)).map
          (·.numbers.reverse) = some [1, 2, 1] := by decide +kernel
  obtain ⟨s, hs, hnumbers⟩ := Option.map_eq_some_iff.mp hrun
  have hstart : cameraSystem.Reachable start := .initial rfl
  refine ⟨s, hstart.run hs, hnumbers, ?_⟩
  rw [hnumbers]
  decide

end State

end RaspiOrbSlam.Camera
