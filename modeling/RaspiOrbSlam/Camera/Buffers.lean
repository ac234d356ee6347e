import RaspiOrbSlam.Foundation.TransitionSystem
import Mathlib.Data.Fin.Basic
import Mathlib.Logic.Function.Basic

/-!
# The camera buffers

The camera thread copies frames into the buffer behind the current one; the main
loop takes the current buffer and its time, copies the image out and swaps the
buffers. Two semaphores with a maximum of one signal a free buffer and a new
frame. Every semaphore operation, every read and write of the current index and
both ends of every copy are steps of their own. Frames are numbered in the order
of their capture, and a time is recorded as the number of the frame it belongs to.
-/

namespace RaspiOrbSlam.Camera

open Foundation

structure Semaphore where
  mCount : Nat
  mMax : Nat
  deriving DecidableEq

def Semaphore.notify (s : Semaphore) : Semaphore := { s with mCount := min s.mMax (s.mCount + 1) }

/-- `wait` goes on only with a count that is not zero. -/
def Semaphore.wait (s : Semaphore) : Option Semaphore :=
  if s.mCount = 0 then none else some { s with mCount := s.mCount - 1 }

/-- The content of a buffer: never written, in the middle of a copy, or a frame. -/
inductive Image where
  | blank
  | torn
  | frame (n : Nat)
  deriving DecidableEq

/-- `camera_buffer_res`, with the index of the buffer for its address. -/
structure CameraBufferRes where
  imData : Fin 2
  timestamp : Nat
  deriving DecidableEq

/-- Where the camera thread stands. -/
inductive CameraThread where
  | loopHead
  | waiting
  | acquired
  /-- Behind `grab` and `retrieve`. -/
  | captured
  /-- The buffer for the image has been chosen. -/
  | aimed (target : Fin 2)
  | copying (target : Fin 2)
  | copied
  /-- The place for the time has been chosen. -/
  | aimedTime (target : Fin 2)
  | stamped
  | finished
  deriving DecidableEq

/-- Where the main loop stands, with its local variables `frame` and `im`. -/
inductive MainLoop where
  | loopHead
  | waiting
  | acquired
  | gotImage (imData : Fin 2)
  | aimedTime (imData time : Fin 2)
  | returned (frame : CameraBufferRes)
  /-- `im` is being copied; `first` is what the buffer held at the start. -/
  | copying (frame : CameraBufferRes) (first : Image)
  | copied (frame : CameraBufferRes) (im : Image)
  /-- The next index has been computed. -/
  | aimedSwap (frame : CameraBufferRes) (im : Image) (next : Fin 2)
  | swapped (frame : CameraBufferRes) (im : Image)
  /-- In front of `TrackMonocular`. -/
  | tracking (frame : CameraBufferRes) (im : Image)
  | finished
  deriving DecidableEq

structure State where
  cameraThread : CameraThread
  mainLoop : MainLoop
  nextFrameSignal : Semaphore
  frameAvailableSignal : Semaphore
  currentCameraBuffer : Fin 2
  cameraBuffers : Fin 2 → Image
  cameraBufferTimes : Fin 2 → Nat
  gShutdownFlag : Bool
  /-- The number of frames captured so far. -/
  captures : Nat
  /-- History: what `getCameraBuffer` has returned, the last call first. -/
  handed : List (Image × Nat)
  /-- History: a buffer has been chosen for an image since the last swap. -/
  chosen : Bool

/-- Who takes a step: the two loops, and the handler of `POST /SHUTDOWN!`. -/
inductive Actor where
  | camera
  | main
  | shutdownHandler
  deriving DecidableEq

/-- `(i + 1) % CAPTURE_BUFFER_COUNT`. -/
def nextIndex (i : Fin 2) : Fin 2 := i + 1

namespace State

def nextBuffer (s : State) : Fin 2 := nextIndex s.currentCameraBuffer

/-- One step of `cameraThread`. -/
def cameraStep (s : State) : Option State :=
  match s.cameraThread with
  | .loopHead =>
      some { s with cameraThread := if s.gShutdownFlag then .finished else .waiting }
  | .waiting => s.nextFrameSignal.wait.map fun sem =>
      { s with cameraThread := .acquired, nextFrameSignal := sem }
  | .acquired => some { s with cameraThread := .captured, captures := s.captures + 1 }
  | .captured => some { s with cameraThread := .aimed s.nextBuffer, chosen := true }
  | .aimed i =>
      some { s with
        cameraThread := .copying i
        cameraBuffers := Function.update s.cameraBuffers i .torn }
  | .copying i =>
      some { s with
        cameraThread := .copied
        cameraBuffers := Function.update s.cameraBuffers i (.frame s.captures) }
  | .copied => some { s with cameraThread := .aimedTime s.nextBuffer }
  | .aimedTime i =>
      some { s with
        cameraThread := .stamped
        cameraBufferTimes := Function.update s.cameraBufferTimes i s.captures }
  | .stamped =>
      some { s with
        cameraThread := .loopHead
        frameAvailableSignal := s.frameAvailableSignal.notify }
  | .finished => none

/-- One step of the main loop, with `getCameraBuffer` and `swapCameraBuffers`. -/
def mainStep (s : State) : Option State :=
  match s.mainLoop with
  | .loopHead => some { s with mainLoop := if s.gShutdownFlag then .finished else .waiting }
  | .waiting => s.frameAvailableSignal.wait.map fun sem =>
      { s with mainLoop := .acquired, frameAvailableSignal := sem }
  | .acquired => some { s with mainLoop := .gotImage s.currentCameraBuffer }
  | .gotImage i => some { s with mainLoop := .aimedTime i s.currentCameraBuffer }
  | .aimedTime i j =>
      some { s with
        mainLoop := .returned ⟨i, s.cameraBufferTimes j⟩
        handed := (s.cameraBuffers i, s.cameraBufferTimes j) :: s.handed }
  | .returned frame => some { s with mainLoop := .copying frame (s.cameraBuffers frame.imData) }
  | .copying frame first =>
      some { s with
        mainLoop := .copied frame (if s.cameraBuffers frame.imData = first then first else .torn) }
  | .copied frame im => some { s with mainLoop := .aimedSwap frame im s.nextBuffer }
  | .aimedSwap frame im next =>
      some { s with
        mainLoop := .swapped frame im
        currentCameraBuffer := next
        chosen := false }
  | .swapped frame im =>
      some { s with
        mainLoop := .tracking frame im
        nextFrameSignal := s.nextFrameSignal.notify }
  | .tracking _ _ => some { s with mainLoop := .loopHead }
  | .finished => none

def step (s : State) : Actor → Option State
  | .camera => s.cameraStep
  | .main => s.mainStep
  | .shutdownHandler => some { s with gShutdownFlag := true }

/-- The index that the actor's step writes, if it is the index write of a swap. -/
def indexWrite (s : State) (actor : Actor) : Option (Fin 2) :=
  match actor, s.mainLoop with
  | .main, .aimedSwap _ _ next => some next
  | _, _ => none

/-- Both semaphores at one, nothing written, both threads in front of their loops. -/
def start : State where
  cameraThread := .loopHead
  mainLoop := .loopHead
  nextFrameSignal := ⟨1, 1⟩
  frameAvailableSignal := ⟨1, 1⟩
  currentCameraBuffer := 0
  cameraBuffers _ := .blank
  cameraBufferTimes _ := 0
  gShutdownFlag := false
  captures := 0
  handed := []
  chosen := false

end State

/-- Every interleaving of the two threads. -/
def cameraSystem : TransitionSystem State Actor where
  Initial s := s = State.start
  step := State.step

namespace State

theorem indexWrite_of_aimedSwap {s : State} {frame : CameraBufferRes} {im : Image} {next : Fin 2}
    (hpc : s.mainLoop = .aimedSwap frame im next) : s.indexWrite .main = some next := by
  simp only [indexWrite, hpc]

/-- What a step does, one case for each place in the two loops. -/
inductive Step (s : State) : Actor → State → Prop
  | shutdown : Step s .shutdownHandler { s with gShutdownFlag := true }
  | cameraLoop (pc : CameraThread) : s.cameraThread = .loopHead →
      pc = .finished ∨ pc = .waiting → Step s .camera { s with cameraThread := pc }
  | cameraWait : s.cameraThread = .waiting → s.nextFrameSignal.mCount ≠ 0 →
      Step s .camera { s with
        cameraThread := .acquired
        nextFrameSignal := ⟨s.nextFrameSignal.mCount - 1, s.nextFrameSignal.mMax⟩ }
  | capture : s.cameraThread = .acquired →
      Step s .camera { s with cameraThread := .captured, captures := s.captures + 1 }
  | chooseImage : s.cameraThread = .captured →
      Step s .camera { s with cameraThread := .aimed s.nextBuffer, chosen := true }
  | startCopy (i : Fin 2) : s.cameraThread = .aimed i →
      Step s .camera { s with
        cameraThread := .copying i
        cameraBuffers := Function.update s.cameraBuffers i .torn }
  | endCopy (i : Fin 2) : s.cameraThread = .copying i →
      Step s .camera { s with
        cameraThread := .copied
        cameraBuffers := Function.update s.cameraBuffers i (.frame s.captures) }
  | chooseTime : s.cameraThread = .copied →
      Step s .camera { s with cameraThread := .aimedTime s.nextBuffer }
  | stamp (i : Fin 2) : s.cameraThread = .aimedTime i →
      Step s .camera { s with
        cameraThread := .stamped
        cameraBufferTimes := Function.update s.cameraBufferTimes i s.captures }
  | notifyAvailable : s.cameraThread = .stamped →
      Step s .camera { s with
        cameraThread := .loopHead
        frameAvailableSignal := s.frameAvailableSignal.notify }
  | mainLoop (pc : MainLoop) : s.mainLoop = .loopHead →
      pc = .finished ∨ pc = .waiting → Step s .main { s with mainLoop := pc }
  | mainWait : s.mainLoop = .waiting → s.frameAvailableSignal.mCount ≠ 0 →
      Step s .main { s with
        mainLoop := .acquired
        frameAvailableSignal :=
          ⟨s.frameAvailableSignal.mCount - 1, s.frameAvailableSignal.mMax⟩ }
  | readImage : s.mainLoop = .acquired →
      Step s .main { s with mainLoop := .gotImage s.currentCameraBuffer }
  | readIndex (i : Fin 2) : s.mainLoop = .gotImage i →
      Step s .main { s with mainLoop := .aimedTime i s.currentCameraBuffer }
  | hand (i j : Fin 2) : s.mainLoop = .aimedTime i j →
      Step s .main { s with
        mainLoop := .returned ⟨i, s.cameraBufferTimes j⟩
        handed := (s.cameraBuffers i, s.cameraBufferTimes j) :: s.handed }
  | startRead (frame : CameraBufferRes) : s.mainLoop = .returned frame →
      Step s .main { s with mainLoop := .copying frame (s.cameraBuffers frame.imData) }
  | endRead (frame : CameraBufferRes) (first : Image) : s.mainLoop = .copying frame first →
      Step s .main { s with
        mainLoop :=
          .copied frame (if s.cameraBuffers frame.imData = first then first else .torn) }
  | chooseSwap (frame : CameraBufferRes) (im : Image) : s.mainLoop = .copied frame im →
      Step s .main { s with mainLoop := .aimedSwap frame im s.nextBuffer }
  | swap (frame : CameraBufferRes) (im : Image) (next : Fin 2) :
      s.mainLoop = .aimedSwap frame im next →
      Step s .main { s with
        mainLoop := .swapped frame im
        currentCameraBuffer := next
        chosen := false }
  | notifyNext (frame : CameraBufferRes) (im : Image) : s.mainLoop = .swapped frame im →
      Step s .main { s with
        mainLoop := .tracking frame im
        nextFrameSignal := s.nextFrameSignal.notify }
  | track (frame : CameraBufferRes) (im : Image) : s.mainLoop = .tracking frame im →
      Step s .main { s with mainLoop := .loopHead }

theorem step_of_cameraStep {s s' : State} (h : s.cameraStep = some s') :
    Step s .camera s' := by
  unfold cameraStep at h
  split at h
  · next hpc =>
    refine Option.some.inj h ▸ .cameraLoop _ hpc ?_
    split
    · exact Or.inl rfl
    · exact Or.inr rfl
  · next hpc =>
    obtain ⟨sem, hwait, rfl⟩ := Option.map_eq_some_iff.mp h
    rw [Semaphore.wait] at hwait
    split at hwait
    · cases hwait
    · next hcount => exact Option.some.inj hwait ▸ .cameraWait hpc hcount
  · next hpc => exact Option.some.inj h ▸ .capture hpc
  · next hpc => exact Option.some.inj h ▸ .chooseImage hpc
  · next i hpc => exact Option.some.inj h ▸ .startCopy i hpc
  · next i hpc => exact Option.some.inj h ▸ .endCopy i hpc
  · next hpc => exact Option.some.inj h ▸ .chooseTime hpc
  · next i hpc => exact Option.some.inj h ▸ .stamp i hpc
  · next hpc => exact Option.some.inj h ▸ .notifyAvailable hpc
  · cases h

theorem step_of_mainStep {s s' : State} (h : s.mainStep = some s') :
    Step s .main s' := by
  unfold mainStep at h
  split at h
  · next hpc =>
    refine Option.some.inj h ▸ .mainLoop _ hpc ?_
    split
    · exact Or.inl rfl
    · exact Or.inr rfl
  · next hpc =>
    obtain ⟨sem, hwait, rfl⟩ := Option.map_eq_some_iff.mp h
    rw [Semaphore.wait] at hwait
    split at hwait
    · cases hwait
    · next hcount => exact Option.some.inj hwait ▸ .mainWait hpc hcount
  · next hpc => exact Option.some.inj h ▸ .readImage hpc
  · next i hpc => exact Option.some.inj h ▸ .readIndex i hpc
  · next i j hpc => exact Option.some.inj h ▸ .hand i j hpc
  · next frame hpc => exact Option.some.inj h ▸ .startRead frame hpc
  · next frame first hpc => exact Option.some.inj h ▸ .endRead frame first hpc
  · next frame im hpc => exact Option.some.inj h ▸ .chooseSwap frame im hpc
  · next frame im next hpc => exact Option.some.inj h ▸ .swap frame im next hpc
  · next frame im hpc => exact Option.some.inj h ▸ .notifyNext frame im hpc
  · next frame im hpc => exact Option.some.inj h ▸ .track frame im hpc
  · cases h

theorem step_cases {s s' : State} {actor : Actor} (h : s.step actor = some s') :
    Step s actor s' := by
  cases actor with
  | camera => exact step_of_cameraStep h
  | main => exact step_of_mainStep h
  | shutdownHandler => exact Option.some.inj h ▸ .shutdown

end State

end RaspiOrbSlam.Camera
