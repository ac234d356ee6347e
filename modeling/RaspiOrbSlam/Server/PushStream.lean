import RaspiOrbSlam.Server.CpuUsage
import RaspiOrbSlam.Server.KeyframePath
import RaspiOrbSlam.Server.MemUtilization

/-!
# What the clients are told

Every turn of `networkPushThread` hands a report, the metrics and a path packet for each new
keyframe to `sendToAll`. A client that tells the packets apart by their opcodes and reads them as
the server reads its own learns from the messages what the turns have read. What `sendToAll` does
with the set of the clients is not looked at here.
-/

namespace RaspiOrbSlam.Server

open Foundation Protocol

variable {w : Nat} {K : Type}

/-- What a turn of the thread reads. -/
structure PushRead (w : Nat) (K : Type) where
  turn : PushTurn
  /-- The frame rate as the main loop has stored it last. -/
  mFps : UInt32
  mLastProcessedState : Int32
  procStat : List (BitVec w)
  meminfo : List (List Char)
  snapshot : Snapshot K

/-- What ends the thread. -/
inductive PushFault where
  | report (fault : ReportFault)
  | memory (fault : MemFault)

/-- The thread between two turns, with the messages that it has handed to `sendToAll`. -/
structure PushLoop (w : Nat) where
  previous : PreviousTimes w
  prevKeyframeIndex : Nat
  sent : List (List UInt8)

def fillMetrics (totalMemory : BitVec w) (previous : PreviousTimes w) (read : PushRead w K) :
    Except PushFault (MetricsPacket × PreviousTimes w) := do
  let (cpu, previous) := getCpuUtilizationFloat previous read.procStat
  let mCpuUsage ← (toUInt8 cpu).mapError .report
  let memory ← (getMemUtilization totalMemory read.meminfo).mapError .memory
  let mMemUsage ← (toUInt8 memory).mapError .report
  return (⟨read.mFps, mCpuUsage, mMemUsage, read.mLastProcessedState.toUInt32.toUInt8⟩, previous)

namespace PushLoop

/-- The thread in front of its loop. -/
def start : PushLoop w := ⟨⟨0, 0⟩, 1, []⟩

/-- The body of the loop. -/
def next (totalMemory : BitVec w) (loop : PushLoop w) (read : PushRead w K) :
    Except PushFault (PushLoop w) := do
  let report ← (fillReport read.turn).mapError .report
  let (metrics, previous) ← fillMetrics totalMemory loop.previous read
  let (announced, last) := read.snapshot.announceFrom loop.prevKeyframeIndex
  return ⟨previous, last, loop.sent ++ report.serialize :: metrics.serialize ::
    announced.map fun a => a.pathPacket.serialize⟩

/-- The turns up to the shutdown. -/
def run (totalMemory : BitVec w) (loop : PushLoop w) :
    (reads : List (PushRead w K)) → Except PushFault (PushLoop w)
  | [] => .ok loop
  | read :: reads => do
      let loop ← loop.next totalMemory read
      loop.run totalMemory reads

end PushLoop

/-- What a message tells a client. -/
inductive Update where
  | report (p : ReportPacket)
  | metrics (p : MetricsPacket)
  | path (p : PathPacket)

/-- The index of a path packet. -/
def Update.index : Update → Option UInt64
  | .path p => some p.mIndex
  | _ => none

/-- The metrics as they are read back. The first line with the available memory counts. -/
structure PushRead.ShowsMetrics (totalMemory : BitVec w) (read : PushRead w K)
    (seen : MetricsPacket) : Prop where
  fps : seen.mFps = read.mFps
  state : seen.mTrackingState = read.mLastProcessedState.toUInt32.toUInt8
  cpu : |loadSinceStart read.procStat - seen.mCpuUsage.toNat| < 1 + 1 / 10000
  memory : ∃ before blanks n after, read.meminfo = before ++ availableLine blanks n :: after ∧
    (∀ line ∈ before, memAvailable.isPrefixOf line = false) ∧
    |100 * (1 - (n : ℚ) / totalMemory.toNat) - seen.mMemUsage.toNat| < 1 + 1 / 10000

/-- The packets show the keyframes of the snapshot from the place `i` on, in their order. -/
structure Snapshot.ShowsPath (snapshot : Snapshot K) (i : Nat) (paths : List PathPacket) :
    Prop where
  shown : ∀ p ∈ paths, i ≤ p.mIndex.toNat ∧ ∃ k, snapshot.kfs[p.mIndex.toNat]? = some (some k) ∧
    snapshot.isBad k = false ∧ Plots (snapshot.cameraCenter k) p.mCurrentCameraPos
  all : ∀ j k, i ≤ j → snapshot.kfs[j]? = some (some k) → snapshot.isBad k = false →
    ∃ p ∈ paths, p.mIndex.toNat = j
  ordered : paths.Pairwise fun p q => p.mIndex < q.mIndex

/-- The updates show what the turns have read, the path from the place `i` on. -/
inductive ShowsFrom (totalMemory : BitVec w) :
    (i : Nat) → List (PushRead w K) → List (List Update) → Prop
  | nil {i : Nat} : ShowsFrom totalMemory i [] []
  | cons {i : Nat} {read : PushRead w K} {reads : List (PushRead w K)} {report : ReportPacket}
      {metrics : MetricsPacket} {paths : List PathPacket} {turns : List (List Update)} :
      read.turn.Shows report → read.ShowsMetrics totalMemory metrics →
      read.snapshot.ShowsPath i paths →
      ShowsFrom totalMemory (max i read.snapshot.kfs.length) reads turns →
      ShowsFrom totalMemory i (read :: reads)
        ((.report report :: .metrics metrics :: paths.map .path) :: turns)

/-- A path packet as it is read back. -/
def received (p : PathPacket) : PathPacket :=
  { p with mCurrentCameraPos := unpackVec3 (packVec3 p.mCurrentCameraPos) }

section Path

variable {snapshot : Snapshot K} {i : Nat}

end Path

section Run

variable {totalMemory : BitVec w}

/-- The indices of the whole run grow. -/
theorem ShowsFrom.ordered {i : Nat} {reads : List (PushRead w K)} {turns : List (List Update)}
    (h : ShowsFrom totalMemory i reads turns) :
    (∀ index ∈ turns.flatten.filterMap Update.index, i ≤ index.toNat) ∧
      (turns.flatten.filterMap Update.index).Pairwise (· < ·) := by
  induction h with
  | nil => exact ⟨nofun, .nil⟩
  | @cons i read reads report metrics paths turns _ _ hpath _ ih =>
      obtain ⟨hbehind, hordered⟩ := ih
      have hindices : (paths.map Update.path).filterMap Update.index =
          paths.map PathPacket.mIndex := by
        rw [List.filterMap_map, ← List.filterMap_eq_map]
        rfl
      have hflatten : ((.report report :: .metrics metrics :: paths.map .path) ::
          turns).flatten.filterMap Update.index =
            paths.map PathPacket.mIndex ++ turns.flatten.filterMap Update.index := by
        rw [List.flatten_cons, List.filterMap_append, List.filterMap_cons_none rfl,
          List.filterMap_cons_none rfl, hindices]
      rw [hflatten]
      have hshown : ∀ index ∈ paths.map PathPacket.mIndex,
          i ≤ index.toNat ∧ index.toNat < read.snapshot.kfs.length := by
        intro index hindex
        obtain ⟨p, hp, rfl⟩ := List.mem_map.mp hindex
        obtain ⟨hlow, k, hkey, -⟩ := hpath.shown p hp
        exact ⟨hlow, (List.getElem?_eq_some_iff.mp hkey).1⟩
      constructor
      · intro index hindex
        rcases List.mem_append.mp hindex with hhere | hthere
        · exact (hshown index hhere).1
        · exact (Nat.le_max_left _ _).trans (hbehind index hthere)
      · refine List.pairwise_append.mpr ⟨List.pairwise_map.mpr hpath.ordered, hordered, ?_⟩
        intro index hindex index' hindex'
        rw [UInt64.lt_iff_toNat_lt]
        exact (hshown index hindex).2.trans_le
          ((Nat.le_max_right _ _).trans (hbehind index' hindex'))

end Run

end RaspiOrbSlam.Server
