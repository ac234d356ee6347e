import RaspiOrbSlam.Foundation.Binary32
import RaspiOrbSlam.Protocol.PacketRoundTrip
import RaspiOrbSlam.Protocol.Vec3Components

/-!
# The reports of the tracker

A turn of `networkPushThread` copies the keypoints of the last frame under a lock and
then looks up the map point and the outlier flag of each of them. By then the tracker
may have another frame, so each lookup has vectors of its own here. The map point is
bound to a reference, which is read twice afterwards, and the frame may have changed
before each of the two reads. An access sees a vector before or after such a change.
-/

namespace RaspiOrbSlam.Server

open Foundation
open Protocol

/-- What the thread reads of a point of the map. -/
structure MapPoint where
  worldPos : Vec3
  observations : Int32

structure KeyPoint where
  x : Float32
  y : Float32

/-- A vector at the moment of an access, and where its elements are stored then. -/
structure Stored (α : Type) where
  storage : Nat
  elements : List α

/-- The accesses of an iteration to the vector of the map points: the reference is bound, tested
for null, and followed to the number of observations. -/
inductive PointAccess where
  | bind
  | test
  | observations
  deriving DecidableEq

/-- What a turn reads of the tracker. The vectors are those of the frame that the tracker
has when the keypoint with this index is looked up. -/
structure PushTurn where
  trackedMapPoints : List (Option MapPoint)
  isOk : Bool
  mvKeys : List KeyPoint
  mvpMapPoints : Nat → PointAccess → Stored (Option MapPoint)
  mvbOutlier : Nat → List Bool

/-- What the language leaves undefined. -/
inductive ReportFault where
  /-- An element behind the end of a vector is read. -/
  | outOfBounds
  /-- A reference to an element is read whose vector has moved to another storage. -/
  | dangling
  /-- A member function of a null pointer is called. -/
  | nullPointer
  /-- A float is converted to an integer type that cannot hold it. -/
  | conversion
  deriving DecidableEq, Repr

def lookUp {α : Type} (vector : List α) (i : Nat) : Except ReportFault α :=
  match vector[i]? with
  | some a => .ok a
  | none => .error .outOfBounds

/-- The conversion of a `float` to an unsigned type with this many values. -/
def toUnsigned (limit : Nat) (x : Float32) : Except ReportFault Nat :=
  match Binary32.value x with
  | none => .error .conversion
  | some q =>
      if 0 ≤ Binary32.truncate q ∧ Binary32.truncate q < limit then
        .ok (Binary32.truncate q).toNat
      else .error .conversion

def toUInt16 (x : Float32) : Except ReportFault UInt16 := UInt16.ofNat <$> toUnsigned (2 ^ 16) x
def toUInt8 (x : Float32) : Except ReportFault UInt8 := UInt8.ofNat <$> toUnsigned (2 ^ 8) x

/-- A reference to an element of a vector. -/
structure Reference where
  storage : Nat
  index : Nat

/-- `vector[i]` as a reference. -/
def bindTo {α : Type} (vector : Stored α) (i : Nat) : Except ReportFault Reference := do
  let _ ← lookUp vector.elements i
  return ⟨vector.storage, i⟩

/-- What a reference yields of the vector as it is now. -/
def Reference.read {α : Type} (p : Reference) (vector : Stored α) : Except ReportFault α :=
  if vector.storage = p.storage then lookUp vector.elements p.index else .error .dangling

/-- The flags of a mark, from the reference to the map point of its keypoint. -/
def overlayFlags (turn : PushTurn) (i : Nat) (p : Reference) : Except ReportFault UInt8 := do
  let mFlags : UInt8 := 0
  match ← p.read (turn.mvpMapPoints i .test) with
  | none => return mFlags
  | some _ => do
      let mFlags := mFlags ||| 1
      let outlier ← lookUp (turn.mvbOutlier i) i
      if outlier then return mFlags
      else do
        let mFlags := mFlags ||| 2
        match ← p.read (turn.mvpMapPoints i .observations) with
        | none => .error .nullPointer
        | some point => if 0 < point.observations then return mFlags ||| 4 else return mFlags

/-- The body of the loop over the keypoints. -/
def overlayPoint (turn : PushTurn) (i : Nat) (k : KeyPoint) : Except ReportFault OverlayPoint := do
  let p ← bindTo (turn.mvpMapPoints i .bind) i
  let mX ← toUInt16 k.x
  let mY ← toUInt16 k.y
  let mFlags ← overlayFlags turn i p
  return ⟨mX, mY, mFlags⟩

/-- The loop over the keypoints, from the index of the first of them on. -/
def overlayFrom (turn : PushTurn) : (i : Nat) → (keys : List KeyPoint) →
    Except ReportFault (List OverlayPoint)
  | _, [] => .ok []
  | i, k :: keys => do
      let overlay ← overlayPoint turn i k
      let rest ← overlayFrom turn (i + 1) keys
      return overlay :: rest

/-- The overlay is cleared, and filled if the last frame was tracked. -/
def fillOverlay (turn : PushTurn) : Except ReportFault (List OverlayPoint) :=
  if turn.isOk then overlayFrom turn 0 turn.mvKeys else .ok []

/-- `reportPacket` when the turn sends it. -/
def fillReport (turn : PushTurn) : Except ReportFault ReportPacket := do
  let mWorldPoints := turn.trackedMapPoints.filterMap fun p => p.map MapPoint.worldPos
  let mOverlay ← fillOverlay turn
  return ⟨mOverlay, mWorldPoints⟩

/-- The integer part of a float is in the range of an unsigned type with this many values. -/
def Convertible (limit : Nat) (x : Float32) : Prop :=
  ∃ q, Binary32.value x = some q ∧ 0 ≤ Binary32.truncate q ∧ Binary32.truncate q < limit

namespace PushTurn

/-- What the reference of an iteration yields at an access, if the element is still there. -/
def point? (turn : PushTurn) (i : Nat) (access : PointAccess) : Option (Option MapPoint) :=
  if (turn.mvpMapPoints i access).storage = (turn.mvpMapPoints i .bind).storage then
    (turn.mvpMapPoints i access).elements[i]?
  else none

/-- The keypoint has a point in the map. -/
def Mapped (turn : PushTurn) (i : Nat) : Prop := ∃ p, turn.point? i .test = some (some p)

/-- The keypoint has a point in the map and is no outlier. -/
def Inlier (turn : PushTurn) (i : Nat) : Prop :=
  turn.Mapped i ∧ (turn.mvbOutlier i)[i]? = some false

/-- The lookups for a keypoint end within the vectors that they find, whose map points have stayed
in their storage, an inlier still has its point when it is asked for its observations, and the
coordinates fit. -/
structure Covers (turn : PushTurn) (i : Nat) (k : KeyPoint) : Prop where
  bound : i < (turn.mvpMapPoints i .bind).elements.length
  point : ∃ p, turn.point? i .test = some p
  outlier : turn.Mapped i → i < (turn.mvbOutlier i).length
  observations : turn.Inlier i → ∃ p, turn.point? i .observations = some (some p)
  x : Convertible (2 ^ 16) k.x
  y : Convertible (2 ^ 16) k.y

/-- The three flags tell what is found about the keypoint. -/
structure Flagged (turn : PushTurn) (i : Nat) (mFlags : UInt8) : Prop where
  mapped : mFlags &&& 1 ≠ 0 ↔ turn.Mapped i
  inlier : mFlags &&& 2 ≠ 0 ↔ turn.Inlier i
  observed : mFlags &&& 4 ≠ 0 ↔
    turn.Inlier i ∧ ∃ p, turn.point? i .observations = some (some p) ∧ 0 < p.observations
  noOther : mFlags < 8

/-- A mark of the overlay is less than a pixel off its keypoint in either direction. -/
structure Marks (turn : PushTurn) (i : Nat) (k : KeyPoint) (mark : OverlayPoint) : Prop where
  x : ∃ q, Binary32.value k.x = some q ∧ |q - mark.mX.toNat| < 1
  y : ∃ q, Binary32.value k.y = some q ∧ |q - mark.mY.toNat| < 1
  flags : turn.Flagged i mark.mFlags

end PushTurn

/-- A point as it is read back: the signs and the upper mantissa bits are kept, and a point in the
packed range keeps its exponents exactly if those of `x` and `y` are not negative. -/
structure Plots (pos seen : Vec3) : Prop where
  sign : ∀ c, signOf (seen.get c) = signOf (pos.get c)
  mantissa : ∀ c, mantissaOf (seen.get c) = mantissaOf (pos.get c)
  inRange : (∀ c, InPackedRange (pos.get c)) →
    (seen.SameUpperBits pos ↔ 127 ≤ exponentOf pos.x ∧ 127 ≤ exponentOf pos.y)

/-- A report as it is read back. -/
structure PushTurn.Shows (turn : PushTurn) (seen : ReportPacket) : Prop where
  lost : turn.isOk = false → seen.mOverlay = []
  marks : turn.isOk = true → List.Forall₂ (fun indexed mark => turn.Marks indexed.2 indexed.1 mark)
    turn.mvKeys.zipIdx seen.mOverlay
  points : List.Forall₂ Plots (turn.trackedMapPoints.filterMap fun p => p.map MapPoint.worldPos)
    seen.mWorldPoints

theorem lookUp_eq_ok_iff {α : Type} {vector : List α} {i : Nat} {a : α} :
    lookUp vector i = .ok a ↔ vector[i]? = some a := by
  rw [lookUp]
  cases vector[i]? with
  | none => exact iff_of_false nofun nofun
  | some b => rw [Except.ok.injEq, Option.some.injEq]

theorem exists_lookUp_iff {α : Type} {vector : List α} {i : Nat} :
    (∃ a, lookUp vector i = .ok a) ↔ i < vector.length := by
  simp only [lookUp_eq_ok_iff]
  constructor
  · rintro ⟨a, ha⟩
    exact (List.getElem?_eq_some_iff.mp ha).1
  · exact fun h => ⟨_, List.getElem?_eq_getElem h⟩

theorem toUnsigned_eq_ok {limit : Nat} {x : Float32} {q : ℚ} (hq : Binary32.value x = some q)
    (hrange : 0 ≤ Binary32.truncate q ∧ Binary32.truncate q < limit) :
    toUnsigned limit x = .ok (Binary32.truncate q).toNat := by
  rw [toUnsigned, hq]
  exact if_pos hrange

theorem exists_toUnsigned_iff {limit : Nat} {x : Float32} :
    (∃ n, toUnsigned limit x = .ok n) ↔ Convertible limit x := by
  constructor
  · rintro ⟨n, hn⟩
    rw [toUnsigned] at hn
    split at hn
    · cases hn
    · next q hq =>
      by_cases h : 0 ≤ Binary32.truncate q ∧ Binary32.truncate q < limit
      · exact ⟨q, hq, h⟩
      · cases (if_neg h).symm.trans hn
  · rintro ⟨q, hq, h⟩
    exact ⟨_, toUnsigned_eq_ok hq h⟩

/-- A float is truncated. -/
theorem toUnsigned_close {limit n : Nat} {x : Float32} (h : toUnsigned limit x = .ok n) :
    n < limit ∧ ∃ q, Binary32.value x = some q ∧ |q - n| < 1 := by
  obtain ⟨q, hq, hrange⟩ := exists_toUnsigned_iff.mp ⟨n, h⟩
  rw [toUnsigned_eq_ok hq hrange] at h
  obtain rfl := Except.ok.inj h
  have hcast : (((Binary32.truncate q).toNat : Nat) : ℚ) = (Binary32.truncate q : ℚ) := by
    exact_mod_cast Int.toNat_of_nonneg hrange.1
  refine ⟨by omega, q, hq, ?_⟩
  rw [hcast]
  exact Binary32.abs_sub_truncate_lt q

theorem exists_toUInt16_iff {x : Float32} :
    (∃ n, toUInt16 x = .ok n) ↔ Convertible (2 ^ 16) x := by
  rw [← exists_toUnsigned_iff, toUInt16]
  cases toUnsigned (2 ^ 16) x with
  | error e => exact iff_of_false nofun nofun
  | ok n => exact iff_of_true ⟨_, rfl⟩ ⟨n, rfl⟩

theorem bind_eq_ok_iff {ε α β : Type} {f : Except ε α} {g : α → Except ε β} {b : β} :
    f >>= g = .ok b ↔ ∃ a, f = .ok a ∧ g a = .ok b := by
  cases f with
  | error e => exact iff_of_false nofun nofun
  | ok a =>
      constructor
      · exact fun h => ⟨a, rfl, h⟩
      · rintro ⟨a', ha, h⟩
        obtain rfl := Except.ok.inj ha
        exact h

variable {w : Nat} {turn : PushTurn} {i : Nat} {k : KeyPoint}

/-- The reference of an iteration. -/
theorem bindTo_eq_ok_iff {p : Reference} :
    bindTo (turn.mvpMapPoints i .bind) i = .ok p ↔
      i < (turn.mvpMapPoints i .bind).elements.length ∧
        p = ⟨(turn.mvpMapPoints i .bind).storage, i⟩ := by
  rw [bindTo, bind_eq_ok_iff, ← exists_lookUp_iff]
  constructor
  · rintro ⟨a, ha, hp⟩
    exact ⟨⟨a, ha⟩, (Except.ok.inj hp).symm⟩
  · rintro ⟨⟨a, ha⟩, rfl⟩
    exact ⟨a, ha, rfl⟩

theorem read_eq_ok_iff {access : PointAccess} {found : Option MapPoint} :
    Reference.read ⟨(turn.mvpMapPoints i .bind).storage, i⟩ (turn.mvpMapPoints i access) =
      .ok found ↔ turn.point? i access = some found := by
  rw [Reference.read, PushTurn.point?]
  split
  · exact lookUp_eq_ok_iff
  · exact iff_of_false nofun nofun

/-- The three conditions are tested one after another, each only if the one in front of it
holds. -/
theorem overlayFlags_eq_ok_iff {mFlags : UInt8} :
    overlayFlags turn i ⟨(turn.mvpMapPoints i .bind).storage, i⟩ = .ok mFlags ↔
      turn.point? i .test = some none ∧ mFlags = 0 ∨
        turn.Mapped i ∧ ((turn.mvbOutlier i)[i]? = some true ∧ mFlags = 1 ∨
          (turn.mvbOutlier i)[i]? = some false ∧
            ∃ p, turn.point? i .observations = some (some p) ∧
              mFlags = if 0 < p.observations then 7 else 3) := by
  simp only [overlayFlags, bind_eq_ok_iff, read_eq_ok_iff, PushTurn.Mapped]
  constructor
  · rintro ⟨_ | p, htest, h⟩
    · exact Or.inl ⟨htest, (Except.ok.inj h).symm⟩
    refine Or.inr ⟨⟨p, htest⟩, ?_⟩
    obtain ⟨outlier, hlook, h⟩ := bind_eq_ok_iff.mp h
    have houtlier := lookUp_eq_ok_iff.mp hlook
    cases outlier with
    | true => exact Or.inl ⟨houtlier, (Except.ok.inj h).symm⟩
    | false =>
        obtain ⟨_ | p', hread, h⟩ := bind_eq_ok_iff.mp h
        · cases h
        refine Or.inr ⟨houtlier, p', read_eq_ok_iff.mp hread, ?_⟩
        by_cases hobserved : 0 < p'.observations
        · rw [if_pos hobserved]
          exact (Except.ok.inj ((if_pos hobserved).symm.trans h)).symm
        · rw [if_neg hobserved]
          exact (Except.ok.inj ((if_neg hobserved).symm.trans h)).symm
  · rintro (⟨htest, rfl⟩ | ⟨⟨p, htest⟩, ⟨houtlier, rfl⟩ | ⟨houtlier, p', hread, rfl⟩⟩)
    · exact ⟨none, htest, rfl⟩
    · exact ⟨some p, htest, bind_eq_ok_iff.mpr ⟨true, lookUp_eq_ok_iff.mpr houtlier, rfl⟩⟩
    · refine ⟨some p, htest, bind_eq_ok_iff.mpr ⟨false, lookUp_eq_ok_iff.mpr houtlier, ?_⟩⟩
      refine bind_eq_ok_iff.mpr ⟨some p', read_eq_ok_iff.mpr hread, ?_⟩
      by_cases hobserved : 0 < p'.observations
      · rw [if_pos hobserved]
        exact if_pos hobserved
      · rw [if_neg hobserved]
        exact if_neg hobserved

theorem exists_overlayFlags_iff :
    (∃ mFlags, overlayFlags turn i ⟨(turn.mvpMapPoints i .bind).storage, i⟩ = .ok mFlags) ↔
      (∃ p, turn.point? i .test = some p) ∧ (turn.Mapped i → i < (turn.mvbOutlier i).length) ∧
        (turn.Inlier i → ∃ p, turn.point? i .observations = some (some p)) := by
  simp only [overlayFlags_eq_ok_iff]
  constructor
  · rintro ⟨mFlags, ⟨htest, -⟩ | ⟨⟨p, htest⟩, hcases⟩⟩
    · have hnone : ¬turn.Mapped i := by
        rintro ⟨p, hp⟩
        cases htest.symm.trans hp
      exact ⟨⟨none, htest⟩, fun h => absurd h hnone, fun h => absurd h.1 hnone⟩
    · rcases hcases with ⟨houtlier, -⟩ | ⟨houtlier, p', hread, -⟩
      · refine ⟨⟨_, htest⟩, fun _ => (List.getElem?_eq_some_iff.mp houtlier).1, fun h => ?_⟩
        cases houtlier.symm.trans h.2
      · exact ⟨⟨_, htest⟩, fun _ => (List.getElem?_eq_some_iff.mp houtlier).1,
          fun _ => ⟨p', hread⟩⟩
  · rintro ⟨⟨_ | p, htest⟩, houtlier, hread⟩
    · exact ⟨0, Or.inl ⟨htest, rfl⟩⟩
    have hmapped : turn.Mapped i := ⟨p, htest⟩
    obtain ⟨outlier, hlook⟩ : ∃ outlier, (turn.mvbOutlier i)[i]? = some outlier :=
      ⟨_, List.getElem?_eq_getElem (houtlier hmapped)⟩
    cases outlier with
    | true => exact ⟨1, Or.inr ⟨hmapped, Or.inl ⟨hlook, rfl⟩⟩⟩
    | false =>
        obtain ⟨p', hp'⟩ := hread ⟨hmapped, hlook⟩
        exact ⟨_, Or.inr ⟨hmapped, Or.inr ⟨hlook, p', hp', rfl⟩⟩⟩

/-- When the body of the loop is defined. -/
theorem exists_overlayPoint_iff :
    (∃ mark, overlayPoint turn i k = .ok mark) ↔ turn.Covers i k := by
  simp only [overlayPoint, bind_eq_ok_iff, bindTo_eq_ok_iff]
  constructor
  · rintro ⟨mark, p, ⟨hbound, rfl⟩, mX, hx, mY, hy, mFlags, hflags, -⟩
    obtain ⟨hpoint, houtlier, hobservations⟩ := exists_overlayFlags_iff.mp ⟨mFlags, hflags⟩
    exact ⟨hbound, hpoint, houtlier, hobservations, exists_toUInt16_iff.mp ⟨mX, hx⟩,
      exists_toUInt16_iff.mp ⟨mY, hy⟩⟩
  · intro h
    obtain ⟨mX, hx⟩ := exists_toUInt16_iff.mpr h.x
    obtain ⟨mY, hy⟩ := exists_toUInt16_iff.mpr h.y
    obtain ⟨mFlags, hflags⟩ := exists_overlayFlags_iff.mpr ⟨h.point, h.outlier, h.observations⟩
    exact ⟨_, _, ⟨h.bound, rfl⟩, mX, hx, mY, hy, mFlags, hflags, rfl⟩

theorem exists_overlayFrom_iff {keys : List KeyPoint} :
    (∃ marks, overlayFrom turn i keys = .ok marks) ↔
      ∀ indexed ∈ keys.zipIdx i, turn.Covers indexed.2 indexed.1 := by
  induction keys generalizing i with
  | nil => exact iff_of_true ⟨[], rfl⟩ nofun
  | cons k keys ih =>
      rw [List.zipIdx_cons, List.forall_mem_cons, ← ih, ← exists_overlayPoint_iff]
      simp only [overlayFrom, bind_eq_ok_iff]
      constructor
      · rintro ⟨marks, mark, hmark, rest, hrest, -⟩
        exact ⟨⟨mark, hmark⟩, rest, hrest⟩
      · rintro ⟨⟨mark, hmark⟩, rest, hrest⟩
        exact ⟨mark :: rest, mark, hmark, rest, hrest, rfl⟩

theorem fillOverlay_of_not_isOk (hok : turn.isOk = false) : fillOverlay turn = .ok [] := by
  rw [fillOverlay, hok]
  rfl

theorem fillOverlay_of_isOk (hok : turn.isOk = true) :
    fillOverlay turn = overlayFrom turn 0 turn.mvKeys := if_pos hok

theorem exists_fillReport
    (h : turn.isOk = true → ∀ indexed ∈ turn.mvKeys.zipIdx, turn.Covers indexed.2 indexed.1) :
    ∃ report, fillReport turn = .ok report := by
  simp only [fillReport, bind_eq_ok_iff]
  rw [← exists_overlayFrom_iff] at h
  cases hok : turn.isOk with
  | false => exact ⟨_, [], fillOverlay_of_not_isOk hok, rfl⟩
  | true =>
      obtain ⟨mOverlay, hoverlay⟩ := h hok
      exact ⟨_, mOverlay, (fillOverlay_of_isOk hok).trans hoverlay, rfl⟩

/-- A turn is defined exactly if it needs no overlay or what each keypoint needs is still there at
each access. -/
theorem exists_fillReport_iff (turn : PushTurn) :
    (∃ report, fillReport turn = .ok report) ↔
      (turn.isOk = true → ∀ indexed ∈ turn.mvKeys.zipIdx, turn.Covers indexed.2 indexed.1) := by
  refine ⟨?_, exists_fillReport⟩
  rintro ⟨report, hreport⟩ hok
  obtain ⟨mOverlay, hoverlay, -⟩ := bind_eq_ok_iff.mp hreport
  exact exists_overlayFrom_iff.mp ⟨mOverlay, (fillOverlay_of_isOk hok).symm.trans hoverlay⟩

end RaspiOrbSlam.Server
