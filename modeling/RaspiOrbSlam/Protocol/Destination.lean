import RaspiOrbSlam.Foundation.Fallible
import RaspiOrbSlam.Protocol.Truncation

/-!
# Readers that fill in a destination

`deserialize` takes the object to fill in by reference. When a reader throws,
what it stored in the object stays there and the stream keeps its position. The
readers here work on both and note every shift amount they evaluate.
-/

namespace RaspiOrbSlam.Protocol

open Foundation

variable {w : Nat} (pf : Platform w) {δ α T : Type}

/-- The stream and the object of a reader, and the amounts it has shifted by. -/
structure Reading (w : Nat) (δ : Type) where
  stream : VectorStream w
  destination : δ
  shifts : List Nat
  deriving DecidableEq

/-- Code that reads from a stream into an object and may end with a fault. -/
abbrev ReadingM (w : Nat) (δ : Type) := Fallible Fault (Reading w δ)

namespace Reading

/-- A single operation of the stream; one that fails moves nothing. -/
def onStream (f : StreamM w α) : ReadingM w δ α := fun s =>
  match f s.stream with
  | .ok (a, vs) => (.ok a, { s with stream := vs })
  | .error e => (.error e, s)

def store (f : δ → δ) : ReadingM w δ Unit := fun s =>
  (.ok (), { s with destination := f s.destination })

def noteShift (shift : Nat) : ReadingM w δ Unit := fun s =>
  (.ok (), { s with shifts := s.shifts ++ [shift] })

/-- A reader on a local variable, which is lost when the reader throws. -/
def withLocal (init : α) (f : ReadingM w α Unit) : ReadingM w δ α := fun s =>
  let r := f ⟨s.stream, init, s.shifts⟩
  (r.1.map fun _ => r.2.destination, ⟨r.2.stream, s.destination, r.2.shifts⟩)

/-- A reader on the element at index `i`; behind the last element it would write
out of bounds. -/
def atElement (i : Nat) (f : ReadingM w T Unit) : ReadingM w (List T) Unit := fun s =>
  match s.destination[i]? with
  | some element =>
      let r := f ⟨s.stream, element, s.shifts⟩
      (r.1, ⟨r.2.stream, s.destination.set i r.2.destination, r.2.shifts⟩)
  | none => (.error .outOfBounds, s)

/-- `resize(n)` of the destination; one that throws changes nothing. -/
def resizeTo [Inhabited T] (n : Nat) : ReadingM w (List T) Unit :=
  if pf.maxSize < n then throw .allocation
  else store fun list => (list.take n).rightpad n default

end Reading

open Reading

/-- The loop of `Serializer::deserialize(uint64_t&)`. -/
def deserializeUInt64Into.loop (shift : Nat) : ReadingM w UInt64 Unit :=
  if shift ≥ 1 <<< 8 then throw (.outOfRange "varint too long")
  else do
    let b ← onStream VectorStream.get
    noteShift shift
    store fun num => addGroup pf num b shift
    if b &&& 0x80 ≠ 0 then loop (shift + 7) else return ()
termination_by 256 - shift

/-- `Serializer::deserialize(uint64_t&)`. -/
def deserializeUInt64Into : ReadingM w UInt64 Unit := do
  store fun _ => 0
  deserializeUInt64Into.loop pf 0

/-- `Serializer::deserialize(std::string&)`. -/
def deserializeStringInto : ReadingM w (List UInt8) Unit := do
  let len ← withLocal 0 (deserializeUInt64Into pf)
  resizeTo pf (toSize w len)
  let first ← onStream VectorStream.curr
  let bytes ← onStream (VectorStream.copy first (toSize w len))
  store fun str => bytes ++ str.drop bytes.length
  onStream (VectorStream.advance (BitVec.ofNat w (toSize w len)))

/-- The loop of `Serializer::deserialize(std::vector<T>&)` over `n` elements from
the index `i` on. -/
def deserializeVectorInto.loop (deserialize : ReadingM w T Unit) :
    Nat → Nat → ReadingM w (List T) Unit
  | _, 0 => return ()
  | i, n + 1 => do
      atElement i deserialize
      loop deserialize (i + 1) n

/-- `Serializer::deserialize(std::vector<T>&)`. -/
def deserializeVectorInto [Inhabited T] (deserialize : ReadingM w T Unit) :
    ReadingM w (List T) Unit := do
  let len ← withLocal 0 (deserializeUInt64Into pf)
  resizeTo pf (toSize w len)
  deserializeVectorInto.loop deserialize 0 len.toNat

/-- The number of bytes that the loop reads when it has read `i` before. -/
def groupsRead (i : Nat) (input : List UInt8) : Nat :=
  min (37 - i) (min (marks input + 1) input.length)

/-- The shift amounts of `k` groups from the group `i` on. -/
def groupShifts (i k : Nat) : List Nat := (List.range' i k).map (7 * ·)

theorem groupsRead_le (i : Nat) (input : List UInt8) : groupsRead i input ≤ input.length := by
  unfold groupsRead
  omega

theorem get_of_remaining {vs : VectorStream w} {b : UInt8} {rest : List UInt8}
    (h : vs.remaining = b :: rest) :
    VectorStream.get vs = .ok (b, vs.skip 1) ∧ (vs.skip 1).remaining = rest := by
  have hone : 1 ≤ vs.remaining.length := by simp [h]
  constructor
  · exact Simulates.get.of_yields (Parser.Yields.item Fault.outOfBounds b) h
  · rw [vs.skip_remaining hone, h, List.drop_one, List.tail_cons]

theorem get_of_remaining_nil {vs : VectorStream w} (h : vs.remaining = []) :
    VectorStream.get vs = .error .outOfBounds := by
  rcases Simulates.get vs with ⟨b, k, _, hp, _⟩ | ⟨e, hp, hget⟩
  · rw [h] at hp
    cases hp
  · rw [h] at hp
    cases hp
    exact hget

namespace Reading

theorem onStream_ok {f : StreamM w α} {s : Reading w δ} {a : α} {vs : VectorStream w}
    (h : f s.stream = .ok (a, vs)) : onStream f s = (.ok a, { s with stream := vs }) := by
  simp only [onStream, h]

theorem onStream_error {f : StreamM w α} {s : Reading w δ} {e : Fault}
    (h : f s.stream = .error e) : onStream f s = (.error e, s) := by
  simp only [onStream, h]

end Reading

section Groups

variable {i : Nat} {b : UInt8}

theorem groupsRead_nil : groupsRead i [] = 0 := Nat.le_zero.mp (groupsRead_le i [])

theorem groupsRead_guarded (h : 37 ≤ i) (input : List UInt8) : groupsRead i input = 0 := by
  unfold groupsRead
  omega

theorem groupsRead_of_marked (hi : i < 37) (h : b &&& 0x80 ≠ 0) (rest : List UInt8) :
    groupsRead i (b :: rest) = groupsRead (i + 1) rest + 1 := by
  unfold groupsRead
  rw [marks_cons_of_marked h, List.length_cons]
  omega

theorem groupsRead_of_not_marked (hi : i < 37) (h : ¬b &&& 0x80 ≠ 0) (rest : List UInt8) :
    groupsRead i (b :: rest) = 1 := by
  unfold groupsRead
  rw [marks_cons_of_not_marked h, List.length_cons]
  omega

@[simp] theorem groupShifts_zero : groupShifts i 0 = [] := rfl

theorem groupShifts_succ (k : Nat) : groupShifts i (k + 1) = 7 * i :: groupShifts (i + 1) k := rfl

end Groups

/-- The loop ends with `out` after the group `i`: it has the outcome `r` of the loop
that returns the number, and it keeps what it did before a failure. -/
structure LoopEnds (i : Nat) (s : Reading w UInt64) (r : Except Fault (UInt64 × VectorStream w))
    (out : Except Fault Unit × Reading w UInt64) : Prop where
  outcome : out.1 = r.map fun _ => ()
  stream : out.2.stream = s.stream.skip (groupsRead i s.stream.remaining)
  shifts : out.2.shifts = s.shifts ++ groupShifts i (groupsRead i s.stream.remaining)
  returned : ∀ num vs, r = .ok (num, vs) → out.2.destination = num ∧ out.2.stream = vs

/-- A loop that reads nothing more. -/
theorem LoopEnds.of_error {i : Nat} {s : Reading w UInt64} {e : Fault}
    (h : groupsRead i s.stream.remaining = 0) : LoopEnds i s (.error e) (.error e, s) where
  outcome := rfl
  stream := by rw [h, VectorStream.skip_zero]
  shifts := by rw [h, groupShifts_zero, List.append_nil]
  returned := nofun

/-- The two loops side by side; `n` groups are left until the guard fires. -/
theorem loopEnds (n : Nat) {i : Nat} (hi : i + n = 37) (s : Reading w UInt64) :
    LoopEnds i s (deserializeUInt64.loop pf (7 * i) s.destination s.stream)
      (deserializeUInt64Into.loop pf (7 * i) s) := by
  induction n generalizing i s with
  | zero =>
      have hguard : 7 * i ≥ 1 <<< 8 := by rw [Nat.one_shiftLeft]; omega
      rw [deserializeUInt64.loop, if_pos hguard, deserializeUInt64Into.loop, if_pos hguard]
      exact LoopEnds.of_error (groupsRead_guarded (by omega) _)
  | succ n ih =>
      have hguard : ¬7 * i ≥ 1 <<< 8 := by rw [Nat.one_shiftLeft]; omega
      rw [deserializeUInt64.loop, if_neg hguard, deserializeUInt64Into.loop, if_neg hguard]
      cases hrem : s.stream.remaining with
      | nil =>
          have hget := get_of_remaining_nil hrem
          rw [StreamM.bind_error hget, Fallible.bind_error (onStream_error hget)]
          exact LoopEnds.of_error (by rw [hrem, groupsRead_nil])
      | cons b rest =>
          obtain ⟨hget, hrest⟩ := get_of_remaining hrem
          let num := addGroup pf s.destination b (7 * i)
          let s' : Reading w UInt64 := ⟨s.stream.skip 1, num, s.shifts ++ [7 * i]⟩
          rw [StreamM.bind_ok hget, Fallible.bind_ok (onStream_ok hget)]
          change LoopEnds i s _ ((if b &&& 0x80 ≠ 0 then
            deserializeUInt64Into.loop pf (7 * (i + 1)) else pure ()) s')
          by_cases hmark : b &&& 0x80 ≠ 0
          · have hread := groupsRead_of_marked (by omega : i < 37) hmark rest
            have hnext := ih (by omega : i + 1 + n = 37) s'
            rw [if_pos hmark, if_pos hmark]
            refine ⟨hnext.outcome, ?_, ?_, hnext.returned⟩
            · rw [hrem, hread, Nat.add_comm (groupsRead _ _), ← VectorStream.skip_skip, ← hrest]
              exact hnext.stream
            · rw [hnext.shifts, hrem, hread, groupShifts_succ, hrest, List.append_assoc,
                List.singleton_append]
          · have hread := groupsRead_of_not_marked (by omega : i < 37) hmark rest
            rw [if_neg hmark, if_neg hmark]
            refine ⟨rfl, ?_, ?_, ?_⟩
            · rw [hrem, hread]
              rfl
            · rw [hrem, hread]
              rfl
            · rintro _ _ ⟨⟩
              exact ⟨rfl, rfl⟩

theorem deserializeUInt64Into_ends (s : Reading w UInt64) :
    LoopEnds 0 { s with destination := 0 } (deserializeUInt64 pf s.stream)
      (deserializeUInt64Into pf s) :=
  loopEnds pf 37 (i := 0) rfl { s with destination := 0 }

/-- What is read of a stream by its first bytes alone. -/
theorem deserializeUInt64_eq (vs : VectorStream w) :
    deserializeUInt64 pf vs =
      if 37 ≤ marks vs.remaining then .error (.outOfRange "varint too long")
      else if marks vs.remaining < vs.remaining.length then
        .ok (intToUInt64 (decodedFrom pf 0 vs.remaining), vs.skip (marks vs.remaining + 1))
      else .error .outOfBounds := by
  have hread := varintFrom_eq pf vs.remaining (i := 0) (by decide) 0
  rw [Nat.mul_zero, Nat.zero_add, UInt64.zero_or, ← varint] at hread
  rcases simulates_deserializeUInt64 pf vs with ⟨num, k, hk, hp, h⟩ | ⟨e, hp, h⟩
  · rw [hread] at hp
    rw [h]
    split_ifs at hp ⊢ with hover hend
    · obtain ⟨rfl, hdrop⟩ := Prod.mk.inj (Except.ok.inj hp)
      have hlen := congrArg List.length hdrop
      rw [List.length_drop, List.length_drop] at hlen
      rw [show k = marks vs.remaining + 1 by omega]
  · rw [hread] at hp
    rw [h]
    split_ifs at hp ⊢ with hover hend
    · rw [Except.error.inj hp]
    · rw [Except.error.inj hp]

theorem deserializeUInt64_ok_iff {vs vs' : VectorStream w} {len : UInt64} :
    deserializeUInt64 pf vs = .ok (len, vs') ↔
      marks vs.remaining < 37 ∧ marks vs.remaining < vs.remaining.length ∧
        len = intToUInt64 (decodedFrom pf 0 vs.remaining) ∧
        vs' = vs.skip (marks vs.remaining + 1) := by
  rw [deserializeUInt64_eq]
  split_ifs with hover hend
  · exact iff_of_false nofun fun h => absurd h.1 (Nat.not_lt.mpr hover)
  · rw [Except.ok.injEq, Prod.mk.injEq, eq_comm, eq_comm (a := vs.skip _)]
    exact ⟨fun h => ⟨Nat.not_le.mp hover, hend, h⟩, fun h => h.2.2⟩
  · exact iff_of_false nofun fun h => absurd h.2.1 hend

/-- How a reader that starts with a length and a `resize` goes on from `s`. -/
inductive AfterLength [Inhabited T] (g : UInt64 → ReadingM w (List T) Unit)
    (s : Reading w (List T)) (out : Except Fault Unit × Reading w (List T)) : Prop where
  /-- No length is read. -/
  | failed {e : Fault} {k : Nat} {shifts : List Nat}
      (hread : deserializeUInt64 pf s.stream = .error e) (hk : k ≤ s.stream.remaining.length)
      (hout : out = (.error e, ⟨s.stream.skip k, s.destination, shifts⟩))
  /-- The `resize` throws. -/
  | refused {len : UInt64} {vs : VectorStream w} {shifts : List Nat}
      (hread : deserializeUInt64 pf s.stream = .ok (len, vs))
      (hsize : pf.maxSize < toSize w len) (hlen : pf.maxSize < len.toNat)
      (hout : out = (.error .allocation, ⟨vs, s.destination, shifts⟩))
  /-- The destination has the length that was read. -/
  | resized {len : UInt64} {vs : VectorStream w} {shifts : List Nat}
      (hread : deserializeUInt64 pf s.stream = .ok (len, vs))
      (hsize : toSize w len = len.toNat) (hlen : len.toNat ≤ pf.maxSize)
      (hout : out = g len
        ⟨vs, (s.destination.take len.toNat).rightpad len.toNat default, shifts⟩)

theorem deserializeUInt64_range {vs vs' : VectorStream w} {len : UInt64}
    (h : deserializeUInt64 pf vs = .ok (len, vs')) :
    len.toNat < 2 ^ 31 ∨ 2 ^ 64 - 2 ^ 31 ≤ len.toNat := by
  obtain ⟨-, -, hlen, -⟩ := (deserializeUInt64_ok_iff pf).mp h
  rw [hlen]
  exact intToUInt64_range _

theorem length_resized [Inhabited T] (list : List T) (n : Nat) :
    ((list.take n).rightpad n default).length = n := by
  rw [List.length_rightpad]
  exact max_eq_left (List.length_take_le n list)

/-- A length that is not read leaves the destination as it is. -/
theorem localLength_of_error {s : Reading w δ} {e : Fault}
    (h : deserializeUInt64 pf s.stream = .error e) :
    ∃ k shifts, k ≤ s.stream.remaining.length ∧
      withLocal 0 (deserializeUInt64Into pf) s =
        (.error e, ⟨s.stream.skip k, s.destination, shifts⟩) := by
  let r := deserializeUInt64Into pf ⟨s.stream, 0, s.shifts⟩
  have hends : LoopEnds 0 ⟨s.stream, 0, s.shifts⟩ (deserializeUInt64 pf s.stream) r :=
    deserializeUInt64Into_ends pf ⟨s.stream, 0, s.shifts⟩
  refine ⟨groupsRead 0 s.stream.remaining, r.2.shifts, groupsRead_le _ _, ?_⟩
  change (r.1.map fun _ => r.2.destination, (⟨r.2.stream, _, _⟩ : Reading w δ)) = _
  rw [hends.outcome, hends.stream, h]
  rfl

theorem localLength_of_ok {s : Reading w δ} {len : UInt64} {vs : VectorStream w}
    (h : deserializeUInt64 pf s.stream = .ok (len, vs)) :
    ∃ shifts,
      withLocal 0 (deserializeUInt64Into pf) s = (.ok len, ⟨vs, s.destination, shifts⟩) := by
  let r := deserializeUInt64Into pf ⟨s.stream, 0, s.shifts⟩
  have hends : LoopEnds 0 ⟨s.stream, 0, s.shifts⟩ (deserializeUInt64 pf s.stream) r :=
    deserializeUInt64Into_ends pf ⟨s.stream, 0, s.shifts⟩
  obtain ⟨hnum, hvs⟩ := hends.returned len vs h
  refine ⟨r.2.shifts, ?_⟩
  change (r.1.map fun _ => r.2.destination, (⟨r.2.stream, _, _⟩ : Reading w δ)) = _
  rw [hends.outcome, hnum, hvs, h]
  rfl

theorem resizeTo_of_lt [Inhabited T] {n : Nat} (h : pf.maxSize < n) (s : Reading w (List T)) :
    resizeTo pf n s = (.error .allocation, s) := by
  rw [resizeTo, if_pos h]
  rfl

theorem resizeTo_of_le [Inhabited T] {n : Nat} (h : n ≤ pf.maxSize) (s : Reading w (List T)) :
    resizeTo pf n s =
      (.ok (), { s with destination := (s.destination.take n).rightpad n default }) := by
  rw [resizeTo, if_neg (Nat.not_lt.mpr h)]
  rfl

theorem afterLength [Inhabited T] (g : UInt64 → ReadingM w (List T) Unit)
    (s : Reading w (List T)) :
    AfterLength pf g s ((do
      let len ← withLocal 0 (deserializeUInt64Into pf)
      resizeTo pf (toSize w len)
      g len) s) := by
  cases hread : deserializeUInt64 pf s.stream with
  | error e =>
      obtain ⟨k, shifts, hk, hlocal⟩ := localLength_of_error pf hread
      exact .failed hread hk (Fallible.bind_error hlocal)
  | ok r =>
      obtain ⟨len, vs⟩ := r
      obtain ⟨shifts, hlocal⟩ := localLength_of_ok pf hread
      have hrange := toSize_of_range pf (deserializeUInt64_range pf hread)
      rw [Fallible.bind_ok hlocal]
      by_cases hmax : pf.maxSize < toSize w len
      · have hlen : pf.maxSize < len.toNat := by omega
        exact .refused hread hmax hlen (Fallible.bind_error (resizeTo_of_lt pf hmax _))
      · have hsize : toSize w len = len.toNat := by omega
        have hlen : len.toNat ≤ pf.maxSize := by omega
        rw [hsize]
        exact .resized hread hsize hlen (Fallible.bind_ok (resizeTo_of_le pf hlen _))

end RaspiOrbSlam.Protocol
