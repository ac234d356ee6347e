import RaspiOrbSlam.Protocol.Destination

/-!
# Announced lengths against the bytes that are left

Strings and lists are resized to the length that the stream announces before any
of their bytes are read. Nothing but the limit of the `resize` stands between a
length and the destination.
-/

namespace RaspiOrbSlam.Protocol

open Foundation Reading

variable {w : Nat} (pf : Platform w) {T : Type}

/-- A length beyond the bytes left makes `f` fail from `s` before it resizes its
destination or leaves the data, and no size it gives exceeds the message. -/
structure ChecksLength (f : ReadingM w (List T) Unit) (s : Reading w (List T)) : Prop where
  refuses : ∀ len vs, deserializeUInt64 pf s.stream = .ok (len, vs) →
    vs.remaining.length < len.toNat →
      (∃ e, (f s).1 = .error e ∧ e ≠ .outOfBounds) ∧
      (f s).2.destination.length = s.destination.length ∧
      (f s).2.stream.index ≤ s.stream.mData.bytes.length
  bounded : (f s).2.destination.length = s.destination.length ∨
    (f s).2.destination.length ≤ s.stream.mData.bytes.length

/-- A length that is read and that `resize` accepts is followed by as many bytes. -/
def LengthFits (input : List UInt8) : Prop :=
  marks input < 37 → marks input < input.length → decodedLength pf input ≤ pf.maxSize →
    decodedLength pf input ≤ input.length - (marks input + 1)

/-- Bytes that are left are read without leaving the data. -/
theorem index_skip_le {vs : VectorStream w} {k : Nat} (hpos : 0 < k)
    (hk : k ≤ vs.remaining.length) : (vs.skip k).index ≤ vs.mData.bytes.length := by
  rw [vs.skip_index hk]
  rw [VectorStream.remaining, List.length_drop] at hk
  omega

theorem atElement_keeps (i : Nat) (f : ReadingM w T Unit) (s : Reading w (List T)) :
    (atElement i f s).2.destination.length = s.destination.length := by
  unfold atElement
  split
  · exact List.length_set
  · rfl

/-- Whatever the reader of the elements does, the loop does not change the size. -/
theorem loop_keeps (f : ReadingM w T Unit) (i n : Nat) (s : Reading w (List T)) :
    (deserializeVectorInto.loop f i n s).2.destination.length = s.destination.length := by
  induction n generalizing i s with
  | zero => rfl
  | succ n ih =>
      have hkeeps := atElement_keeps i f s
      rw [deserializeVectorInto.loop]
      cases hat : atElement i f s with
      | mk r s' =>
          rw [hat] at hkeeps
          cases r with
          | error e => rw [Fallible.bind_error hat, hkeeps]
          | ok _ => rw [Fallible.bind_ok hat, ih, hkeeps]

/-- The bytes of a string replace those that the `resize` put there. -/
theorem copy_keeps (n : Nat) (s : Reading w (List UInt8)) (hsize : s.destination.length = n) :
    ((do
      let first ← onStream VectorStream.curr
      let bytes ← onStream (VectorStream.copy first n)
      store fun str => bytes ++ str.drop bytes.length
      onStream (VectorStream.advance (BitVec.ofNat w n)) : ReadingM w (List UInt8) Unit) s
        ).2.destination.length = n := by
  have hcurr : VectorStream.curr s.stream = .ok (s.stream.index, s.stream) := rfl
  rw [Fallible.bind_ok (onStream_ok hcurr)]
  cases hcopy : VectorStream.copy s.stream.index n s.stream with
  | error e => rw [Fallible.bind_error (onStream_error hcopy), hsize]
  | ok r =>
      obtain ⟨bytes, vs⟩ := r
      have hbytes : bytes.length ≤ n := by
        rw [VectorStream.copy] at hcopy
        split at hcopy
        · rw [← (Prod.mk.inj (Except.ok.inj hcopy)).1]
          exact List.length_take_le _ _
        · cases hcopy
      rw [Fallible.bind_ok (onStream_ok hcopy)]
      change (bytes ++ s.destination.drop bytes.length).length = n
      rw [List.length_append, List.length_drop, hsize]
      omega

/-- A reader that keeps the size after the `resize` checks its length on a stream,
whatever the destination holds, exactly if the length fits. -/
theorem checksLength_iff [Inhabited T] {g : UInt64 → ReadingM w (List T) Unit}
    (hkeeps : ∀ len s, toSize w len = len.toNat → s.destination.length = len.toNat →
      (g len s).2.destination.length = len.toNat) (vs : VectorStream w) :
    (∀ s, s.stream = vs → ChecksLength pf (do
        let len ← withLocal 0 (deserializeUInt64Into pf)
        resizeTo pf (toSize w len)
        g len) s) ↔ LengthFits pf vs.remaining := by
  constructor
  · intro hchecks hmarks hend hmax
    by_contra hfits
    have hread := (deserializeUInt64_ok_iff pf).mpr ⟨hmarks, hend, rfl, rfl⟩
    have hrest : (vs.skip (marks vs.remaining + 1)).remaining.length <
        decodedLength pf vs.remaining := by
      rw [vs.skip_remaining hend, List.length_drop]
      exact Nat.not_le.mp hfits
    have hsize := ((hchecks ⟨vs, [], []⟩ rfl).refuses _ _ hread hrest).2.1
    cases afterLength pf g ⟨vs, [], []⟩ with
    | failed hfail => cases hread.symm.trans hfail
    | refused hlen _ hlarge =>
        obtain ⟨rfl, _⟩ := Prod.mk.inj (Except.ok.inj (hread.symm.trans hlen))
        exact absurd hlarge (Nat.not_lt.mpr hmax)
    | resized hlen hwidth _ hout =>
        obtain ⟨rfl, _⟩ := Prod.mk.inj (Except.ok.inj (hread.symm.trans hlen))
        rw [hout, hkeeps _ _ hwidth (length_resized _ _)] at hsize
        change decodedLength pf vs.remaining = 0 at hsize
        omega
  · rintro hfits s rfl
    cases afterLength pf g s with
    | failed hfail _ hout =>
        constructor
        · intro len vs hread
          cases hread.symm.trans hfail
        · exact Or.inl (by rw [hout])
    | @refused len vs shifts hlen _ _ hout =>
        constructor
        · intro _ _ _ _
          obtain ⟨_, hend, _, rfl⟩ := (deserializeUInt64_ok_iff pf).mp hlen
          rw [hout]
          exact ⟨⟨.allocation, rfl, by decide⟩, rfl, index_skip_le (Nat.succ_pos _) hend⟩
        · exact Or.inl (by rw [hout])
    | @resized len vs shifts hlen hwidth hmax hout =>
        obtain ⟨hmarks, hend, hnum, rfl⟩ := (deserializeUInt64_ok_iff pf).mp hlen
        have hrest := s.stream.skip_remaining hend
        have hfit : len.toNat ≤ s.stream.remaining.length - (marks s.stream.remaining + 1) := by
          rw [hnum] at hmax ⊢
          exact hfits hmarks hend hmax
        constructor
        · intro len' vs' hread hless
          obtain ⟨rfl, rfl⟩ := Prod.mk.inj (Except.ok.inj (hlen.symm.trans hread))
          rw [hrest, List.length_drop] at hless
          omega
        · right
          rw [hout, hkeeps len _ hwidth (length_resized _ _)]
          have hdata : s.stream.remaining.length ≤ s.stream.mData.bytes.length := by
            rw [VectorStream.remaining, List.length_drop]
            omega
          omega

/-- Strings and lists of anything check the length on the streams on which the
length needs no check. -/
theorem length_checked_iff [Inhabited T] (deserialize : ReadingM w T Unit) (vs : VectorStream w) :
    ((∀ s, s.stream = vs → ChecksLength pf (deserializeStringInto pf) s) ↔
        LengthFits pf vs.remaining) ∧
      ((∀ s, s.stream = vs → ChecksLength pf (deserializeVectorInto pf deserialize) s) ↔
        LengthFits pf vs.remaining) := by
  constructor
  · refine checksLength_iff pf (fun len s hwidth hsize => ?_) vs
    rw [hwidth]
    exact copy_keeps len.toNat s hsize
  · refine checksLength_iff pf (fun len s _ hsize => ?_) vs
    rw [loop_keeps, hsize]

/-- A single byte that announces five: the string gets five bytes, and the copy
reads behind the data. -/
theorem short_string_resized :
    let s : Reading 32 (List UInt8) := ⟨.ofVector ⟨[5], by decide⟩, [], []⟩
    deserializeUInt64 armhf s.stream = .ok (5, s.stream.skip 1) ∧
      (s.stream.skip 1).remaining = [] ∧
      (deserializeStringInto armhf s).1 = .error .outOfBounds ∧
      (deserializeStringInto armhf s).2.destination = [0, 0, 0, 0, 0] ∧
      ¬ChecksLength armhf (deserializeStringInto armhf) s := by
  intro s
  have hread : deserializeUInt64 armhf s.stream = .ok (5, s.stream.skip 1) :=
    (deserializeUInt64_ok_iff _).mpr ⟨by decide, by decide, by decide, by decide⟩
  have hrest : (s.stream.skip 1).remaining = [] := by decide
  obtain ⟨shifts, hlocal⟩ := localLength_of_ok armhf (s := s) hread
  have hresize := resizeTo_of_le armhf (T := UInt8) (n := 5) (by decide)
    ⟨s.stream.skip 1, s.destination, shifts⟩
  have hrun : deserializeStringInto armhf s =
      (.error .outOfBounds, ⟨s.stream.skip 1, [0, 0, 0, 0, 0], shifts⟩) := by
    rw [deserializeStringInto, Fallible.bind_ok hlocal, show toSize 32 5 = 5 from rfl,
      Fallible.bind_ok hresize]
    rfl
  have hsize : (deserializeStringInto armhf s).2.destination = [0, 0, 0, 0, 0] := by
    rw [hrun]
  refine ⟨hread, hrest, by rw [hrun], hsize, fun hchecks => ?_⟩
  have hkept := (hchecks.refuses 5 _ hread (by rw [hrest]; decide)).2.1
  rw [hsize] at hkept
  exact absurd hkept (by decide)

end RaspiOrbSlam.Protocol
