import RaspiOrbSlam.Protocol.Destination

/-!
# Filling in and returning

The readers that fill in a destination agree with those that return their
object: `Fills` relates the two for every start, and a reader of elements that
is so related makes a reader of lists that is.
-/

namespace RaspiOrbSlam.Protocol

open Foundation Reading

variable {w : Nat} (pf : Platform w) {δ T : Type}

/-- From the state `s`, `f` stores what `g` returns and fails as `g` fails. -/
def FillsAt (f : ReadingM w δ Unit) (g : StreamM w δ) (s : Reading w δ) : Prop :=
  (∃ d vs shifts, g s.stream = .ok (d, vs) ∧ f s = (.ok (), ⟨vs, d, shifts⟩)) ∨
  ∃ e s', g s.stream = .error e ∧ f s = (.error e, s')

/-- The reader that fills in refines the reader that returns. -/
def Fills (f : ReadingM w δ Unit) (g : StreamM w δ) : Prop := ∀ s, FillsAt f g s

theorem fills_deserializeUInt64Into :
    Fills (deserializeUInt64Into pf (w := w)) (deserializeUInt64 pf) := by
  intro s
  have hends := deserializeUInt64Into_ends pf s
  cases hread : deserializeUInt64 pf s.stream with
  | error e =>
      refine Or.inr ⟨e, (deserializeUInt64Into pf s).2, hread, Prod.ext ?_ rfl⟩
      rw [hends.outcome, hread]
      rfl
  | ok r =>
      obtain ⟨hnum, hvs⟩ := hends.returned r.1 r.2 hread
      refine Or.inl ⟨r.1, r.2, (deserializeUInt64Into pf s).2.shifts, hread, Prod.ext ?_ ?_⟩
      · rw [hends.outcome, hread]
        rfl
      · rw [← hnum, ← hvs]

/-- A reader that starts with a length refines another one if what follows the
`resize` does. -/
theorem fills_afterLength [Inhabited T] {g : UInt64 → ReadingM w (List T) Unit}
    {h : UInt64 → StreamM w (List T)}
    (hfills : ∀ len list vs shifts, toSize w len = len.toNat → list.length = len.toNat →
      FillsAt (g len) (h len) ⟨vs, list, shifts⟩) :
    Fills (do
        let len ← withLocal 0 (deserializeUInt64Into pf)
        resizeTo pf (toSize w len)
        g len)
      (do
        let len ← deserializeUInt64 pf
        resize pf (toSize w len)
        h len) := by
  intro s
  cases afterLength pf g s with
  | failed hread _ hout => exact Or.inr ⟨_, _, StreamM.bind_error hread, hout⟩
  | @refused len vs shifts hread hsize hlen hout =>
      refine Or.inr ⟨.allocation, _, ?_, hout⟩
      rw [StreamM.bind_ok hread, resize, if_pos hsize]
      rfl
  | @resized len vs shifts hread hsize hlen hout =>
      have hlist := length_resized s.destination len.toNat
      have hread : (do
          let len ← deserializeUInt64 pf
          resize pf (toSize w len)
          h len) s.stream = h len vs := by
        rw [StreamM.bind_ok hread, resize, if_neg (by omega)]
        rfl
      rw [FillsAt, hout, hread]
      exact hfills len _ vs shifts hsize hlist

theorem fills_deserializeStringInto :
    Fills (deserializeStringInto pf (w := w)) (deserializeString pf) := by
  apply fills_afterLength pf
  intro len list vs shifts hsize hlist
  have hcurr : VectorStream.curr vs = .ok (vs.index, vs) := rfl
  rw [FillsAt, StreamM.bind_ok hcurr, Fallible.bind_ok (onStream_ok hcurr), hsize]
  by_cases hcopy : len.toNat ≤ vs.mData.bytes.length - vs.index
  · have hbytes : VectorStream.copy vs.index len.toNat vs =
        .ok ((vs.mData.bytes.drop vs.index).take len.toNat, vs) := if_pos hcopy
    have hlen : ((vs.mData.bytes.drop vs.index).take len.toNat).length = list.length := by
      rw [List.length_take_of_le (by rwa [List.length_drop]), hlist]
    rw [StreamM.bind_ok hbytes, Fallible.bind_ok (onStream_ok hbytes)]
    refine Or.inl ⟨_, _, shifts, rfl, ?_⟩
    rw [hlen]
    change (_, Reading.mk _ (_ ++ list.drop list.length) _) = _
    rw [List.drop_length, List.append_nil]
  · have hbytes : VectorStream.copy vs.index len.toNat vs = .error .outOfBounds := if_neg hcopy
    rw [StreamM.bind_error hbytes, Fallible.bind_error (onStream_error hbytes)]
    exact Or.inr ⟨_, _, rfl, rfl⟩

theorem atElement_length (f : ReadingM w T Unit) (done todo : List T) (element : T)
    (vs : VectorStream w) (shifts : List Nat) :
    atElement done.length f ⟨vs, done ++ element :: todo, shifts⟩ =
      let r := f ⟨vs, element, shifts⟩
      (r.1, ⟨r.2.stream, done ++ r.2.destination :: todo, r.2.shifts⟩) := by
  simp [atElement]

/-- The loop puts the elements that are read in the place of those behind `done`. -/
theorem fills_loop {f : ReadingM w T Unit} {g : StreamM w T} (hfills : Fills f g)
    (done todo : List T) (vs : VectorStream w) (shifts : List Nat) :
    (∃ read vs' shifts', times g todo.length vs = .ok (read, vs') ∧
      deserializeVectorInto.loop f done.length todo.length ⟨vs, done ++ todo, shifts⟩ =
        (.ok (), ⟨vs', done ++ read, shifts'⟩)) ∨
    ∃ e s', times g todo.length vs = .error e ∧
      deserializeVectorInto.loop f done.length todo.length ⟨vs, done ++ todo, shifts⟩ =
        (.error e, s') := by
  induction todo generalizing done vs shifts with
  | nil => exact Or.inl ⟨[], vs, shifts, rfl, rfl⟩
  | cons element todo ih =>
      have hat := atElement_length f done todo element vs shifts
      rcases hfills ⟨vs, element, shifts⟩ with ⟨d, vs', shifts', hg, hf⟩ | ⟨e, s', hg, hf⟩
      · rw [hf] at hat
        have hnext := ih (done ++ [d]) vs' shifts'
        simp only [List.length_append, List.length_singleton, List.append_assoc,
          List.singleton_append] at hnext
        rw [List.length_cons, deserializeVectorInto.loop, Fallible.bind_ok hat, times,
          StreamM.bind_ok hg]
        rcases hnext with ⟨read, vs'', shifts'', htimes, hloop⟩ | ⟨e, s', htimes, hloop⟩
        · exact Or.inl ⟨d :: read, vs'', shifts'', StreamM.bind_ok htimes, hloop⟩
        · exact Or.inr ⟨e, s', StreamM.bind_error htimes, hloop⟩
      · rw [hf] at hat
        exact Or.inr ⟨e, _, StreamM.bind_error hg, Fallible.bind_error hat⟩

theorem fills_deserializeVectorInto [Inhabited T] {f : ReadingM w T Unit} {g : StreamM w T}
    (hfills : Fills f g) : Fills (deserializeVectorInto pf f) (deserializeVector pf g) := by
  apply fills_afterLength pf
  intro len list vs shifts hsize hlist
  have hnone : ¬toSize w len < len.toNat := by omega
  simp only [hnone, if_false, bind_pure, FillsAt]
  rw [hsize, ← hlist]
  exact fills_loop hfills [] list vs shifts

end RaspiOrbSlam.Protocol
