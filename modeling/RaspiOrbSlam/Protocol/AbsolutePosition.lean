import RaspiOrbSlam.Protocol.Serializer

/-!
# The absolute position

Position and shadow offset are rebased against each other, and only their sum
decides what is read. Calls on a stream therefore read the same bytes without
any change of the shadow offset, those of nested objects included.
-/

namespace RaspiOrbSlam.Protocol

open Foundation

variable {w : Nat} {α γ : Type}

/-- Calls on a stream, one after another. -/
inductive Calls (w : Nat) where
  | none
  | get
  | advance (n : BitVec w)
  | setShadowOffset (offset : BitVec w)
  /-- `Serializer::deserialize(Serializable*)` of an object that makes these calls. -/
  | object (deserialize : Calls w)
  | seq (first second : Calls w)

namespace Calls

/-- The bytes that `get` returns. -/
def run : Calls w → StreamM w (List UInt8)
  | none => return []
  | get => do
      let b ← VectorStream.get
      return [b]
  | advance n => do
      VectorStream.advance n
      return []
  | setShadowOffset offset => do
      let _ ← VectorStream.setShadowOffset offset
      return []
  | object deserialize => deserializeObject (some deserialize.run)
  | seq first second => do
      let bytes ← first.run
      let more ← second.run
      return bytes ++ more

/-- The same calls without any of `setShadowOffset`. -/
def withoutOffsets : Calls w → Calls w
  | none => none
  | get => get
  | advance n => advance n
  | setShadowOffset _ => none
  | object deserialize => deserialize.withoutOffsets
  | seq first second => seq first.withoutOffsets second.withoutOffsets

/-- The bytes that `get` and `advance` consume, as a `size_t`. -/
def consumed : Calls w → BitVec w
  | none => 0
  | get => 1
  | advance n => n
  | setShadowOffset _ => 0
  | object deserialize => deserialize.consumed
  | seq first second => first.consumed + second.consumed

end Calls

namespace VectorStream

/-- `mShadowOffset + mPosition`. -/
def absolute (vs : VectorStream w) : BitVec w := vs.mShadowOffset + vs.mPosition

/-- The stream at the same place with the shadow offset zero. -/
def rebased (vs : VectorStream w) : VectorStream w :=
  { vs with mShadowOffset := 0, mPosition := vs.absolute }

/-- A change of the shadow offset keeps the place. -/
theorem rebased_eq (vs : VectorStream w) (offset : BitVec w) :
    VectorStream.rebased { vs with
      mShadowOffset := offset
      mPosition := vs.mPosition - (offset - vs.mShadowOffset) } = vs.rebased := by
  simp only [rebased, absolute]
  congr 1
  abel

end VectorStream

/-- `f` does on every stream what `g` does on the same stream with the shadow
offset zero. -/
def Rebases (f g : StreamM w α) : Prop :=
  ∀ vs, g vs.rebased = (f vs).map fun r => (r.1, r.2.rebased)

namespace Rebases

theorem pure (a : α) : Rebases (pure a : StreamM w α) (pure a) := fun _ => rfl

theorem bind {f g : StreamM w α} {k l : α → StreamM w γ} (hf : Rebases f g)
    (hk : ∀ a, Rebases (k a) (l a)) : Rebases (f >>= k) (g >>= l) := by
  intro vs
  have hg := hf vs
  cases hrun : f vs with
  | error e =>
      rw [hrun] at hg
      rw [StreamM.bind_error hrun, StreamM.bind_error hg]
      rfl
  | ok r =>
      rw [hrun] at hg
      rw [StreamM.bind_ok hrun, StreamM.bind_ok hg]
      exact hk r.1 r.2

/-- The values and the faults are the same. -/
theorem map_fst {f g : StreamM w α} (hf : Rebases f g) (vs : VectorStream w) :
    (g vs.rebased).map Prod.fst = (f vs).map Prod.fst := by
  rw [hf vs]
  cases f vs <;> rfl

theorem get : Rebases (VectorStream.get (w := w)) VectorStream.get := by
  intro vs
  have hat : vs.rebased.at? vs.rebased.mPosition = vs.at? vs.mPosition := by
    simp [VectorStream.at?, VectorStream.rebased, VectorStream.absolute]
  unfold VectorStream.get
  rw [hat]
  cases vs.at? vs.mPosition with
  | none => rfl
  | some b => simp [Except.map, VectorStream.rebased, VectorStream.absolute, BitVec.add_assoc]

theorem advance (n : BitVec w) : Rebases (VectorStream.advance n) (VectorStream.advance n) := by
  intro vs
  simp [VectorStream.advance, Except.map, VectorStream.rebased, VectorStream.absolute,
    BitVec.add_assoc]

theorem setShadowOffset_bind {k : BitVec w → StreamM w α} {g : StreamM w α} (offset : BitVec w)
    (hk : ∀ old, Rebases (k old) g) : Rebases (VectorStream.setShadowOffset offset >>= k) g := by
  intro vs
  rw [← vs.rebased_eq offset]
  exact hk vs.mShadowOffset _

theorem position_bind {k : BitVec w → StreamM w α} {g : StreamM w α}
    (hk : ∀ pos, Rebases (k pos) g) : Rebases (VectorStream.position >>= k) g :=
  fun vs => hk vs.mPosition vs

/-- A nested object reads what its own reader reads. -/
theorem object {f g : StreamM w α} (hf : Rebases f g) :
    Rebases (deserializeObject (some f)) g := by
  apply position_bind
  intro pos
  apply setShadowOffset_bind
  intro old
  rw [← bind_pure g]
  apply hf.bind
  intro obj
  exact setShadowOffset_bind old fun _ => Rebases.pure obj

end Rebases

/-- Where `f` ends, the absolute position has moved over `n` bytes. -/
def Advances (f : StreamM w α) (n : BitVec w) : Prop :=
  ∀ vs a vs', f vs = .ok (a, vs') → vs'.absolute = vs.absolute + n

namespace Advances

theorem pure (a : α) : Advances (pure a : StreamM w α) 0 := by
  intro vs b vs' h
  cases h
  rw [add_zero]

theorem bind {f : StreamM w α} {k : α → StreamM w γ} {m n : BitVec w} (hf : Advances f m)
    (hk : ∀ a, Advances (k a) n) : Advances (f >>= k) (m + n) := by
  intro vs c vs'' h
  cases hrun : f vs with
  | error e =>
      rw [StreamM.bind_error hrun] at h
      cases h
  | ok r =>
      rw [StreamM.bind_ok hrun] at h
      rw [hk r.1 r.2 c vs'' h, hf vs r.1 r.2 hrun, BitVec.add_assoc]

theorem bind_pure {f : StreamM w α} {n : BitVec w} (hf : Advances f n) (g : α → γ) :
    Advances (do return g (← f)) n := by
  have hbind := hf.bind fun a => pure (g a)
  rwa [add_zero] at hbind

theorem get : Advances (VectorStream.get (w := w)) 1 := by
  intro vs b vs' h
  unfold VectorStream.get at h
  cases hat : vs.at? vs.mPosition with
  | none =>
      rw [hat] at h
      cases h
  | some c =>
      rw [hat] at h
      cases h
      exact (BitVec.add_assoc ..).symm

theorem advance (n : BitVec w) : Advances (VectorStream.advance n) n := by
  intro vs a vs' h
  cases h
  exact (BitVec.add_assoc ..).symm

theorem setShadowOffset (offset : BitVec w) :
    Advances (VectorStream.setShadowOffset offset) 0 := by
  intro vs old vs' h
  cases h
  have hplace := congrArg VectorStream.mPosition (vs.rebased_eq offset)
  rw [add_zero]
  exact hplace

theorem position : Advances (VectorStream.position (w := w)) 0 := by
  intro vs pos vs' h
  cases h
  rw [add_zero]

theorem object {f : StreamM w α} {n : BitVec w} (hf : Advances f n) :
    Advances (deserializeObject (some f)) n := by
  have hsum : n = 0 + (0 + (n + 0)) := by simp
  rw [hsum]
  exact position.bind fun pos => (setShadowOffset pos).bind fun old => hf.bind fun obj =>
    (setShadowOffset old).bind_pure fun _ => obj

end Advances

namespace Calls

theorem rebases_run (calls : Calls w) : Rebases calls.run calls.withoutOffsets.run := by
  induction calls with
  | none => exact Rebases.pure []
  | get => exact Rebases.get.bind fun b => Rebases.pure [b]
  | advance n => exact (Rebases.advance n).bind fun _ => Rebases.pure []
  | setShadowOffset offset => exact Rebases.setShadowOffset_bind offset fun _ => Rebases.pure []
  | object deserialize ih => exact ih.object
  | seq first second ihf ihs =>
      exact ihf.bind fun bytes => ihs.bind fun more => Rebases.pure (bytes ++ more)

theorem advances_run (calls : Calls w) : Advances calls.run calls.consumed := by
  induction calls with
  | none => exact Advances.pure []
  | get => exact Advances.get.bind_pure fun b => [b]
  | advance n => exact (Advances.advance n).bind_pure fun _ => []
  | setShadowOffset offset => exact (Advances.setShadowOffset offset).bind_pure fun _ => []
  | object deserialize ih => exact ih.object
  | seq first second ihf ihs => exact ihf.bind fun bytes => ihs.bind_pure fun more => bytes ++ more

@[simp] theorem withoutOffsets_withoutOffsets (calls : Calls w) :
    calls.withoutOffsets.withoutOffsets = calls.withoutOffsets := by
  induction calls with
  | none | get | advance | setShadowOffset => rfl
  | object deserialize ih => exact ih
  | seq first second ihf ihs => rw [withoutOffsets, withoutOffsets, ihf, ihs]

/-- Every run moves the absolute position over the bytes that it consumes, and
it returns the bytes, or ends with the fault, of the run without a change of the
shadow offset. -/
theorem run_absolute (calls : Calls w) (vs : VectorStream w) :
    (∀ bytes vs', calls.run vs = .ok (bytes, vs') →
      vs'.mShadowOffset + vs'.mPosition = vs.mShadowOffset + vs.mPosition + calls.consumed) ∧
      (calls.run vs).map Prod.fst = (calls.withoutOffsets.run vs).map Prod.fst := by
  refine ⟨fun bytes vs' => calls.advances_run vs bytes vs', ?_⟩
  have herased := calls.withoutOffsets.rebases_run.map_fst vs
  rw [withoutOffsets_withoutOffsets] at herased
  rw [← calls.rebases_run.map_fst vs, herased]

end Calls

end RaspiOrbSlam.Protocol
