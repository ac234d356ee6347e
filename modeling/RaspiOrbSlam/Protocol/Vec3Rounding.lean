import RaspiOrbSlam.Protocol.Vec3Components
import Mathlib.Algebra.Order.Group.Abs
import Mathlib.Algebra.Order.Group.Int

/-!
# The rounding bit

The reader fills the eight dropped mantissa bits of all components with the
rounding bit. The writer votes on bit 16 of the patterns, which is a bit that it
keeps, while bit 7 is the first that it drops.
-/

namespace RaspiOrbSlam.Protocol

open Foundation BitFields

variable {w : Nat}

/-- The eight mantissa bits that the writer drops. -/
def droppedOf (u : UInt32) : Nat := u.toNat % 2 ^ 8

/-- The mantissa fields differ by half a quantization step at most. -/
def Near (u u' : UInt32) : Prop := |(fractionOf u' : Int) - fractionOf u| ≤ 128

def AtLeastTwo (P : Component → Prop) : Prop :=
  P .x ∧ P .y ∨ P .x ∧ P .z ∨ P .y ∧ P .z

theorem AtLeastTwo.mono {P Q : Component → Prop} (h : AtLeastTwo P) (hPQ : ∀ c, P c → Q c) :
    AtLeastTwo Q := by
  rcases h with ⟨h, h'⟩ | ⟨h, h'⟩ | ⟨h, h'⟩
  · exact Or.inl ⟨hPQ _ h, hPQ _ h'⟩
  · exact Or.inr (Or.inl ⟨hPQ _ h, hPQ _ h'⟩)
  · exact Or.inr (Or.inr ⟨hPQ _ h, hPQ _ h'⟩)

theorem atLeastTwo_congr {P Q : Component → Prop} (h : ∀ c, P c ↔ Q c) :
    AtLeastTwo P ↔ AtLeastTwo Q :=
  ⟨fun hP => hP.mono fun c => (h c).mp, fun hQ => hQ.mono fun c => (h c).mpr⟩

/-- The fill of a component that the dropped bits are rounded to. -/
def NearFill (fill : Nat) (u : UInt32) : Prop :=
  if fill = 1 then 127 ≤ droppedOf u else droppedOf u ≤ 128

theorem fractionOf_eq (u : UInt32) : fractionOf u = mantissaOf u * 2 ^ 8 + droppedOf u := by
  rw [fractionOf, mantissaOf, droppedOf]
  omega

theorem near_iff (v : Vec3) (c : Component) :
    Near (v.get c) ((unpackVec3 (packVec3 v)).get c) ↔ NearFill (roundingBit v) (v.get c) := by
  obtain ⟨_, _, _, hf⟩ := readBack_fields v c
  have hround := roundingBit_lt v
  have hdropped : droppedOf (v.get c) < 2 ^ 8 := Nat.mod_lt _ (by decide)
  rw [Near, hf, fractionOf_eq, abs_le, NearFill]
  split
  · omega
  · omega

/-- The vote of the first dropped bits has two components on its side. -/
theorem atLeastTwo_of_vote (v : Vec3) : AtLeastTwo fun c => NearFill (vote 7 v) (v.get c) := by
  have hbit (u : UInt32) : bit u.toNat 7 = droppedOf u / 2 ^ 7 := by
    rw [bit, droppedOf]
    omega
  have hnear (c : Component) (h : bit (v.get c).toNat 7 = vote 7 v) :
      NearFill (vote 7 v) (v.get c) := by
    rw [hbit] at h
    rw [NearFill]
    split
    · omega
    · have hlt := vote_lt 7 v
      omega
  have hx := bit_lt v.x.toNat 7
  have hy := bit_lt v.y.toNat 7
  have hz := bit_lt v.z.toNat 7
  have htwo : AtLeastTwo fun c => bit (v.get c).toNat 7 = vote 7 v := by
    change _ ∧ _ ∨ _ ∧ _ ∨ _ ∧ _
    simp only [Vec3.get, vote, majority]
    split <;> omega
  exact htwo.mono hnear

/-- What the rounding bit is good for: it is the vote of the first dropped bits
and brings two components near exactly if this vote agrees with the one taken;
two components are near exactly if two have dropped bits on the side of the vote
taken. -/
theorem vec3_rounding_iff {v : Vec3} {vs : VectorStream w} {rest : List UInt8}
    (hvs : vs.remaining = serializeVec3 v [] ++ rest) :
    ((packVec3 v).toNat % 2 = vote 7 v ∧ (∃ v' vs', deserializeVec3 vs = .ok (v', vs') ∧
        AtLeastTwo fun c => Near (v.get c) (v'.get c)) ↔ vote 16 v = vote 7 v) ∧
      ((∃ v' vs', deserializeVec3 vs = .ok (v', vs') ∧
          AtLeastTwo fun c => Near (v.get c) (v'.get c)) ↔
        AtLeastTwo fun c => NearFill (vote 16 v) (v.get c)) := by
  have hvote : roundingBit v = vote 16 v := rfl
  have hnear : (∃ v' vs', deserializeVec3 vs = .ok (v', vs') ∧
      AtLeastTwo fun c => Near (v.get c) (v'.get c)) ↔
        AtLeastTwo fun c => NearFill (vote 16 v) (v.get c) := by
    rw [exists_readBack_iff hvs, ← hvote]
    exact atLeastTwo_congr (near_iff v)
  refine ⟨?_, hnear⟩
  rw [hnear, packVec3_mod_two, hvote]
  refine ⟨fun h => h.1, fun h => ⟨h, ?_⟩⟩
  rw [h]
  exact atLeastTwo_of_vote v

/-- Two components have the bits 7 and 16 set, the third has neither. -/
theorem vec3_rounding_two_votes :
    let v : Vec3 := ⟨0x3F810080, 0xC00100C0, 0x3F000010⟩
    (packVec3 v).toNat % 2 = vote 7 v ∧
      ∃ v' vs', deserializeVec3 (w := 32) (.ofVector ⟨serializeVec3 v [], by decide⟩) =
          .ok (v', vs') ∧
        AtLeastTwo fun c => Near (v.get c) (v'.get c) := by
  intro v
  have hvs : (VectorStream.ofVector (w := 32) ⟨serializeVec3 v [], by decide⟩).remaining =
      serializeVec3 v [] ++ [] := by decide
  exact (vec3_rounding_iff hvs).1.mpr (by decide)

/-- All components have bit 16 set and nothing to drop: the fill moves them by 255 units. -/
theorem vec3_rounding_misvoted :
    let v : Vec3 := ⟨0x3F810000, 0x3F810000, 0x3F810000⟩
    let v' : Vec3 := ⟨0x3F8100FF, 0x3F8100FF, 0x3F8100FF⟩
    (∀ c, InPackedRange (v.get c)) ∧ vote 7 v = 0 ∧ (packVec3 v).toNat % 2 = 1 ∧
      (∃ vs', deserializeVec3 (w := 32) (.ofVector ⟨serializeVec3 v [], by decide⟩) =
        .ok (v', vs')) ∧
      (∀ c, fractionOf (v'.get c) = fractionOf (v.get c) + 255) ∧
      ¬AtLeastTwo fun c => Near (v.get c) (v'.get c) := by
  intro v v'
  have hfar (c : Component) : fractionOf (v'.get c) = fractionOf (v.get c) + 255 := by
    cases c <;> decide
  refine ⟨?_, by decide, by decide,
    ⟨⟨⟨serializeVec3 v [], by decide⟩, 8, 0⟩, by decide⟩, hfar, ?_⟩
  · intro c
    unfold InPackedRange
    cases c <;> decide
  · intro htwo
    have hnot (c : Component) : ¬Near (v.get c) (v'.get c) := by
      rw [Near, hfar, abs_le]
      omega
    rcases htwo with ⟨h, _⟩ | ⟨h, _⟩ | ⟨h, _⟩
    · exact hnot _ h
    · exact hnot _ h
    · exact hnot _ h

end RaspiOrbSlam.Protocol
