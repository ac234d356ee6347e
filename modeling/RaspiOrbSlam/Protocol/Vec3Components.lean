import RaspiOrbSlam.Protocol.Vec3RoundTrip

/-!
# The components of a packed point

Each component has a lane of 21 bits in the word. What the reader makes of a
component depends on its lane and on the shared rounding bit only, and a lane
depends on its component only: no field of one component reaches another.
-/

namespace RaspiOrbSlam.Protocol

open Foundation BitFields

variable {w : Nat}

inductive Component where
  | x
  | y
  | z
  deriving DecidableEq, Repr

def Vec3.get (v : Vec3) : Component → UInt32
  | .x => v.x
  | .y => v.y
  | .z => v.z

/-- The lowest bit of a component's lane. -/
def Component.place : Component → Nat
  | x => 43
  | y => 22
  | z => 1

/-- The 21 bits of a component's lane. -/
def Component.lane (c : Component) (word : UInt64) : Nat := word.toNat / 2 ^ c.place % 2 ^ 21

theorem Component.lane_lt (c : Component) (word : UInt64) : c.lane word < 2 ^ 21 :=
  Nat.mod_lt _ (by decide)

/-- The biased exponent that the reader computes from a lane. -/
def Component.exponent : Component → Nat → Nat
  | x, lane => laneExponent lane + 127
  | y, lane => laneExponent lane + 127
  | z, lane => signedExponent lane

theorem Component.exponent_lt (c : Component) (lane : Nat) : c.exponent lane < 2 ^ 8 := by
  have hlane : laneExponent lane < 2 ^ 5 := Nat.mod_lt _ (by decide)
  cases c with
  | x => change laneExponent lane + 127 < _; omega
  | y => change laneExponent lane + 127 < _; omega
  | z => exact signedExponent_lt lane

/-- The mantissa field of a pattern. -/
def fractionOf (u : UInt32) : Nat := u.toNat % 2 ^ 23

theorem unpackVec3_get (word : UInt64) (c : Component) :
    ((unpackVec3 word).get c).toNat =
      widened (c.lane word) (c.exponent (c.lane word)) (word.toNat % 2) := by
  cases c with
  | x => exact unpackVec3_x word
  | y => exact unpackVec3_y word
  | z => exact unpackVec3_z word

theorem lane_packVec3 (v : Vec3) (c : Component) : c.lane (packVec3 v) = laneOf (v.get c) := by
  obtain ⟨hx, hy, hz, _⟩ := packVec3_lanes v
  cases c with
  | x => exact hx
  | y => exact hy
  | z => exact hz

theorem packVec3_mod_two (v : Vec3) : (packVec3 v).toNat % 2 = roundingBit v :=
  (packVec3_lanes v).2.2.2

/-- The dropped bits of a component that the reader has put together are all alike. -/
theorem widened_fraction {u : UInt32} {lane e r : Nat} (hr : r < 2)
    (hu : u.toNat = widened lane e r) :
    fractionOf u = lane % 2 ^ 15 * 2 ^ 8 + 255 * r := by
  have hm : lane % 2 ^ 15 < 2 ^ 15 := Nat.mod_lt _ (by decide)
  rw [fractionOf, hu, widened]
  generalize lane / 2 ^ 20 = s
  generalize lane % 2 ^ 15 = m at hm
  omega

/-- The fields of a component that is read from a word. -/
theorem unpackVec3_fields (word : UInt64) (c : Component) :
    let u := (unpackVec3 word).get c
    signOf u = c.lane word / 2 ^ 20 ∧ exponentOf u = c.exponent (c.lane word) ∧
      mantissaOf u = c.lane word % 2 ^ 15 ∧
      fractionOf u = c.lane word % 2 ^ 15 * 2 ^ 8 + 255 * (word.toNat % 2) := by
  have hr : word.toNat % 2 < 2 := Nat.mod_lt _ (by decide)
  have hu := unpackVec3_get word c
  obtain ⟨hs, he, hm⟩ := widened_fields (c.lane_lt word) (c.exponent_lt _) hr hu
  exact ⟨hs, he, hm, widened_fraction hr hu⟩

/-- The fields that are read back for a component. -/
theorem readBack_fields (v : Vec3) (c : Component) :
    let u' := (unpackVec3 (packVec3 v)).get c
    signOf u' = signOf (v.get c) ∧ exponentOf u' = c.exponent (laneOf (v.get c)) ∧
      mantissaOf u' = mantissaOf (v.get c) ∧
      fractionOf u' = mantissaOf (v.get c) * 2 ^ 8 + 255 * roundingBit v := by
  intro u'
  obtain ⟨hs, he, hm, hf⟩ := unpackVec3_fields (packVec3 v) c
  obtain ⟨hs', _, hm'⟩ := laneOf_fields (v.get c)
  rw [lane_packVec3] at hs he hm hf
  rw [hs'] at hs
  rw [hm'] at hm hf
  rw [packVec3_mod_two] at hf
  exact ⟨hs, he, hm, hf⟩

/-- Equal lanes are read as components that agree but for the lowest eight bits,
and these are the copies of the rounding bit. -/
theorem sameUpperBits_of_lane_eq {word word' : UInt64} {c : Component}
    (h : c.lane word = c.lane word') :
    SameUpperBits ((unpackVec3 word).get c) ((unpackVec3 word').get c) ∧
      (word.toNat % 2 = word'.toNat % 2 → (unpackVec3 word).get c = (unpackVec3 word').get c) := by
  obtain ⟨hs, he, hm, _⟩ := unpackVec3_fields word c
  obtain ⟨hs', he', hm', _⟩ := unpackVec3_fields word' c
  refine ⟨⟨?_, ?_, ?_⟩, ?_⟩
  · rw [hs, hs', h]
  · rw [he, he', h]
  · rw [hm, hm', h]
  · intro hround
    apply UInt32.toNat_inj.mp
    rw [unpackVec3_get, unpackVec3_get, h, hround]

/-- Points that agree in two components have the same lanes for these, whatever
the third is, and are read as points that agree there but for the lowest eight
mantissa bits. -/
theorem components_independent (v v' : Vec3) (third : Component)
    (h : ∀ c, c ≠ third → v.get c = v'.get c) :
    (∀ c, c ≠ third → c.lane (packVec3 v) = c.lane (packVec3 v')) ∧
      ∀ (vs vs' : VectorStream w) (rest rest' : List UInt8),
        vs.remaining = serializeVec3 v [] ++ rest → vs'.remaining = serializeVec3 v' [] ++ rest' →
          ∃ u u', deserializeVec3 vs = .ok (u, vs.skip 8) ∧
            deserializeVec3 vs' = .ok (u', vs'.skip 8) ∧
            ∀ c, c ≠ third → SameUpperBits (u.get c) (u'.get c) ∧
              (roundingBit v = roundingBit v' → u.get c = u'.get c) := by
  have hlanes : ∀ c, c ≠ third → c.lane (packVec3 v) = c.lane (packVec3 v') := by
    intro c hc
    rw [lane_packVec3, lane_packVec3, h c hc]
  refine ⟨hlanes, ?_⟩
  intro vs vs' rest rest' hvs hvs'
  refine ⟨_, _, deserializeVec3_serializeVec3 v hvs, deserializeVec3_serializeVec3 v' hvs', ?_⟩
  intro c hc
  obtain ⟨hsame, hequal⟩ := sameUpperBits_of_lane_eq (hlanes c hc)
  rw [packVec3_mod_two, packVec3_mod_two] at hequal
  exact ⟨hsame, hequal⟩

/-- The points `(1, -2, 3)` and `(1, -2, NaN)`. -/
theorem components_independent_of_nan :
    let v : Vec3 := ⟨0x3F800000, 0xC0000000, 0x40400000⟩
    let v' : Vec3 := ⟨0x3F800000, 0xC0000000, 0x7FC00001⟩
    (∀ c, c ≠ Component.z → c.lane (packVec3 v) = c.lane (packVec3 v')) ∧
      ∃ u u', deserializeVec3 (w := 32) (.ofVector ⟨serializeVec3 v [], by decide⟩) =
            .ok (u, ⟨⟨serializeVec3 v [], by decide⟩, 8, 0⟩) ∧
          deserializeVec3 (w := 32) (.ofVector ⟨serializeVec3 v' [], by decide⟩) =
            .ok (u', ⟨⟨serializeVec3 v' [], by decide⟩, 8, 0⟩) ∧
          ∀ c, c ≠ Component.z → SameUpperBits (u.get c) (u'.get c) ∧
            (roundingBit v = roundingBit v' → u.get c = u'.get c) := by
  intro v v'
  have hagree : ∀ c, c ≠ Component.z → v.get c = v'.get c := by
    intro c hc
    cases c with
    | x => rfl
    | y => rfl
    | z => exact absurd rfl hc
  obtain ⟨hlanes, hreads⟩ := components_independent (w := 32) v v' .z hagree
  exact ⟨hlanes, hreads (.ofVector ⟨serializeVec3 v [], by decide⟩)
    (.ofVector ⟨serializeVec3 v' [], by decide⟩) [] [] (by decide) (by decide)⟩

end RaspiOrbSlam.Protocol
