import RaspiOrbSlam.Protocol.Vec3Components

/-!
# Packing a point that was read

Reading loses nothing of a word but the rounding bit, which the writer chooses
anew from three mantissa bits. The word of a written point holds just these
bits, so writing it again changes nothing.
-/

namespace RaspiOrbSlam.Protocol

open Foundation BitFields

variable {w : Nat}

/-- The writer puts the fields of a component that was read back into its lane. -/
theorem laneOf_unpackVec3 (word : UInt64) (c : Component) :
    laneOf ((unpackVec3 word).get c) = c.lane word := by
  obtain ⟨hs, he, hm, _⟩ := unpackVec3_fields word c
  have hlane := c.lane_lt word
  have hu := ((unpackVec3 word).get c).toNat_lt
  have hsign : bit ((unpackVec3 word).get c).toNat 31 = signOf ((unpackVec3 word).get c) :=
    Nat.mod_eq_of_lt (by omega)
  have hexp : (c.exponent (c.lane word) + 1) % 32 = laneExponent (c.lane word) := by
    cases c with
    | x | y =>
        change (laneExponent _ + 127 + 1) % 32 = _
        rw [laneExponent]
        omega
    | z =>
        change (signedExponent _ + 1) % 32 = _
        rw [signedExponent, laneExponent]
        omega
  rw [laneOf, hsign, hs, he, hm, hexp, laneExponent]
  omega

/-- The bit that a component contributes to the vote is the ninth mantissa bit it keeps. -/
theorem vote_eq (u : UInt32) : bit u.toNat 16 = mantissaOf u / 2 ^ 8 % 2 := by
  rw [bit, mantissaOf]
  omega

theorem bit_lane (word : UInt64) (c : Component) :
    bit word.toNat (c.place + 8) = c.lane word / 2 ^ 8 % 2 := by
  rw [bit, Component.lane, Nat.pow_add, ← Nat.div_div_eq_div_mul]
  generalize word.toNat / 2 ^ c.place = q
  omega

theorem vote_unpackVec3 (word : UInt64) (c : Component) :
    bit ((unpackVec3 word).get c).toNat 16 = bit word.toNat (c.place + 8) := by
  obtain ⟨_, _, hm, _⟩ := unpackVec3_fields word c
  rw [vote_eq, bit_lane, hm]
  omega

theorem vote_packVec3 (v : Vec3) (c : Component) :
    bit (packVec3 v).toNat (c.place + 8) = bit (v.get c).toNat 16 := by
  obtain ⟨_, _, hm⟩ := laneOf_fields (v.get c)
  rw [vote_eq, bit_lane, lane_packVec3, ← hm]
  omega

/-- A word is its three lanes and its lowest bit. -/
theorem word_eq_lanes (word : UInt64) :
    word.toNat = Component.x.lane word * 2 ^ 43 + Component.y.lane word * 2 ^ 22 +
      Component.z.lane word * 2 + word.toNat % 2 := by
  have hword := word.toNat_lt
  change _ = word.toNat / 2 ^ 43 % 2 ^ 21 * 2 ^ 43 + word.toNat / 2 ^ 22 % 2 ^ 21 * 2 ^ 22 +
    word.toNat / 2 ^ 1 % 2 ^ 21 * 2 + word.toNat % 2
  omega

/-- Packing what was read from a word: the lanes, and the vote of three bits of the word. -/
theorem packVec3_unpackVec3 (word : UInt64) :
    (packVec3 (unpackVec3 word)).toNat / 2 = word.toNat / 2 ∧
      (packVec3 (unpackVec3 word)).toNat % 2 =
        majority (bit word.toNat 51) (bit word.toNat 30) (bit word.toNat 9) := by
  have hlane (c : Component) : c.lane (packVec3 (unpackVec3 word)) = c.lane word := by
    rw [lane_packVec3, laneOf_unpackVec3]
  constructor
  · have hpacked := word_eq_lanes (packVec3 (unpackVec3 word))
    have hword := word_eq_lanes word
    rw [hlane, hlane, hlane] at hpacked
    omega
  · have hx := vote_unpackVec3 word .x
    have hy := vote_unpackVec3 word .y
    have hz := vote_unpackVec3 word .z
    change bit (unpackVec3 word).x.toNat 16 = bit word.toNat 51 at hx
    change bit (unpackVec3 word).y.toNat 16 = bit word.toNat 30 at hy
    change bit (unpackVec3 word).z.toNat 16 = bit word.toNat 9 at hz
    rw [packVec3_mod_two, roundingBit, vote, hx, hy, hz]

/-- The packed word of a point is a fixed point of reading and packing. -/
theorem packVec3_stable (v : Vec3) : packVec3 (unpackVec3 (packVec3 v)) = packVec3 v := by
  obtain ⟨hupper, hlow⟩ := packVec3_unpackVec3 (packVec3 v)
  have hx := vote_packVec3 v .x
  have hy := vote_packVec3 v .y
  have hz := vote_packVec3 v .z
  change bit (packVec3 v).toNat 51 = bit v.x.toNat 16 at hx
  change bit (packVec3 v).toNat 30 = bit v.y.toNat 16 at hy
  change bit (packVec3 v).toNat 9 = bit v.z.toNat 16 at hz
  have hround : majority (bit v.x.toNat 16) (bit v.y.toNat 16) (bit v.z.toNat 16) =
      (packVec3 v).toNat % 2 := (packVec3_mod_two v).symm
  rw [hx, hy, hz, hround] at hlow
  apply UInt64.toNat_inj.mp
  omega

/-- What packing makes of a point that was read from a word, and of a point that
was read from the bytes of a point. -/
theorem vec3_reencoded :
    (∀ (word : UInt64) (vs : VectorStream w) (rest : List UInt8),
        vs.remaining = wordBytes word ++ rest →
          ∃ v word', deserializeVec3 vs = .ok (v, vs.skip 8) ∧
            serializeVec3 v [] = wordBytes word' ∧
            (∀ i, 1 ≤ i → i < 64 → bit word'.toNat i = bit word.toNat i) ∧
            bit word'.toNat 0 =
              majority (bit word.toNat 51) (bit word.toNat 30) (bit word.toNat 9)) ∧
      ∀ (v : Vec3) (vs : VectorStream w) (rest : List UInt8),
        vs.remaining = serializeVec3 v [] ++ rest →
          ∃ v', deserializeVec3 vs = .ok (v', vs.skip 8) ∧
            serializeVec3 v' [] = serializeVec3 v [] := by
  constructor
  · intro word vs rest hvs
    obtain ⟨hupper, hlow⟩ := packVec3_unpackVec3 word
    refine ⟨unpackVec3 word, packVec3 (unpackVec3 word), ?_, serializeVec3_eq _, ?_, ?_⟩
    · exact simulates_deserializeVec3.of_yields (yields_wordBytes word) hvs
    · intro i hi _
      obtain ⟨j, rfl⟩ := Nat.exists_eq_add_of_le hi
      rw [bit, bit, Nat.pow_add, ← Nat.div_div_eq_div_mul, ← Nat.div_div_eq_div_mul, Nat.pow_one,
        hupper]
    · rw [bit, Nat.pow_zero, Nat.div_one, hlow]
  · intro v vs rest hvs
    refine ⟨_, deserializeVec3_serializeVec3 v hvs, ?_⟩
    rw [serializeVec3_eq, packVec3_stable, serializeVec3_eq]

/-- A word with all bits set but the lowest, and the point `(0, NaN, -0)`. -/
theorem vec3_reencoded_all_ones :
    (∃ v word', deserializeVec3 (w := 32) (.ofVector ⟨wordBytes 0xFFFFFFFFFFFFFFFE, by decide⟩) =
          .ok (v, ⟨⟨wordBytes 0xFFFFFFFFFFFFFFFE, by decide⟩, 8, 0⟩) ∧
        serializeVec3 v [] = wordBytes word' ∧ bit word'.toNat 0 = 1) ∧
      ∃ v', deserializeVec3 (w := 32) (.ofVector
            ⟨serializeVec3 ⟨0, 0x7FC00001, 0x80000000⟩ [], by decide⟩) =
          .ok (v', ⟨⟨serializeVec3 ⟨0, 0x7FC00001, 0x80000000⟩ [], by decide⟩, 8, 0⟩) ∧
        serializeVec3 v' [] = serializeVec3 ⟨0, 0x7FC00001, 0x80000000⟩ [] := by
  obtain ⟨hwords, hpoints⟩ := vec3_reencoded (w := 32)
  obtain ⟨v, word', hread, hbytes, _, hbit⟩ := hwords 0xFFFFFFFFFFFFFFFE
    (.ofVector ⟨wordBytes 0xFFFFFFFFFFFFFFFE, by decide⟩) [] (by decide)
  refine ⟨⟨v, word', hread, hbytes, hbit.trans (by decide)⟩, ?_⟩
  exact hpoints ⟨0, 0x7FC00001, 0x80000000⟩
    (.ofVector ⟨serializeVec3 ⟨0, 0x7FC00001, 0x80000000⟩ [], by decide⟩) [] (by decide)

end RaspiOrbSlam.Protocol
