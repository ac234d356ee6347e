import RaspiOrbSlam.Protocol.Vec3Lanes

/-!
# Reading back a packed point

The eight bytes give back the packed word, so reading a written point applies
`unpackVec3` to `packVec3`. Of a component in the packed exponent range the sign
and the upper mantissa bits survive; the exponents of `x` and `y` survive if
they are not negative.
-/

namespace RaspiOrbSlam.Protocol

open Foundation BitFields

variable {w : Nat}

/-- The packed points of the wire format. -/
def vec3 : WireParser Vec3 := do
  let b0 ← Parser.item .outOfBounds
  let b1 ← Parser.item .outOfBounds
  let b2 ← Parser.item .outOfBounds
  let b3 ← Parser.item .outOfBounds
  let b4 ← Parser.item .outOfBounds
  let b5 ← Parser.item .outOfBounds
  let b6 ← Parser.item .outOfBounds
  let b7 ← Parser.item .outOfBounds
  return unpackVec3 (b0.toUInt64 ||| b1.toUInt64 <<< 8 ||| b2.toUInt64 <<< 16 |||
    b3.toUInt64 <<< 24 ||| b4.toUInt64 <<< 32 ||| b5.toUInt64 <<< 40 |||
    b6.toUInt64 <<< 48 ||| b7.toUInt64 <<< 56)

theorem simulates_deserializeVec3 : Simulates (deserializeVec3 (w := w)) vec3 :=
  Simulates.get.bind fun _ => Simulates.get.bind fun _ => Simulates.get.bind fun _ =>
    Simulates.get.bind fun _ => Simulates.get.bind fun _ => Simulates.get.bind fun _ =>
      Simulates.get.bind fun _ => Simulates.get.bind fun _ => Simulates.pure _

/-- One more byte of a word, above the bytes that are already in place. -/
theorem or_byte_toNat {acc res : UInt64} {k : UInt64} (hk : k.toNat + 8 ≤ 64)
    (hacc : acc.toNat = res.toNat % 2 ^ k.toNat) :
    (acc ||| ((res >>> k) &&& 0xFF).toUInt8.toUInt64 <<< k).toNat =
      res.toNat % 2 ^ (k.toNat + 8) := by
  have hk' : k.toNat < 64 := by omega
  have hbyte : ((res >>> k) &&& 0xFF).toUInt8.toUInt64.toNat = res.toNat / 2 ^ k.toNat % 2 ^ 8 := by
    simp only [UInt8.toNat_toUInt64, UInt64.toNat_toUInt8, UInt64.toNat_and,
      UInt64.toNat_shiftRight, Nat.mod_eq_of_lt hk']
    exact shiftRight_and_byte _ _
  rw [UInt64.toNat_or, UInt64.toNat_shiftLeft, hbyte, Nat.mod_eq_of_lt hk', Nat.shiftLeft_eq,
    Nat.mod_eq_of_lt (byte_mul_lt _ hk), ← Nat.shiftLeft_eq, hacc, mod_or_byte]

theorem bytes_assemble (res : UInt64) :
    (res &&& 0xFF).toUInt8.toUInt64 ||| ((res >>> 8) &&& 0xFF).toUInt8.toUInt64 <<< 8 |||
        ((res >>> 16) &&& 0xFF).toUInt8.toUInt64 <<< 16 |||
        ((res >>> 24) &&& 0xFF).toUInt8.toUInt64 <<< 24 |||
        ((res >>> 32) &&& 0xFF).toUInt8.toUInt64 <<< 32 |||
        ((res >>> 40) &&& 0xFF).toUInt8.toUInt64 <<< 40 |||
        ((res >>> 48) &&& 0xFF).toUInt8.toUInt64 <<< 48 |||
        ((res >>> 56) &&& 0xFF).toUInt8.toUInt64 <<< 56 = res := by
  have h0 : (res &&& 0xFF).toUInt8.toUInt64.toNat = res.toNat % 2 ^ (8 : UInt64).toNat := by
    rw [UInt8.toNat_toUInt64, UInt64.toNat_toUInt8, UInt64.toNat_and]
    simpa using shiftRight_and_byte res.toNat 0
  have h1 := or_byte_toNat (k := 8) (by decide) h0
  have h2 := or_byte_toNat (k := 16) (by decide) h1
  have h3 := or_byte_toNat (k := 24) (by decide) h2
  have h4 := or_byte_toNat (k := 32) (by decide) h3
  have h5 := or_byte_toNat (k := 40) (by decide) h4
  have h6 := or_byte_toNat (k := 48) (by decide) h5
  have h7 := or_byte_toNat (k := 56) (by decide) h6
  apply UInt64.toNat_inj.mp
  rw [h7]
  exact Nat.mod_eq_of_lt res.toNat_lt

theorem serializeVec3_append (vec : Vec3) (out : List UInt8) :
    serializeVec3 vec out = out ++ serializeVec3 vec [] := rfl

/-- The bytes of a word, lowest first. -/
def wordBytes (res : UInt64) : List UInt8 :=
  [(res &&& 0xFF).toUInt8, ((res >>> 8) &&& 0xFF).toUInt8,
    ((res >>> 16) &&& 0xFF).toUInt8, ((res >>> 24) &&& 0xFF).toUInt8,
    ((res >>> 32) &&& 0xFF).toUInt8, ((res >>> 40) &&& 0xFF).toUInt8,
    ((res >>> 48) &&& 0xFF).toUInt8, ((res >>> 56) &&& 0xFF).toUInt8]

theorem serializeVec3_eq (v : Vec3) : serializeVec3 v [] = wordBytes (packVec3 v) := rfl

theorem yields_wordBytes (word : UInt64) :
    Parser.Yields vec3 (wordBytes word) (unpackVec3 word) := by
  intro rest
  change Except.ok (unpackVec3 _, rest) = _
  rw [bytes_assemble]

/-- What the reader makes of the eight bytes of a point. -/
theorem yields_vec3 (vec : Vec3) :
    Parser.Yields vec3 (serializeVec3 vec []) (unpackVec3 (packVec3 vec)) :=
  yields_wordBytes (packVec3 vec)

/-- The reader reads the eight bytes of a point to its packed word. -/
theorem deserializeVec3_serializeVec3 (v : Vec3) {vs : VectorStream w} {rest : List UInt8}
    (hvs : vs.remaining = serializeVec3 v [] ++ rest) :
    deserializeVec3 vs = .ok (unpackVec3 (packVec3 v), vs.skip 8) :=
  simulates_deserializeVec3.of_yields (yields_vec3 v) hvs

/-- A point that is read back has a property if the point of the packed word has it. -/
theorem exists_readBack_iff {v : Vec3} {vs : VectorStream w} {rest : List UInt8}
    (hvs : vs.remaining = serializeVec3 v [] ++ rest) (P : Vec3 → Prop) :
    (∃ v' vs', deserializeVec3 vs = .ok (v', vs') ∧ P v') ↔ P (unpackVec3 (packVec3 v)) := by
  rw [deserializeVec3_serializeVec3 v hvs]
  constructor
  · rintro ⟨v', vs', h, hv'⟩
    have heq : unpackVec3 (packVec3 v) = v' := congrArg Prod.fst (Except.ok.inj h)
    exact heq ▸ hv'
  · intro h
    exact ⟨_, _, rfl, h⟩

/-- Two patterns agree in all but the lowest eight mantissa bits. -/
structure SameUpperBits (u v : UInt32) : Prop where
  sign : signOf u = signOf v
  exponent : exponentOf u = exponentOf v
  mantissa : mantissaOf u = mantissaOf v

structure Vec3.SameUpperBits (v v' : Vec3) : Prop where
  x : Protocol.SameUpperBits v.x v'.x
  y : Protocol.SameUpperBits v.y v'.y
  z : Protocol.SameUpperBits v.z v'.z

/-- The exponent fits the five bits of the packed format. -/
def InPackedRange (u : UInt32) : Prop := 111 ≤ exponentOf u ∧ exponentOf u ≤ 142

theorem roundingBit_lt (v : Vec3) : roundingBit v < 2 := vote_lt 16 v

/-- The lanes and the rounding bit of a packed word. -/
theorem packVec3_lanes (v : Vec3) :
    (packVec3 v).toNat / 2 ^ 43 % 2 ^ 21 = laneOf v.x ∧
      (packVec3 v).toNat / 2 ^ 22 % 2 ^ 21 = laneOf v.y ∧
      (packVec3 v).toNat / 2 ^ 1 % 2 ^ 21 = laneOf v.z ∧
      (packVec3 v).toNat % 2 = roundingBit v := by
  have hx := laneOf_lt v.x
  have hy := laneOf_lt v.y
  have hz := laneOf_lt v.z
  have hr := roundingBit_lt v
  rw [packVec3_toNat]
  refine ⟨?_, ?_, ?_, ?_⟩ <;> omega

/-- The fields of a component that the reader has put together. -/
theorem widened_fields {u : UInt32} {lane e r : Nat} (hlane : lane < 2 ^ 21) (he : e < 2 ^ 8)
    (hr : r < 2) (hu : u.toNat = widened lane e r) :
    signOf u = lane / 2 ^ 20 ∧ exponentOf u = e ∧ mantissaOf u = lane % 2 ^ 15 := by
  have hs : lane / 2 ^ 20 < 2 := by omega
  have hm : lane % 2 ^ 15 < 2 ^ 15 := Nat.mod_lt _ (by decide)
  rw [signOf, exponentOf, mantissaOf, hu, widened]
  generalize lane / 2 ^ 20 = s at hs
  generalize lane % 2 ^ 15 = m at hm
  have hhigh : (s * 2 ^ 31 + e * 2 ^ 23 + m * 2 ^ 8 + 255 * r) / 2 ^ 23 = s * 2 ^ 8 + e := by
    omega
  have hlow : (s * 2 ^ 31 + e * 2 ^ 23 + m * 2 ^ 8 + 255 * r) / 2 ^ 8 =
      (s * 2 ^ 8 + e) * 2 ^ 15 + m := by
    omega
  rw [hhigh, hlow]
  omega

theorem laneExponent_laneOf (u : UInt32) : laneExponent (laneOf u) = (exponentOf u + 1) % 32 := by
  have hm : mantissaOf u < 2 ^ 15 := Nat.mod_lt _ (by decide)
  rw [laneExponent, laneOf]
  omega

/-- The fields of a lane are those of its component, the exponent reduced. -/
theorem laneOf_fields (u : UInt32) :
    laneOf u / 2 ^ 20 = signOf u ∧ laneExponent (laneOf u) = (exponentOf u + 1) % 32 ∧
      laneOf u % 2 ^ 15 = mantissaOf u := by
  have hu := u.toNat_lt
  have hm : mantissaOf u < 2 ^ 15 := Nat.mod_lt _ (by decide)
  have hsign : bit u.toNat 31 = signOf u := Nat.mod_eq_of_lt (by omega)
  refine ⟨?_, laneExponent_laneOf u, ?_⟩
  · rw [laneOf, hsign]
    omega
  · rw [laneOf]
    omega

/-- A component with a lane's sign and mantissa agrees with the lane's origin if
its exponent does. -/
theorem sameUpperBits_widened_iff {u v : UInt32} {e r : Nat} (he : e < 2 ^ 8) (hr : r < 2)
    (hu : u.toNat = widened (laneOf v) e r) :
    SameUpperBits u v ↔ e = exponentOf v := by
  obtain ⟨hs, he', hm⟩ := widened_fields (laneOf_lt v) he hr hu
  obtain ⟨hs', _, hm'⟩ := laneOf_fields v
  exact ⟨fun h => he' ▸ h.exponent, fun h => ⟨hs.trans hs', he'.trans h, hm.trans hm'⟩⟩

/-- A point in the packed range keeps its upper bits if the exponents of `x` and
`y` are not negative; `z` always keeps them. -/
theorem unpackVec3_packVec3_iff {v : Vec3} (hx : InPackedRange v.x) (hy : InPackedRange v.y)
    (hz : InPackedRange v.z) :
    (unpackVec3 (packVec3 v)).SameUpperBits v ↔
      127 ≤ exponentOf v.x ∧ 127 ≤ exponentOf v.y := by
  obtain ⟨hlx, hly, hlz, hr⟩ := packVec3_lanes v
  have hux := unpackVec3_x (packVec3 v)
  have huy := unpackVec3_y (packVec3 v)
  have huz := unpackVec3_z (packVec3 v)
  rw [hlx, hr] at hux
  rw [hly, hr] at huy
  rw [hlz, hr] at huz
  have hex := sameUpperBits_widened_iff (by rw [laneExponent]; omega) (roundingBit_lt v) hux
  have hey := sameUpperBits_widened_iff (by rw [laneExponent]; omega) (roundingBit_lt v) huy
  have hez := sameUpperBits_widened_iff (signedExponent_lt _) (roundingBit_lt v) huz
  rw [laneExponent_laneOf] at hex hey
  rw [signedExponent, laneExponent_laneOf] at hez
  unfold InPackedRange at hx hy hz
  have hz' : (224 * ((exponentOf v.z + 1) % 32 / 2 ^ 4) + (exponentOf v.z + 1) % 32 + 127) % 2 ^ 8 =
      exponentOf v.z := by
    rcases Nat.lt_or_ge (exponentOf v.z) 127 with h | h <;> omega
  constructor
  · intro h
    have hx' := hex.mp h.x
    have hy' := hey.mp h.y
    omega
  · intro h
    exact ⟨hex.mpr (by omega), hey.mpr (by omega), hez.mpr hz'⟩

/-- Which points in the packed range are read back from their eight bytes. -/
theorem vec3_readBack_iff {v : Vec3} (hx : InPackedRange v.x) (hy : InPackedRange v.y)
    (hz : InPackedRange v.z) {vs : VectorStream w} {rest : List UInt8}
    (hvs : vs.remaining = serializeVec3 v [] ++ rest) :
    (∃ v' vs', deserializeVec3 vs = .ok (v', vs') ∧ v'.SameUpperBits v) ↔
      127 ≤ exponentOf v.x ∧ 127 ≤ exponentOf v.y :=
  (exists_readBack_iff hvs _).trans (unpackVec3_packVec3_iff hx hy hz)

/-- The point `(1, -2, 0.5)`. -/
theorem vec3_readBack_one_minus_two_half :
    ∃ v' vs', deserializeVec3 (w := 32) (.ofVector
        ⟨serializeVec3 ⟨0x3F800000, 0xC0000000, 0x3F000000⟩ [], by decide⟩) = .ok (v', vs') ∧
      v'.SameUpperBits ⟨0x3F800000, 0xC0000000, 0x3F000000⟩ := by
  have hrem : (VectorStream.ofVector (w := 32)
      ⟨serializeVec3 ⟨0x3F800000, 0xC0000000, 0x3F000000⟩ [], by decide⟩).remaining =
        serializeVec3 ⟨0x3F800000, 0xC0000000, 0x3F000000⟩ [] ++ [] := by decide
  exact (vec3_readBack_iff (by unfold InPackedRange; decide) (by unfold InPackedRange; decide)
    (by unfold InPackedRange; decide) hrem).mpr ⟨by decide, by decide⟩

/-- The `x` component `0.5` comes back as `2 ^ 31`. -/
theorem vec3_half_misread :
    InPackedRange 0x3F000000 ∧ InPackedRange 0x3F800000 ∧
      (∃ vs', deserializeVec3 (w := 32) (.ofVector
          ⟨serializeVec3 ⟨0x3F000000, 0x3F800000, 0x3F800000⟩ [], by decide⟩) =
        .ok (⟨0x4F000000, 0x3F800000, 0x3F800000⟩, vs')) ∧
      exponentOf 0x4F000000 ≠ exponentOf 0x3F000000 :=
  ⟨by unfold InPackedRange; decide, by unfold InPackedRange; decide,
    ⟨⟨⟨serializeVec3 ⟨0x3F000000, 0x3F800000, 0x3F800000⟩ [], by decide⟩, 8, 0⟩, by decide⟩,
    by decide⟩

end RaspiOrbSlam.Protocol
