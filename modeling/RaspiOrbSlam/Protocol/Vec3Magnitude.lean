import RaspiOrbSlam.Foundation.BinaryFormat
import RaspiOrbSlam.Protocol.Vec3Components

/-!
# Magnitudes outside the packed range

The writer keeps five bits of each exponent and refuses nothing. An exponent
outside the packed range is reduced modulo 32 and comes back as one inside it,
so that very small and very large components come back with another magnitude.
-/

namespace RaspiOrbSlam.Protocol

open Foundation

variable {w : Nat}

/-- The format of `float`. -/
def binary32 : BinaryFormat := ⟨8, 23⟩

/-- The magnitude of a pattern, infinity included; a NaN has none. -/
def magnitudeOf (u : UInt32) : Option (WithTop ℚ) :=
  binary32.magnitude? (exponentOf u) (fractionOf u)

/-- A power of two as a magnitude. -/
def twoPow (k : Int) : WithTop ℚ := ((2 ^ k : ℚ) : WithTop ℚ)

/-- The component `u'` that is read back for `u` is small if `u` is too small for
the packed range, and large with the sign of `u` if `u` is too large for it. -/
structure KeepsMagnitude (u u' : UInt32) : Prop where
  small : ∀ q, magnitudeOf u = some q → q < twoPow (-16) →
    ∃ q', magnitudeOf u' = some q' ∧ q' < twoPow (-15)
  large : ∀ q, magnitudeOf u = some q → twoPow 16 ≤ q →
    ∃ q', magnitudeOf u' = some q' ∧ twoPow 15 ≤ q' ∧ signOf u' = signOf u

def IsNaN (u : UInt32) : Prop := exponentOf u = 255 ∧ fractionOf u ≠ 0

theorem exponentOf_lt (u : UInt32) : exponentOf u < 2 ^ 8 := Nat.mod_lt _ (by decide)

theorem fractionOf_lt (u : UInt32) : fractionOf u < 2 ^ 23 := Nat.mod_lt _ (by decide)

theorem magnitudeOf_eq_none_iff (u : UInt32) : magnitudeOf u = none ↔ IsNaN u :=
  binary32.magnitude_eq_none_iff

theorem exists_magnitude {u : UInt32} (h : ¬IsNaN u) : ∃ q, magnitudeOf u = some q :=
  Option.ne_none_iff_exists'.mp (mt (magnitudeOf_eq_none_iff u).mp h)

/-- A magnitude is below the power of two with exponent field `n` if its field is. -/
theorem magnitudeOf_lt_iff {u : UInt32} {q : WithTop ℚ} (hq : magnitudeOf u = some q) {n : Nat}
    (hn : 1 ≤ n) (hmax : n ≤ 255) {k : Int} (hk : k = n - 127) :
    q < twoPow k ↔ exponentOf u < n := by
  have hpower : twoPow k = binary32.power n := by
    rw [hk]
    rfl
  rw [hpower]
  exact binary32.magnitude_lt_power_iff (fractionOf_lt u) hn hmax hq

/-- What the reader must make of the exponent field of `u`. -/
theorem keepsMagnitude_iff {u u' : UInt32} (hsign : signOf u' = signOf u)
    (hfinite : exponentOf u' < 255) :
    KeepsMagnitude u u' ↔
      (exponentOf u < 111 → exponentOf u' < 112) ∧
        (143 ≤ exponentOf u → ¬IsNaN u → 142 ≤ exponentOf u') := by
  have hnot : ¬IsNaN u' := fun h => absurd h.1 (Nat.ne_of_lt hfinite)
  obtain ⟨q', hq'⟩ := exists_magnitude hnot
  have hsmall' := magnitudeOf_lt_iff hq' (n := 112) (by decide) (by decide) (k := -15) rfl
  have hlarge' := magnitudeOf_lt_iff hq' (n := 142) (by decide) (by decide) (k := 15) rfl
  constructor
  · intro h
    constructor
    · intro he
      have hnan : ¬IsNaN u := fun hnan => absurd hnan.1 (by omega)
      obtain ⟨q, hq⟩ := exists_magnitude hnan
      have hlt := (magnitudeOf_lt_iff hq (n := 111) (by decide) (by decide) (k := -16) rfl).mpr he
      obtain ⟨r, hr, hr'⟩ := h.small q hq hlt
      rw [hq', Option.some.injEq] at hr
      exact hsmall'.mp (hr ▸ hr')
    · intro he hnan
      obtain ⟨q, hq⟩ := exists_magnitude hnan
      have hiff := magnitudeOf_lt_iff hq (n := 143) (by decide) (by decide) (k := 16) rfl
      have hge : twoPow 16 ≤ q := not_lt.mp (mt hiff.mp (by omega))
      obtain ⟨r, hr, hr', _⟩ := h.large q hq hge
      rw [hq', Option.some.injEq] at hr
      exact not_lt.mp (mt hlarge'.mpr (not_lt.mpr (hr ▸ hr')))
  · rintro ⟨hsmall, hlarge⟩
    constructor
    · intro q hq hlt
      have he := (magnitudeOf_lt_iff hq (n := 111) (by decide) (by decide) (k := -16) rfl).mp hlt
      exact ⟨q', hq', hsmall'.mpr (hsmall he)⟩
    · intro q hq hge
      have hiff := magnitudeOf_lt_iff hq (n := 143) (by decide) (by decide) (k := 16) rfl
      have he : 143 ≤ exponentOf u := not_lt.mp (mt hiff.mpr (not_lt.mpr hge))
      have hnan : ¬IsNaN u := fun hnan => by
        rw [(magnitudeOf_eq_none_iff u).mpr hnan] at hq
        cases hq
      exact ⟨q', hq', not_lt.mp (mt hlarge'.mp (not_lt.mpr (hlarge he hnan))), hsign⟩

/-- The exponent field comes back as a large one in the packed format, for `x` and `y`
without a sign. -/
def FitsLane : Component → UInt32 → Prop
  | .x, u | .y, u => 111 ≤ exponentOf u ∧
      (143 ≤ exponentOf u → ¬IsNaN u → 14 ≤ exponentOf u % 32 ∧ exponentOf u % 32 ≤ 30)
  | .z, u => (exponentOf u < 111 → exponentOf u % 32 = 15) ∧
      (143 ≤ exponentOf u → ¬IsNaN u → exponentOf u % 32 = 14)

/-- The reader's exponent for the lane of a component. -/
theorem exponent_laneOf (c : Component) (u : UInt32) :
    c.exponent (laneOf u) =
      match c with
      | .x | .y => (exponentOf u + 1) % 32 + 127
      | .z =>
          (224 * ((exponentOf u + 1) % 32 / 2 ^ 4) + (exponentOf u + 1) % 32 + 127) % 2 ^ 8 := by
  cases c with
  | x | y =>
      change laneExponent _ + 127 = _
      rw [laneExponent_laneOf]
  | z =>
      change signedExponent _ = _
      rw [signedExponent, laneExponent_laneOf]

/-- An exponent without a sign is never small, and large for these remainders. -/
theorem unsigned_exponent_iff {e : Nat} (he : e < 2 ^ 8) (N : Prop) :
    (e < 111 → (e + 1) % 32 + 127 < 112) ∧ (143 ≤ e → ¬N → 142 ≤ (e + 1) % 32 + 127) ↔
      111 ≤ e ∧ (143 ≤ e → ¬N → 14 ≤ e % 32 ∧ e % 32 ≤ 30) := by
  have hlarge : 142 ≤ (e + 1) % 32 + 127 ↔ 14 ≤ e % 32 ∧ e % 32 ≤ 30 := by omega
  rw [hlarge]
  apply and_congr_left
  intro _
  omega

/-- An exponent with its sign is small and large for one remainder each. -/
theorem signed_exponent_iff (e : Nat) (N : Prop) :
    let d := (224 * ((e + 1) % 32 / 2 ^ 4) + (e + 1) % 32 + 127) % 2 ^ 8
    (e < 111 → d < 112) ∧ (143 ≤ e → ¬N → 142 ≤ d) ↔
      (e < 111 → e % 32 = 15) ∧ (143 ≤ e → ¬N → e % 32 = 14) := by
  intro d
  have hd : (e + 1) % 32 < 16 ∧ d = (e + 1) % 32 + 127 ∨
      16 ≤ (e + 1) % 32 ∧ d = (e + 1) % 32 + 95 := by
    simp only [d]
    rcases Nat.lt_or_ge ((e + 1) % 32) 16 with h | h
    · have hhalf : (e + 1) % 32 / 2 ^ 4 = 0 := Nat.div_eq_of_lt h
      rw [hhalf]
      omega
    · have hhalf : (e + 1) % 32 / 2 ^ 4 = 1 := by omega
      rw [hhalf]
      omega
  have hsmall : d < 112 ↔ e % 32 = 15 := by omega
  have hlarge : 142 ≤ d ↔ e % 32 = 14 := by omega
  rw [hsmall, hlarge]

/-- Whether one component keeps its magnitude. -/
theorem component_keepsMagnitude_iff (v : Vec3) (c : Component) :
    KeepsMagnitude (v.get c) ((unpackVec3 (packVec3 v)).get c) ↔ FitsLane c (v.get c) := by
  obtain ⟨hs, he, _, _⟩ := readBack_fields v c
  have hlt := exponentOf_lt (v.get c)
  have hfinite : exponentOf ((unpackVec3 (packVec3 v)).get c) < 255 := by
    rw [he, exponent_laneOf]
    cases c with
    | x | y | z =>
        dsimp only
        omega
  rw [keepsMagnitude_iff hs hfinite, he, exponent_laneOf]
  cases c with
  | x => exact unsigned_exponent_iff hlt _
  | y => exact unsigned_exponent_iff hlt _
  | z => exact signed_exponent_iff _ _

/-- Which points keep the magnitudes of their components when they are read back
from their eight bytes; the writer refuses none. -/
theorem vec3_magnitudes_iff {v : Vec3} {vs : VectorStream w} {rest : List UInt8}
    (hvs : vs.remaining = serializeVec3 v [] ++ rest) :
    (∃ v' vs', deserializeVec3 vs = .ok (v', vs') ∧
        ∀ c, KeepsMagnitude (v.get c) (v'.get c)) ↔
      ∀ c, FitsLane c (v.get c) := by
  rw [exists_readBack_iff hvs]
  exact forall_congr' fun c => component_keepsMagnitude_iff v c

/-- The point `(2 ^ 16, -2 ^ 20, 2 ^ -80)`, whose components all have a wanted remainder. -/
theorem vec3_magnitudes_outside :
    ∃ v' vs', deserializeVec3 (w := 32) (.ofVector
        ⟨serializeVec3 ⟨0x47800000, 0xC9800000, 0x17800000⟩ [], by decide⟩) = .ok (v', vs') ∧
      ∀ c, KeepsMagnitude ((⟨0x47800000, 0xC9800000, 0x17800000⟩ : Vec3).get c) (v'.get c) := by
  have hvs : (VectorStream.ofVector (w := 32)
      ⟨serializeVec3 ⟨0x47800000, 0xC9800000, 0x17800000⟩ [], by decide⟩).remaining =
        serializeVec3 ⟨0x47800000, 0xC9800000, 0x17800000⟩ [] ++ [] := by decide
  apply (vec3_magnitudes_iff hvs).mpr
  intro c
  cases c with
  | x => exact ⟨by decide, fun _ _ => by decide⟩
  | y => exact ⟨by decide, fun _ _ => by decide⟩
  | z => exact ⟨fun _ => by decide, fun h => absurd h (by decide)⟩

/-- The origin comes back as `(2, 2, 2)`. -/
theorem vec3_origin_misread :
    (∃ vs', deserializeVec3 (w := 32) (.ofVector ⟨serializeVec3 ⟨0, 0, 0⟩ [], by decide⟩) =
        .ok (⟨0x40000000, 0x40000000, 0x40000000⟩, vs')) ∧
      ∀ c, ¬KeepsMagnitude ((⟨0, 0, 0⟩ : Vec3).get c)
        ((⟨0x40000000, 0x40000000, 0x40000000⟩ : Vec3).get c) := by
  refine ⟨⟨⟨⟨serializeVec3 ⟨0, 0, 0⟩ [], by decide⟩, 8, 0⟩, by decide⟩, ?_⟩
  intro c h
  have hfields := (keepsMagnitude_iff (by cases c <;> decide) (by cases c <;> decide)).mp h
  have hsmall := hfields.1 (by cases c <;> decide)
  revert hsmall
  cases c <;> decide

end RaspiOrbSlam.Protocol
