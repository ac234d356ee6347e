import RaspiOrbSlam.Foundation.LinearProgram
import RaspiOrbSlam.Protocol.Platform
import RaspiOrbSlam.Server.Report

/-!
# The percentages of the metrics

`getCpuUtilization` and `getMemUtilization` compute in single precision what a part leaves of a
whole, in percent. The metrics packet has a byte for each of them.
-/

namespace RaspiOrbSlam.Server

open Foundation
open Protocol (Platform)
open Binary32 (value ofInt_exact ofInt_close div_close sub_close mul_close)

variable {w : Nat}

/-- The conversion of a `size_t` to `float`. -/
def sizeToFloat (n : BitVec w) : Float32 := .ofModel (.ofInt n.toNat)

theorem sizeToFloat_close (pf : Platform w) {n whole : BitVec w} (hle : n.toNat ≤ whole.toNat)
    (hpos : 0 < whole.toNat) :
    ∃ r, value (sizeToFloat n) = some r ∧ |r - n.toNat| ≤ roundoff * whole.toNat := by
  have hlt : n.toNat < 2 ^ 64 :=
    n.isLt.trans_le (Nat.pow_le_pow_right (by decide) pf.width_le)
  have hsize : |(((n.toNat : Int)) : ℚ)| < 2 ^ 127 := by
    have hcast : (n.toNat : ℚ) < 2 ^ 64 := by exact_mod_cast hlt
    rw [Int.cast_natCast, Nat.abs_cast]
    exact hcast.trans (by norm_num)
  obtain ⟨r, hr, hclose⟩ := ofInt_close hsize
  refine ⟨r, hr, ?_⟩
  rw [Int.cast_natCast] at hclose
  apply hclose.trans
  have hone : (1 : ℚ) ≤ whole.toNat := by exact_mod_cast hpos
  have hpart : (n.toNat : ℚ) ≤ whole.toNat := by exact_mod_cast hle
  rw [Binary32.ulp, Nat.abs_cast, roundoff]
  norm_num
  linarith

theorem share_range {part whole : BitVec w} (hle : part.toNat ≤ whole.toNat)
    (hpos : 0 < whole.toNat) :
    0 ≤ (part.toNat : ℚ) / whole.toNat ∧ (part.toNat : ℚ) / whole.toNat ≤ 1 := by
  have hdivisor : (0 : ℚ) < whole.toNat := by exact_mod_cast hpos
  exact ⟨by positivity, (div_le_one hdivisor).mpr (by exact_mod_cast hle)⟩

/-- Five roundings stand between the counts and the percentage. -/
theorem near_percentage (pf : Platform w) {part whole : BitVec w}
    (hle : part.toNat ≤ whole.toNat) (hpos : 0 < whole.toNat) :
    Near ((1 - sizeToFloat part / sizeToFloat whole) * 100)
      (100 * (1 - part.toNat / whole.toNat)) (1 / 10000) := by
  have hone : value 1 = some 1 := ofInt_exact (n := 1) (by decide)
  have hhundred : value 100 = some 100 := ofInt_exact (n := 100) (by decide)
  obtain ⟨p, hp, hpclose⟩ := sizeToFloat_close pf hle hpos
  obtain ⟨d, hd, hdclose⟩ := sizeToFloat_close pf le_rfl hpos
  have hdivisor : (0 : ℚ) < whole.toNat := by exact_mod_cast hpos
  have hshare := share_range hle hpos
  have hleast : (2 : ℚ) ^ (-100 : Int) ≤ 1 := by norm_num
  have hroundoff : 0 ≤ roundoff ∧ roundoff ≤ 1 / 8000000 := by
    unfold roundoff
    norm_num
  obtain ⟨hd0, hquotient⟩ := quotient_close (Nat.cast_nonneg _) (by exact_mod_cast hle) hdivisor
    hpclose hdclose (by linarith)
  obtain ⟨v, hv, hvclose⟩ := near_of_close (a := 1) (fun h => div_close hp hd hd0.ne' h) hquotient
    (abs_le.mpr ⟨by linarith, hshare.2⟩) (by linarith) hleast (by norm_num)
  obtain ⟨u, hu, huclose⟩ := near_of_close (a := 1) (e := 4 * roundoff)
    (q := 1 - part.toNat / whole.toNat) (fun h => sub_close hone hv h)
    (by rw [abs_sub_comm, sub_sub_sub_cancel_left]; linarith)
    (abs_le.mpr ⟨by linarith, by linarith⟩) (by linarith) hleast (by norm_num)
  have hscaled : |u * 100 - 100 * (1 - part.toNat / whole.toNat)| ≤ 500 * roundoff := by
    rw [mul_comm u, ← mul_sub, abs_mul, abs_of_pos (by norm_num : (0 : ℚ) < 100)]
    linarith
  have hproduct := near_of_close (a := 100) (fun h => mul_close hu hhundred h) hscaled
    (abs_le.mpr ⟨by linarith, by linarith⟩) (by linarith) (by linarith) (by norm_num)
  apply hproduct.mono
  linarith

/-- A percentage with a small error is converted to a byte that is less than one off. -/
theorem toUInt8_percentage {x : Float32} {q : ℚ} (hx : Near x q (1 / 10000)) (hlow : 0 ≤ q)
    (hhigh : q ≤ 100) :
    ∃ byte, toUInt8 x = .ok byte ∧ byte.toNat ≤ 100 ∧ |q - byte.toNat| < 1 + 1 / 10000 := by
  obtain ⟨v, hv, hclose⟩ := hx
  obtain ⟨hvlow, hvhigh⟩ := abs_le.mp hclose
  have hrange : 0 ≤ Binary32.truncate v ∧ Binary32.truncate v ≤ 100 := by
    unfold Binary32.truncate
    split
    case isTrue hnonneg =>
      refine ⟨Int.floor_nonneg.mpr hnonneg, ?_⟩
      have hlt : ⌊v⌋ < 101 := Int.floor_lt.mpr (by push_cast; linarith)
      omega
    case isFalse hneg =>
      have hlt : -1 < ⌈v⌉ := Int.lt_ceil.mpr (by push_cast; linarith)
      have hle : ⌈v⌉ ≤ 100 := Int.ceil_le.mpr (by push_cast; linarith)
      exact ⟨by omega, hle⟩
  have hok : toUnsigned (2 ^ 8) x = .ok (Binary32.truncate v).toNat :=
    toUnsigned_eq_ok hv ⟨hrange.1, by omega⟩
  obtain ⟨hlt, v', hv', htruncated⟩ := toUnsigned_close hok
  obtain rfl := Option.some_inj.mp (hv.symm.trans hv')
  refine ⟨UInt8.ofNat (Binary32.truncate v).toNat, by rw [toUInt8, hok]; rfl, ?_, ?_⟩
  · rw [UInt8.toNat_ofNat_of_lt' hlt]
    omega
  · rw [UInt8.toNat_ofNat_of_lt' hlt]
    have htriangle := abs_sub_le q v ((Binary32.truncate v).toNat : ℚ)
    rw [abs_sub_comm q v] at htriangle
    linarith

/-- The byte that the metrics packet has for a percentage. -/
theorem percentage_reported (pf : Platform w) {part whole : BitVec w}
    (hle : part.toNat ≤ whole.toNat) (hpos : 0 < whole.toNat) :
    ∃ byte, toUInt8 ((1 - sizeToFloat part / sizeToFloat whole) * 100) = .ok byte ∧
      byte.toNat ≤ 100 ∧
      |100 * (1 - (part.toNat : ℚ) / whole.toNat) - byte.toNat| < 1 + 1 / 10000 := by
  obtain ⟨hlow, hhigh⟩ := share_range hle hpos
  exact toUInt8_percentage (near_percentage pf hle hpos) (by linarith) (by linarith)

end RaspiOrbSlam.Server
