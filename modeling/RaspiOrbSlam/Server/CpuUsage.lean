import RaspiOrbSlam.Server.CpuUtilization
import RaspiOrbSlam.Server.Percentage

/-!
# The load of the processor in single precision

`getCpuUtilization` with the rounding of `float`, and the byte of the metrics packet. Since the
`static` variables are never assigned, every call reports the load since the system was started.
-/

namespace RaspiOrbSlam.Server

open Foundation
open Protocol (Platform)

variable {w : Nat}

/-- `getCpuUtilization` on the counters that it reads. -/
def getCpuUtilizationFloat (previous : PreviousTimes w) (times : List (BitVec w)) :
    Float32 × PreviousTimes w :=
  if times.length < 4 then (0, previous)
  else
    let idle_time := times.getD 3 0
    let total_time := (accumulate times).signExtend w
    let idle_time_delta := sizeToFloat (idle_time - previous.previous_idle_time)
    let total_time_delta := sizeToFloat (total_time - previous.previous_total_time)
    ((1 - idle_time_delta / total_time_delta) * 100, previous)

/-- The state is that of the exact model. -/
theorem getCpuUtilizationFloat_snd (previous : PreviousTimes w) (times : List (BitVec w)) :
    (getCpuUtilizationFloat previous times).2 = (getCpuUtilization previous times).2 := by
  unfold getCpuUtilizationFloat getCpuUtilization
  split <;> rfl

/-- Where exact arithmetic gives a percentage, so does the float. -/
theorem getCpuUtilizationFloat_near (pf : Platform w) {previous : PreviousTimes w}
    {times : List (BitVec w)} {q : ℚ} (hq : (getCpuUtilization previous times).1 = some q)
    (hnonneg : 0 ≤ q) : Near (getCpuUtilizationFloat previous times).1 q (1 / 10000) := by
  unfold getCpuUtilization at hq
  unfold getCpuUtilizationFloat
  split at hq
  next hshort =>
    rw [if_pos hshort]
    obtain rfl := Option.some.inj hq
    exact ⟨0, Binary32.ofInt_exact (n := 0) (by decide), by norm_num⟩
  next hlong =>
    rw [if_neg hlong]
    dsimp only at hq ⊢
    generalize times.getD 3 0 - previous.previous_idle_time = idleDelta at hq ⊢
    generalize (accumulate times).signExtend w - previous.previous_total_time = totalDelta at hq ⊢
    split at hq
    next => cases hq
    next hne =>
      obtain rfl := Option.some.inj hq
      have hpos : 0 < totalDelta.toNat := by
        rw [Nat.pos_iff_ne_zero]
        exact fun hzero => hne (BitVec.eq_of_toNat_eq hzero)
      have hdivisor : (0 : ℚ) < totalDelta.toNat := by exact_mod_cast hpos
      have hle : idleDelta.toNat ≤ totalDelta.toNat := by
        have hshare : (idleDelta.toNat : ℚ) / totalDelta.toNat ≤ 1 := by linarith
        exact_mod_cast (div_le_one hdivisor).mp hshare
      rw [mul_comm]
      exact near_percentage pf hle hpos

/-- The share of the time since the start in which the processor was not idle. -/
def loadSinceStart (times : List (BitVec w)) : ℚ := utilization [] times

/-- A call that compares with zero reports the load since the start. -/
theorem loadSinceStart_reported (pf : Platform w) {now : Sample w} (hpos : 0 < total now.times)
    (hfits : intSum w (total now.times) = total now.times) :
    ∃ mCpuUsage, toUInt8 (getCpuUtilizationFloat ⟨0, 0⟩ now.times).1 = .ok mCpuUsage ∧
      mCpuUsage.toNat ≤ 100 ∧
      |loadSinceStart now.times - mCpuUsage.toNat| < 1 + 1 / 10000 := by
  have hfollows : Follows [] now := ⟨fun i => Nat.zero_le _, hpos⟩
  obtain ⟨hlow, hhigh⟩ := hfollows.utilization_range
  have hexact : (getCpuUtilization ⟨0, 0⟩ now.times).1 = some (loadSinceStart now.times) := by
    rw [getCpuUtilization_fst pf, hfits, if_neg hpos.ne', loadSinceStart, utilization, mul_comm]
    simp [idle, counter, total]
  exact toUInt8_percentage (getCpuUtilizationFloat_near pf hexact hlow) hlow hhigh

/-- Whatever counters the calls before have read, and however many, the byte of the metrics packet
is less than one and a ten thousandth off the load since the start of the system, as long as a
call reads at least four counters and their sum fits an `int`. -/
theorem cpuUsage_reported (pf : Platform w) (earlier : List (List (BitVec w))) {now : Sample w}
    (hpos : 0 < total now.times) (hfits : intSum w (total now.times) = total now.times) :
    ∃ mCpuUsage, toUInt8 (getCpuUtilizationFloat (after (fun previous times =>
        (getCpuUtilizationFloat previous times).2) ⟨0, 0⟩ earlier) now.times).1 =
          .ok mCpuUsage ∧
      mCpuUsage.toNat ≤ 100 ∧
      |loadSinceStart now.times - mCpuUsage.toNat| < 1 + 1 / 10000 := by
  have hstate : after (fun previous (times : List (BitVec w)) =>
      (getCpuUtilizationFloat previous times).2) ⟨0, 0⟩ earlier = ⟨0, 0⟩ := by
    induction earlier with
    | nil => rfl
    | cons times earlier ih =>
        rw [after, List.foldl_cons, getCpuUtilizationFloat_snd, getCpuUtilization_snd]
        exact ih
  rw [hstate]
  exact loadSinceStart_reported pf hpos hfits

/-- Idle for a quarter of the time since the start; the call before has read two counters. -/
theorem cpuUsage_reported_quarter :
    let earlier : List (List (BitVec 32)) := [[50, 7]]
    let now : Sample 32 := ⟨[100, 20, 30, 50], by decide, by decide⟩
    ∃ mCpuUsage, toUInt8 (getCpuUtilizationFloat (after (fun previous times =>
        (getCpuUtilizationFloat previous times).2) ⟨0, 0⟩ earlier) now.times).1 =
          .ok mCpuUsage ∧
      mCpuUsage.toNat ≤ 100 ∧ |loadSinceStart now.times - mCpuUsage.toNat| < 1 + 1 / 10000 := by
  intro earlier now
  exact cpuUsage_reported Protocol.armhf earlier (by decide) (by decide)

end RaspiOrbSlam.Server
