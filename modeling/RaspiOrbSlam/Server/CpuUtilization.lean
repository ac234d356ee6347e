import RaspiOrbSlam.Foundation.EventRun
import RaspiOrbSlam.Protocol.Platform
import Mathlib.Algebra.BigOperators.Group.Finset.Basic
import Mathlib.Algebra.Order.BigOperators.Group.Finset
import Mathlib.Algebra.Order.Field.Basic
import Mathlib.Tactic.Linarith
import Mathlib.Tactic.NormNum

/-!
# The load of the processor

`getCpuUtilization` compares the counters of `/proc/stat` with those of the
previous call, which two `static` variables should hold. Neither is ever
assigned, so every call compares with zero. The sum of the counters is
accumulated in an `int` and then converted to `size_t`.
-/

namespace RaspiOrbSlam.Server

open Foundation
open Protocol (Platform)

variable {w : Nat}

/-- The `static` variables of `getCpuUtilization`. -/
structure PreviousTimes (w : Nat) where
  previous_idle_time : BitVec w
  previous_total_time : BitVec w

/-- `std::accumulate` from the `int` zero on. -/
def accumulate (times : List (BitVec w)) : BitVec 32 :=
  times.foldl (fun init time => (init.signExtend w + time).setWidth 32) 0

/-- `getCpuUtilization` on the counters that it reads, in exact arithmetic. A quotient
by zero is not a number. -/
def getCpuUtilization (previous : PreviousTimes w) (times : List (BitVec w)) :
    Option ℚ × PreviousTimes w :=
  if times.length < 4 then (some 0, previous)
  else
    let idle_time := times.getD 3 0
    let total_time := (accumulate times).signExtend w
    let idle_time_delta := idle_time - previous.previous_idle_time
    let total_time_delta := total_time - previous.previous_total_time
    (if total_time_delta = 0 then none
      else some ((1 - idle_time_delta.toNat / total_time_delta.toNat) * 100), previous)

def counter (times : List (BitVec w)) (i : Nat) : Nat := (times.getD i 0).toNat

def idle (times : List (BitVec w)) : Nat := counter times 3

def total (times : List (BitVec w)) : Nat := (times.map BitVec.toNat).sum

/-- The counters of one call. -/
structure Sample (w : Nat) where
  times : List (BitVec w)
  four_le : 4 ≤ times.length
  total_lt : total times < 2 ^ w

/-- No counter decreases from one call to the next, and one increases. -/
structure Follows (old : List (BitVec w)) (now : Sample w) : Prop where
  counter_le : ∀ i, counter old i ≤ counter now.times i
  total_lt : total old < total now.times

/-- The share of the time since the old counters in which the processor was not idle. -/
def utilization (old now : List (BitVec w)) : ℚ :=
  100 * (1 - ((idle now : ℚ) - idle old) / ((total now : ℚ) - total old))

/-- The call after one that read the given counters. -/
def nextCall (state : PreviousTimes w × List (BitVec w)) (now : Sample w) :
    PreviousTimes w × List (BitVec w) :=
  ((getCpuUtilization state.1 now.times).2, now.times)

/-- A call returns the utilization since the call before, which is a percentage. -/
structure ReturnsUtilization (state : PreviousTimes w × List (BitVec w)) (now : Sample w) :
    Prop where
  value : (getCpuUtilization state.1 now.times).1 = some (utilization state.2 now.times)
  nonneg : 0 ≤ utilization state.2 now.times
  le_hundred : utilization state.2 now.times ≤ 100

/-- A sum, accumulated in an `int` and converted to `size_t`. -/
def intSum (w total : Nat) : Nat := ((BitVec.ofNat 32 total).signExtend w).toNat

/-- The idle share is what it was at the call before, if the sum fits; otherwise
what the `int` leaves of the sum makes up for the difference. -/
def Steady (old : List (BitVec w)) (now : Sample w) : Prop :=
  if intSum w (total now.times) = total now.times then
    idle now.times * total old = idle old * total now.times
  else
    intSum w (total now.times) ≠ 0 ∧
      idle now.times * (total now.times - total old) =
        (idle now.times - idle old) * intSum w (total now.times)

theorem accumulate_eq (pf : Platform w) (times : List (BitVec w)) :
    accumulate times = BitVec.ofNat 32 (total times) := by
  have hfold (init : BitVec 32) :
      times.foldl (fun init time => (init.signExtend w + time).setWidth 32) init =
        init + BitVec.ofNat 32 (total times) := by
    induction times generalizing init with
    | nil => simp [total]
    | cons time rest ih =>
        have htotal : total (time :: rest) = time.toNat + total rest := rfl
        rw [List.foldl_cons, ih, BitVec.setWidth_add _ _ pf.le_width,
          Protocol.setWidth_signExtend pf.le_width, htotal, BitVec.ofNat_add,
          BitVec.ofNat_toNat, BitVec.add_assoc]
  rw [accumulate, hfold]
  exact BitVec.zero_add _

theorem total_eq_sum {times : List (BitVec w)} {n : Nat} (h : times.length ≤ n) :
    total times = ∑ i ∈ Finset.range n, counter times i := by
  induction times generalizing n with
  | nil => simp [total, counter]
  | cons time rest ih =>
      obtain ⟨m, rfl⟩ : ∃ m, n = m + 1 := Nat.exists_eq_add_one.mpr (Nat.lt_of_lt_of_le
        (Nat.succ_pos _) h)
      calc
        total (time :: rest) = total rest + time.toNat := Nat.add_comm _ _
        _ = ∑ i ∈ Finset.range m, counter rest i + time.toNat := by
          rw [ih (Nat.le_of_succ_le_succ h)]
        _ = ∑ i ∈ Finset.range (m + 1), counter (time :: rest) i :=
          (Finset.sum_range_succ' (counter (time :: rest)) m).symm

/-- The idle counter does not grow by more than the sum. -/
theorem Follows.idle_delta_le {old : List (BitVec w)} {now : Sample w} (h : Follows old now) :
    idle now.times + total old ≤ total now.times + idle old := by
  let n := max old.length now.times.length
  have hfour : 3 ∈ Finset.range n := by
    have hlen := now.four_le
    rw [Finset.mem_range]
    omega
  have hothers : ∑ i ∈ (Finset.range n).erase 3, counter old i ≤
      ∑ i ∈ (Finset.range n).erase 3, counter now.times i :=
    Finset.sum_le_sum fun i _ => h.counter_le i
  have hold : total old = ∑ i ∈ Finset.range n, counter old i :=
    total_eq_sum (Nat.le_max_left _ _)
  have hnow : total now.times = ∑ i ∈ Finset.range n, counter now.times i :=
    total_eq_sum (Nat.le_max_right _ _)
  rw [hold, hnow, ← Finset.add_sum_erase _ (counter old) hfour,
    ← Finset.add_sum_erase _ (counter now.times) hfour]
  unfold idle
  omega

theorem Follows.utilization_range {old : List (BitVec w)} {now : Sample w} (h : Follows old now) :
    0 ≤ utilization old now.times ∧ utilization old now.times ≤ 100 := by
  have hidle : (idle old : ℚ) ≤ idle now.times := Nat.cast_le.mpr (h.counter_le 3)
  have htotal : (0 : ℚ) < (total now.times : ℚ) - total old :=
    sub_pos.mpr (Nat.cast_lt.mpr h.total_lt)
  have hdelta : (idle now.times : ℚ) + total old ≤ total now.times + idle old := by
    exact_mod_cast h.idle_delta_le
  have hnonneg : 0 ≤ ((idle now.times : ℚ) - idle old) / ((total now.times : ℚ) - total old) :=
    div_nonneg (sub_nonneg.mpr hidle) htotal.le
  have hone : ((idle now.times : ℚ) - idle old) / ((total now.times : ℚ) - total old) ≤ 1 := by
    rw [div_le_one htotal]
    linarith
  unfold utilization
  constructor <;> linarith

/-- The static variables keep their initial value. -/
theorem getCpuUtilization_snd (previous : PreviousTimes w) (times : List (BitVec w)) :
    (getCpuUtilization previous times).2 = previous := by
  unfold getCpuUtilization
  split <;> rfl

/-- What a call returns, compared with zero whatever was read before. -/
theorem getCpuUtilization_fst (pf : Platform w) (now : Sample w) :
    (getCpuUtilization ⟨0, 0⟩ now.times).1 =
      if intSum w (total now.times) = 0 then none
      else some ((1 - (idle now.times : ℚ) / intSum w (total now.times)) * 100) := by
  have hzero : (accumulate now.times).signExtend w = 0 ↔ intSum w (total now.times) = 0 := by
    rw [accumulate_eq pf, intSum, ← BitVec.toNat_inj]
    rfl
  unfold getCpuUtilization
  rw [if_neg (Nat.not_lt.mpr now.four_le)]
  simp only [sub_zero, hzero]
  rw [accumulate_eq pf]
  rfl

/-- Where the sum fits, both forms of the condition say the same. -/
theorem steady_iff {old : List (BitVec w)} {now : Sample w} (h : Follows old now) :
    Steady old now ↔ intSum w (total now.times) ≠ 0 ∧
      idle now.times * (total now.times - total old) =
        (idle now.times - idle old) * intSum w (total now.times) := by
  unfold Steady
  split
  next hfits =>
    have hidle : idle old ≤ idle now.times := h.counter_le 3
    have htotal := h.total_lt
    have hne : total now.times ≠ 0 := Nat.ne_of_gt (Nat.zero_lt_of_lt htotal)
    rw [hfits, and_iff_right hne]
    zify [hidle, htotal.le]
    constructor <;> intro heq <;> linarith
  next => rfl

/-- The call that compares with zero returns the utilization since the old counters
exactly if the load is steady. -/
theorem returnsUtilization_iff (pf : Platform w) {old : List (BitVec w)} {now : Sample w}
    (h : Follows old now) : ReturnsUtilization (⟨0, 0⟩, old) now ↔ Steady old now := by
  have hidle : idle old ≤ idle now.times := h.counter_le 3
  have htotal := h.total_lt
  obtain ⟨hnonneg, hle⟩ := h.utilization_range
  have hvalue : ReturnsUtilization (⟨0, 0⟩, old) now ↔
      (getCpuUtilization ⟨0, 0⟩ now.times).1 = some (utilization old now.times) :=
    ⟨fun hreturns => hreturns.value, fun hvalue => ⟨hvalue, hnonneg, hle⟩⟩
  rw [hvalue, steady_iff h, getCpuUtilization_fst pf]
  by_cases hsum : intSum w (total now.times) = 0
  · rw [if_pos hsum]
    exact iff_of_false (by simp) fun hsteady => hsteady.1 hsum
  · have hdelta : (total now.times : ℚ) - total old ≠ 0 :=
      (sub_pos.mpr (Nat.cast_lt.mpr htotal)).ne'
    have hsum' : (intSum w (total now.times) : ℚ) ≠ 0 := Nat.cast_ne_zero.mpr hsum
    rw [if_neg hsum, and_iff_right hsum, Option.some.injEq, utilization]
    calc
      (1 - (idle now.times : ℚ) / intSum w (total now.times)) * 100 =
          100 * (1 - ((idle now.times : ℚ) - idle old) / ((total now.times : ℚ) - total old)) ↔
        (idle now.times : ℚ) / intSum w (total now.times) =
          ((idle now.times : ℚ) - idle old) / ((total now.times : ℚ) - total old) := by
        constructor <;> intro heq <;> linarith
      _ ↔ (idle now.times : ℚ) * ((total now.times : ℚ) - total old) =
          ((idle now.times : ℚ) - idle old) * intSum w (total now.times) :=
        div_eq_div_iff hsum' hdelta
      _ ↔ idle now.times * (total now.times - total old) =
          (idle now.times - idle old) * intSum w (total now.times) := by
        rw [← Nat.cast_sub hidle, ← Nat.cast_sub htotal.le]
        exact_mod_cast Iff.rfl

theorem returnsUtilization_run_iff (pf : Platform w) {old : List (BitVec w)}
    {samples : List (Sample w)} (h : StepsMeet (fun _ now => now.times) Follows old samples) :
    StepsMeet nextCall ReturnsUtilization (⟨0, 0⟩, old) samples ↔
      StepsMeet (fun _ now => now.times) Steady old samples := by
  induction samples generalizing old with
  | nil => exact Iff.rfl
  | cons now rest ih =>
      have hnext : nextCall (⟨0, 0⟩, old) now = (⟨0, 0⟩, now.times) :=
        Prod.ext (getCpuUtilization_snd ⟨0, 0⟩ now.times) rfl
      have hrest := ih h.2
      rw [← hnext] at hrest
      exact and_congr (returnsUtilization_iff pf h.1) hrest

/-- In every sequence of calls, each call returns the utilization since the call
before, which is a percentage, exactly if the load is steady from call to call. -/
theorem utilization_returned_iff (pf : Platform w) (samples : List (Sample w))
    (h : StepsMeet (fun _ now => now.times) Follows [] samples) :
    StepsMeet nextCall ReturnsUtilization (⟨0, 0⟩, []) samples ↔
      StepsMeet (fun _ now => now.times) Steady [] samples :=
  returnsUtilization_run_iff pf h

/-- On a 32-bit system every sum fits. -/
theorem intSum_eq_of_width {n : Nat} (h : n < 2 ^ 32) : intSum 32 n = n := by
  rw [intSum, BitVec.signExtend_eq, BitVec.toNat_ofNat, Nat.mod_eq_of_lt h]

/-- What a call returns is a percentage where the sum fits. -/
theorem getCpuUtilization_range (pf : Platform w) (now : Sample w)
    (hfits : intSum w (total now.times) = total now.times) {value : ℚ}
    (h : (getCpuUtilization ⟨0, 0⟩ now.times).1 = some value) : 0 ≤ value ∧ value ≤ 100 := by
  rw [getCpuUtilization_fst pf, hfits] at h
  by_cases hzero : total now.times = 0
  · rw [if_pos hzero] at h
    cases h
  · have hfollows : Follows [] now :=
      ⟨fun i => Nat.zero_le _, Nat.pos_of_ne_zero hzero⟩
    have hrange := hfollows.utilization_range
    have hvalue : utilization [] now.times = value := by
      rw [if_neg hzero, Option.some.injEq] at h
      rw [← h, utilization, mul_comm]
      simp [idle, counter, total]
    rwa [hvalue] at hrange

theorem Follows.of_counters {old : List (BitVec w)} {now : Sample w}
    (hcounters : ∀ i < old.length, counter old i ≤ counter now.times i)
    (htotal : total old < total now.times) : Follows old now where
  counter_le i := by
    by_cases hi : i < old.length
    · exact hcounters i hi
    · have hzero : counter old i = 0 := by
        rw [counter, List.getD_eq_getElem?_getD, List.getElem?_eq_none (Nat.not_lt.mp hi)]
        rfl
      rw [hzero]
      exact Nat.zero_le _
  total_lt := htotal

/-- Two calls at half load. -/
theorem utilization_returned_half :
    let samples : List (Sample 32) :=
      [⟨[50, 0, 0, 50], by decide, by decide⟩, ⟨[150, 0, 0, 150], by decide, by decide⟩]
    StepsMeet nextCall ReturnsUtilization (⟨0, 0⟩, []) samples := by
  intro samples
  have hfollows : StepsMeet (fun _ now => now.times) Follows [] samples :=
    ⟨.of_counters (by decide) (by decide), .of_counters (by decide) (by decide), trivial⟩
  apply (utilization_returned_iff Protocol.armhf samples hfollows).mpr
  refine ⟨?_, ?_, trivial⟩
  · exact (if_pos (by decide)).mpr (by decide)
  · exact (if_pos (by decide)).mpr (by decide)

/-- The processor is idle up to the first call and busy since: the second call
returns three quarters instead of all. -/
theorem utilization_since_boot :
    let samples : List (Sample 32) :=
      [⟨[50, 0, 0, 50], by decide, by decide⟩, ⟨[150, 0, 0, 50], by decide, by decide⟩]
    StepsMeet (fun _ now => now.times) Follows [] samples ∧
      (getCpuUtilization (w := 32) ⟨0, 0⟩ [150, 0, 0, 50]).1 = some 75 ∧
      utilization (w := 32) [50, 0, 0, 50] [150, 0, 0, 50] = 100 ∧
      ¬StepsMeet nextCall ReturnsUtilization (⟨0, 0⟩, []) samples := by
  intro samples
  have hfollows : StepsMeet (fun _ now => now.times) Follows [] samples :=
    ⟨.of_counters (by decide) (by decide), .of_counters (by decide) (by decide), trivial⟩
  have hreturned : (getCpuUtilization (w := 32) ⟨0, 0⟩ [150, 0, 0, 50]).1 = some 75 := by
    decide +kernel
  have hexpected : utilization (w := 32) [50, 0, 0, 50] [150, 0, 0, 50] = 100 := by
    decide +kernel
  refine ⟨hfollows, hreturned, hexpected, fun h => ?_⟩
  have hvalue := h.2.1.value
  change (getCpuUtilization (w := 32) ⟨0, 0⟩ [150, 0, 0, 50]).1 =
    some (utilization (w := 32) [50, 0, 0, 50] [150, 0, 0, 50]) at hvalue
  rw [hreturned, hexpected] at hvalue
  exact absurd hvalue (by decide)

/-- On a 64-bit system the sum wraps as an `int`, and the result is no percentage. -/
example :
    (getCpuUtilization (w := 64) ⟨0, 0⟩ [4294967246, 0, 0, 100]).1 = some (-100) := by
  decide +kernel

end RaspiOrbSlam.Server
