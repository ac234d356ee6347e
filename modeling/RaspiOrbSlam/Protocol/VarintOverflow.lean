import RaspiOrbSlam.Protocol.Destination

/-!
# Variable length integers of more than 64 bits

Ten groups of seven bits hold every 64-bit number, and all but one bit of the
tenth group must then be zero. The reader goes on until 37 groups are read.
-/

namespace RaspiOrbSlam.Protocol

open Foundation

variable {w : Nat} (pf : Platform w)

/-- A variable length integer of more than 64 bits is refused. -/
def RefusesOverlong (vs : VectorStream w) : Prop :=
  marks vs.remaining < vs.remaining.length → 2 ^ 64 ≤ groupSum vs.remaining →
    ∀ num, (deserializeUInt64Into pf ⟨vs, num, []⟩).1 = .error (.outOfRange "varint too long")

/-- No group is shifted by 64 bits or more. A read outside the data does not end the loop of the
program, which then shifts on by what it happens to find. -/
def ShiftsFit (vs : VectorStream w) : Prop :=
  ∀ num, (deserializeUInt64Into pf ⟨vs, num, []⟩).1 ≠ .error .outOfBounds ∧
    ∀ shift ∈ (deserializeUInt64Into pf ⟨vs, num, []⟩).2.shifts, shift < 64

/-- One of the first ten bytes is not marked, and it is zero or one if it is the tenth. -/
def FitsWord (input : List UInt8) : Prop :=
  marks input < 10 ∧ marks input < input.length ∧
    ∀ b, marks input = 9 → input[9]? = some b → b ≤ 1

theorem shifts_eq (vs : VectorStream w) (num : UInt64) :
    (deserializeUInt64Into pf ⟨vs, num, []⟩).2.shifts =
      groupShifts 0 (groupsRead 0 vs.remaining) :=
  (deserializeUInt64Into_ends pf ⟨vs, num, []⟩).shifts

theorem groupShifts_lt_iff (k : Nat) : (∀ shift ∈ groupShifts 0 k, shift < 64) ↔ k ≤ 10 := by
  simp only [groupShifts, List.mem_map, List.mem_range'_1, forall_exists_index, and_imp]
  constructor
  · intro h
    by_contra hk
    have hlast := h 70 10 (Nat.zero_le _) (by omega) rfl
    omega
  · rintro hk _ i - hi rfl
    omega

/-- The loop leaves the data exactly if the data ends first. -/
theorem leaves_iff (vs : VectorStream w) (num : UInt64) :
    (deserializeUInt64Into pf ⟨vs, num, []⟩).1 = .error .outOfBounds ↔
      marks vs.remaining < 37 ∧ vs.remaining.length ≤ marks vs.remaining := by
  rw [(deserializeUInt64Into_ends pf ⟨vs, num, []⟩).outcome, deserializeUInt64_eq pf vs]
  by_cases hover : 37 ≤ marks vs.remaining
  · rw [if_pos hover]
    exact iff_of_false nofun fun h => absurd h.1 (Nat.not_lt.mpr hover)
  · rw [if_neg hover]
    by_cases hend : marks vs.remaining < vs.remaining.length
    · rw [if_pos hend]
      exact iff_of_false nofun fun h => absurd h.2 (Nat.not_le.mpr hend)
    · rw [if_neg hend]
      exact iff_of_true rfl ⟨Nat.not_le.mp hover, Nat.not_lt.mp hend⟩

theorem shiftsFit_iff (vs : VectorStream w) :
    ShiftsFit pf vs ↔ marks vs.remaining < 10 ∧ marks vs.remaining < vs.remaining.length := by
  have hread : groupsRead 0 vs.remaining ≤ 10 ↔
      marks vs.remaining < 10 ∨ vs.remaining.length ≤ 10 := by
    unfold groupsRead
    omega
  have hcount : marks vs.remaining ≤ vs.remaining.length :=
    (List.takeWhile_prefix _).length_le
  simp only [ShiftsFit, Ne, leaves_iff, shifts_eq, forall_const]
  rw [groupShifts_lt_iff, hread]
  omega

/-- The reader gives up on 37 marked bytes and on nothing else. -/
theorem refusesOverlong_iff (vs : VectorStream w) :
    RefusesOverlong pf vs ↔ (marks vs.remaining < vs.remaining.length →
      2 ^ 64 ≤ groupSum vs.remaining → 37 ≤ marks vs.remaining) := by
  refine imp_congr_right fun hend => imp_congr_right fun _ => ?_
  have houtcome (num : UInt64) :=
    (deserializeUInt64Into_ends pf (w := w) ⟨vs, num, []⟩).outcome
  have hread := deserializeUInt64_eq pf vs
  by_cases hover : 37 ≤ marks vs.remaining
  · rw [if_pos hover] at hread
    refine iff_of_true (fun num => ?_) hover
    rw [houtcome, hread]
    rfl
  · rw [if_neg hover, if_pos hend] at hread
    refine iff_of_false (fun h => ?_) hover
    have herror := h 0
    rw [houtcome, hread] at herror
    cases herror

theorem not_marked_at {input : List UInt8} {b : UInt8} (h : input[marks input]? = some b) :
    b &&& 0x80 = 0 := by
  induction input with
  | nil => cases h
  | cons a rest ih =>
      by_cases hmark : a &&& 0x80 ≠ 0
      · rw [marks_cons_of_marked hmark, List.getElem?_cons_succ] at h
        exact ih h
      · rw [marks_cons_of_not_marked hmark, List.getElem?_cons_zero] at h
        cases h
        exact not_not.mp hmark

theorem group_of_not_marked {b : UInt8} (h : b &&& 0x80 = 0) : (b &&& 0x7F).toNat = b.toNat := by
  have hsplit : ∀ b : UInt8, b &&& 0x80 = 0 → b &&& 0x7F = b := by decide +kernel
  rw [hsplit b h]

theorem ofDigits_groups_lt {input : List UInt8} {n : Nat} (hn : n ≤ input.length) :
    Nat.ofDigits (2 ^ 7) ((input.take n).map fun b => (b &&& 0x7F).toNat) < (2 ^ 7) ^ n := by
  have hlt := Nat.ofDigits_lt_base_pow_length (b := 2 ^ 7) (by decide)
    (l := (input.take n).map fun b => (b &&& 0x7F).toNat) (by
      intro x hx
      obtain ⟨b, _, rfl⟩ := List.mem_map.mp hx
      exact group_lt b)
  rwa [List.length_map, List.length_take_of_le hn] at hlt

/-- The last group counts for itself; the others together stay below its unit. -/
theorem groupSum_eq {input : List UInt8} {b : UInt8} (h : input[marks input]? = some b) :
    ∃ low < (2 ^ 7) ^ marks input, groupSum input = low + (2 ^ 7) ^ marks input * b.toNat := by
  have hlt : marks input < input.length := (List.getElem?_eq_some_iff.mp h).1
  refine ⟨_, ofDigits_groups_lt (Nat.le_of_lt hlt), ?_⟩
  rw [groupSum, groups, List.take_add_one, h, Option.toList_some, List.map_append,
    Nat.ofDigits_append, List.length_map, List.length_take_of_le (Nat.le_of_lt hlt),
    List.map_singleton, Nat.ofDigits_singleton, group_of_not_marked (not_marked_at h)]

/-- A number of at most ten groups fits 64 bits exactly if a tenth group is zero or one. -/
theorem groupSum_lt_iff {input : List UInt8} (hend : marks input < input.length)
    (hten : marks input < 10) :
    groupSum input < 2 ^ 64 ↔ ∀ b, marks input = 9 → input[9]? = some b → b ≤ 1 := by
  by_cases hnine : marks input = 9
  · obtain ⟨b, hb⟩ : ∃ b, input[marks input]? = some b := ⟨_, List.getElem?_eq_getElem hend⟩
    obtain ⟨low, hlow, hsum⟩ := groupSum_eq hb
    rw [hnine] at hb hlow hsum
    simp only [hnine, hb, hsum, Option.some.injEq, forall_const, forall_eq',
      UInt8.le_iff_toNat_le]
    change low < 2 ^ 63 at hlow
    change low + 2 ^ 63 * _ < 2 ^ 64 ↔ _ ≤ 1
    omega
  · refine iff_of_true ?_ fun _ h => absurd h hnine
    have hfull : groupSum input < (2 ^ 7) ^ (marks input + 1) := ofDigits_groups_lt hend
    have hpow : (2 ^ 7) ^ (marks input + 1) ≤ (2 ^ 7) ^ 9 :=
      Nat.pow_le_pow_right (by decide) (by omega)
    omega

/-- The streams on which an integer of more than 64 bits is refused, and none is shifted by
64 bits or more, are those that begin with an integer of at most 64 bits. -/
theorem overlong_refused_iff (vs : VectorStream w) :
    RefusesOverlong pf vs ∧ ShiftsFit pf vs ↔ FitsWord vs.remaining := by
  rw [shiftsFit_iff, refusesOverlong_iff, FitsWord, and_comm, and_assoc]
  apply and_congr_right
  intro hten
  apply and_congr_right
  intro hend
  rw [← groupSum_lt_iff hend hten]
  constructor
  · intro h
    by_contra hsum
    have hover := h hend (Nat.not_lt.mp hsum)
    omega
  · intro hsum _ hover
    omega

/-- Eleven bytes for `2 ^ 70`: the number is read without a fault, and its last
group is shifted by 70. -/
theorem overlong_accepted :
    let vs : VectorStream 32 := .ofVector ⟨List.replicate 10 0x80 ++ [0x01], by decide⟩
    groupSum vs.remaining = 2 ^ 70 ∧
      (deserializeUInt64Into armhf ⟨vs, 0, []⟩).1 = .ok () ∧
      70 ∈ (deserializeUInt64Into armhf ⟨vs, 0, []⟩).2.shifts ∧
      ¬(RefusesOverlong armhf vs ∧ ShiftsFit armhf vs) := by
  intro vs
  have hread := deserializeUInt64_eq armhf vs
  have hends := deserializeUInt64Into_ends armhf ⟨vs, 0, []⟩
  have hshift : 70 ∈ (deserializeUInt64Into armhf ⟨vs, 0, []⟩).2.shifts := by
    rw [shifts_eq]
    decide
  refine ⟨by decide, ?_, hshift, ?_⟩
  · rw [hends.outcome, hread]
    decide
  · rintro ⟨_, hfit⟩
    exact absurd ((hfit 0).2 70 hshift) (by decide)

end RaspiOrbSlam.Protocol
