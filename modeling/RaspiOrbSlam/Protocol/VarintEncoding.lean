import RaspiOrbSlam.Protocol.VarintOverflow
import RaspiOrbSlam.Protocol.VarintRoundTrip

/-!
# The shortest encoding of a number

The bytes that the writer appends are read without the writer or the reader: a
list of bytes stands for the number whose digits to the base 128 are its groups.
Many lists stand for one number; the writer appends the shortest one.
-/

namespace RaspiOrbSlam.Protocol

open Foundation

/-- The digits of a list of bytes, lowest first, whatever their marks are. -/
def digitSum (bytes : List UInt8) : Nat :=
  Nat.ofDigits (2 ^ 7) (bytes.map fun b => (b &&& 0x7F).toNat)

/-- The bytes stand for `n`: every byte but the last is marked. -/
structure Encodes (bytes : List UInt8) (n : Nat) : Prop where
  length_pos : 1 ≤ bytes.length
  marked_iff : ∀ i b, bytes[i]? = some b → (b &&& 0x80 ≠ 0 ↔ i + 1 < bytes.length)
  digitSum_eq : digitSum bytes = n

theorem digitSum_cons (b : UInt8) (rest : List UInt8) :
    digitSum (b :: rest) = (b &&& 0x7F).toNat + 2 ^ 7 * digitSum rest := by
  rw [digitSum, List.map_cons, Nat.ofDigits_cons, digitSum]

/-- A byte is its group and its mark. -/
theorem byte_ext {b c : UInt8} (hgroup : b &&& 0x7F = c &&& 0x7F)
    (hmark : b &&& 0x80 ≠ 0 ↔ c &&& 0x80 ≠ 0) : b = c := by
  have hsplit : ∀ b : UInt8,
      b = (b &&& 0x7F) ||| (if b &&& 0x80 ≠ 0 then 0x80 else 0) := by decide +kernel
  rw [hsplit b, hsplit c, hgroup]
  simp only [hmark]

namespace Encodes

variable {b : UInt8} {rest bytes : List UInt8} {m n : Nat}

theorem last (h : b &&& 0x80 = 0) : Encodes [b] (b &&& 0x7F).toNat where
  length_pos := Nat.le_refl 1
  marked_iff i c hc := by
    obtain ⟨hi, rfl⟩ := List.getElem?_eq_some_iff.mp hc
    have hzero : i = 0 := by simpa using hi
    subst hzero
    simp [h]
  digitSum_eq := by
    rw [digitSum_cons]
    rfl

theorem cons (h : b &&& 0x80 ≠ 0) (hrest : Encodes rest m) :
    Encodes (b :: rest) ((b &&& 0x7F).toNat + 2 ^ 7 * m) where
  length_pos := Nat.succ_pos _
  marked_iff i c hc := by
    cases i with
    | zero =>
        have hpos := hrest.length_pos
        obtain rfl : b = c := by simpa using hc
        simp only [h, not_false_eq_true, true_iff, List.length_cons, ne_eq]
        omega
    | succ i =>
        rw [List.getElem?_cons_succ] at hc
        rw [hrest.marked_iff i c hc, List.length_cons]
        omega
  digitSum_eq := by rw [digitSum_cons, hrest.digitSum_eq]

theorem head_marked_iff (h : Encodes (b :: rest) n) : b &&& 0x80 ≠ 0 ↔ rest ≠ [] := by
  rw [h.marked_iff 0 b rfl, List.length_cons, ← List.length_pos_iff]
  omega

theorem tail (h : Encodes (b :: rest) n) (hrest : rest ≠ []) :
    Encodes rest (digitSum rest) where
  length_pos := List.length_pos_iff.mpr hrest
  marked_iff i c hc := by
    have hnext := h.marked_iff (i + 1) c (by rwa [List.getElem?_cons_succ])
    rwa [List.length_cons, Nat.add_lt_add_iff_right] at hnext
  digitSum_eq := rfl

/-- The byte without a mark ends the number, so no other can go on behind it. -/
theorem eq_of_isPrefix (h : Encodes bytes n) {others : List UInt8} (hothers : Encodes others m)
    (hpre : bytes <+: others) : bytes = others := by
  apply hpre.eq_of_length
  obtain ⟨rest, rfl⟩ := hpre
  have hlen := h.length_pos
  obtain ⟨b, hb⟩ : ∃ b, bytes[bytes.length - 1]? = some b :=
    ⟨_, List.getElem?_eq_getElem (by omega)⟩
  have hlast := h.marked_iff _ b hb
  have hthere := hothers.marked_iff (bytes.length - 1) b
    (by rwa [List.getElem?_append_left (by omega)])
  have hends := hlast.symm.trans hthere
  rw [List.length_append] at hends ⊢
  omega

theorem marks_append (h : Encodes bytes n) (suf : List UInt8) :
    marks (bytes ++ suf) + 1 = bytes.length := by
  induction bytes generalizing n with
  | nil => exact absurd h.length_pos (Nat.not_succ_le_zero 0)
  | cons b rest ih =>
      rw [List.cons_append, List.length_cons]
      by_cases hrest : rest = []
      · have hmark := mt h.head_marked_iff.mp (not_not.mpr hrest)
        rw [marks_cons_of_not_marked hmark, hrest, List.length_nil]
      · rw [marks_cons_of_marked (h.head_marked_iff.mpr hrest), ih (h.tail hrest)]

/-- In front of any bytes the reader's groups are those of the number. -/
theorem groupSum_append (h : Encodes bytes n) (suf : List UInt8) :
    groupSum (bytes ++ suf) = n := by
  rw [groupSum, groups, h.marks_append, List.take_left]
  exact h.digitSum_eq

end Encodes

theorem group_toNat (num : UInt64) : (num.toUInt8 &&& 0x7F).toNat = num.toNat % 2 ^ 7 := by
  rw [UInt8.toNat_and, UInt64.toNat_toUInt8]
  calc
    num.toNat % 2 ^ 8 &&& 2 ^ 7 - 1 = num.toNat % 2 ^ 8 % 2 ^ 7 :=
      Nat.and_two_pow_sub_one_eq_mod _ 7
    _ = num.toNat % 2 ^ 7 := Nat.mod_mod_of_dvd _ (by decide)

/-- The writer appends the groups of its number. -/
theorem encodes_serializeUInt64 (num : UInt64) :
    Encodes (serializeUInt64 num []) num.toNat := by
  obtain ⟨b, hb, hmark, henc⟩ := serializeUInt64_cons num
  have hgroup : (b &&& 0x7F).toNat = num.toNat % 2 ^ 7 := by rw [hb, group_toNat]
  have hshift := shiftRight_seven_toNat num
  rw [henc]
  by_cases h : num >>> 7 ≠ 0
  · have hnum : num.toNat = (b &&& 0x7F).toNat + 2 ^ 7 * (num >>> 7).toNat := by omega
    rw [if_pos h, hnum]
    exact Encodes.cons (hmark.mpr h) (encodes_serializeUInt64 (num >>> 7))
  · have hzero : (num >>> 7).toNat = 0 := congrArg UInt64.toNat (not_ne_iff.mp h)
    have hnum : num.toNat = (b &&& 0x7F).toNat := by omega
    rw [if_neg h, hnum]
    exact Encodes.last (not_ne_iff.mp (mt hmark.mp h))
termination_by num.toNat
decreasing_by exact shiftRight_seven_lt h

/-- `k` groups are enough for a number below `2 ^ (7 * k)`. -/
theorem serializeUInt64_length_le (num : UInt64) {k : Nat} (hk : 0 < k)
    (hnum : num.toNat < (2 ^ 7) ^ k) : (serializeUInt64 num []).length ≤ k := by
  induction k generalizing num with
  | zero => exact absurd hk (Nat.lt_irrefl 0)
  | succ k ih =>
      obtain ⟨b, -, -, henc⟩ := serializeUInt64_cons num
      rw [henc, List.length_cons, Nat.add_le_add_iff_right]
      by_cases h : num >>> 7 ≠ 0
      · have hpos : (num >>> 7).toNat ≠ 0 := fun hz => h (UInt64.toNat_inj.mp hz)
        have hshift := shiftRight_seven_toNat num
        rw [Nat.pow_succ] at hnum
        have hnext : (num >>> 7).toNat < (2 ^ 7) ^ k := by omega
        have hk' : 0 < k := by
          apply Nat.pos_of_ne_zero
          rintro rfl
          omega
        rw [if_pos h]
        exact ih (num >>> 7) hk' hnext
      · rw [if_neg h]
        exact Nat.zero_le k

/-- The last byte of an encoding is zero only for the number zero. -/
theorem eq_zero_of_getLast? (num : UInt64) (h0 : (serializeUInt64 num []).getLast? = some 0) :
    num = 0 := by
  obtain ⟨b, hb, -, henc⟩ := serializeUInt64_cons num
  rw [henc] at h0
  by_cases h : num >>> 7 ≠ 0
  · have hne : serializeUInt64 (num >>> 7) [] ≠ [] :=
      List.length_pos_iff.mp (encodes_serializeUInt64 (num >>> 7)).length_pos
    rw [if_pos h, List.getLast?_cons_of_ne_nil hne] at h0
    exact absurd (eq_zero_of_getLast? (num >>> 7) h0) h
  · have hzero : (num >>> 7).toNat = 0 := congrArg UInt64.toNat (not_ne_iff.mp h)
    have hshift := shiftRight_seven_toNat num
    have hgroup := group_toNat num
    rw [if_neg h, List.getLast?_singleton, Option.some.injEq] at h0
    rw [← hb, h0] at hgroup
    change 0 = _ at hgroup
    apply UInt64.toNat_inj.mp
    change num.toNat = 0
    omega
termination_by num.toNat
decreasing_by exact shiftRight_seven_lt h

/-- A list of bytes that stands for the number is its encoding or longer. -/
theorem serializeUInt64_shortest (num : UInt64) {bytes : List UInt8}
    (h : Encodes bytes num.toNat) :
    bytes = serializeUInt64 num [] ∨ (serializeUInt64 num []).length < bytes.length := by
  obtain ⟨b, hb, hmark, henc⟩ := serializeUInt64_cons num
  have hgroup : (b &&& 0x7F).toNat = num.toNat % 2 ^ 7 := by rw [hb, group_toNat]
  have hshift := shiftRight_seven_toNat num
  cases bytes with
  | nil => exact absurd h.length_pos (Nat.not_succ_le_zero 0)
  | cons c rest =>
      have hsum := h.digitSum_eq
      have hlt := group_lt c
      rw [digitSum_cons] at hsum
      have hsame : c &&& 0x7F = b &&& 0x7F := UInt8.toNat_inj.mp (by omega)
      have hrest : digitSum rest = (num >>> 7).toNat := by omega
      by_cases hmore : num >>> 7 ≠ 0
      · have hne : rest ≠ [] := by
          rintro rfl
          exact hmore (UInt64.toNat_inj.mp hrest.symm)
        have hbyte : c = b :=
          byte_ext hsame (iff_of_true (h.head_marked_iff.mpr hne) (hmark.mpr hmore))
        have htail := h.tail hne
        rw [hrest] at htail
        rw [henc, if_pos hmore, hbyte, List.length_cons, List.length_cons,
          Nat.add_lt_add_iff_right, List.cons_inj_right]
        exact serializeUInt64_shortest (num >>> 7) htail
      · rw [henc, if_neg hmore]
        by_cases hne : rest = []
        · subst hne
          have hbyte : c = b :=
            byte_ext hsame (iff_of_false (mt h.head_marked_iff.mp (not_not.mpr rfl))
              (mt hmark.mp hmore))
          exact Or.inl (by rw [hbyte])
        · exact Or.inr (Nat.succ_lt_succ (List.length_pos_iff.mpr hne))
termination_by num.toNat
decreasing_by exact shiftRight_seven_lt hmore

/-- No encoding exceeds what the reader can hold. -/
theorem fitsWord_serializeUInt64 (num : UInt64) (suf : List UInt8) :
    FitsWord (serializeUInt64 num [] ++ suf) := by
  have henc := encodes_serializeUInt64 num
  have hmarks := henc.marks_append suf
  have hlen : (serializeUInt64 num []).length ≤ 10 :=
    serializeUInt64_length_le num (by decide) (num.toNat_lt.trans (by decide))
  have hten : marks (serializeUInt64 num [] ++ suf) < 10 := by omega
  have hend : marks (serializeUInt64 num [] ++ suf) <
      (serializeUInt64 num [] ++ suf).length := by
    rw [List.length_append]
    omega
  refine ⟨hten, hend, (groupSum_lt_iff hend hten).mp ?_⟩
  rw [henc.groupSum_append suf]
  exact num.toNat_lt

/-- The bytes that the writer appends for a number: between one and ten, all but
the last marked, with the number as the sum of their groups and no zero group at
the end. No other bytes for the number are as short, and no number's bytes begin
with those of another. -/
theorem serializeUInt64_encodes (num : UInt64) (out : List UInt8) :
    ∃ bytes, serializeUInt64 num out = out ++ bytes ∧
      1 ≤ bytes.length ∧ bytes.length ≤ 10 ∧ Encodes bytes num.toNat ∧
      (bytes.getLast? = some 0 → num = 0) ∧
      (∀ bytes', Encodes bytes' num.toNat → bytes' = bytes ∨ bytes.length < bytes'.length) ∧
      ∀ num', serializeUInt64 num' [] <+: bytes → num' = num := by
  have henc := encodes_serializeUInt64 num
  have hten : num.toNat < (2 ^ 7) ^ 10 := num.toNat_lt.trans (by decide)
  refine ⟨serializeUInt64 num [], serializeUInt64_append num out, henc.length_pos,
    serializeUInt64_length_le num (by decide) hten, henc, eq_zero_of_getLast? num,
    fun _ => serializeUInt64_shortest num, fun num' hpre => ?_⟩
  have hother := encodes_serializeUInt64 num'
  apply UInt64.toNat_inj.mp
  rw [← hother.digitSum_eq, ← henc.digitSum_eq, hother.eq_of_isPrefix henc hpre]

end RaspiOrbSlam.Protocol
