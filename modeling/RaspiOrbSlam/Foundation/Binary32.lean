import Mathlib

/-! # The rounding error of single precision operations

The core library defines the arithmetic of `Float32` bit by bit. Here the
operations are related to exact arithmetic: a result within the range of finite
numbers differs from the exact one by at most one unit in the last place. -/

namespace RaspiOrbSlam.Foundation.Binary32

open Float.Model Float.Model.UnpackedFloat

/-- A magnitude with its sign. -/
def signed : Sign → ℚ → ℚ
  | .positive, q => q
  | .negative, q => -q

/-- The number that a finite float stands for. -/
def numberOf : UnpackedFloat → Option ℚ
  | .zero _ => some 0
  | .finite s m e _ => some (signed s (m * 2 ^ e))
  | .infinity _ => none
  | .notANumber => none

/-- The number that a float stands for, `none` for infinities and what is no number. -/
def value (x : Float32) : Option ℚ := numberOf x.toModel.unpack

/-- A mantissa and an exponent as the format stores them. -/
structure Canonical (m : Nat) (e : Int) : Prop where
  width : m < 2 ^ 24
  low : -149 ≤ e
  normal : 2 ^ 23 ≤ m ∨ e = -149

theorem unpackSign_packComponents (s : Sign) (e : BitVec 8) (m : BitVec 23) :
    unpackSign (packComponents Format.binary32 s e m) = s.toBitVec := by
  apply BitVec.eq_of_getLsbD_eq
  intro i hi
  obtain rfl : i = 0 := by omega
  have htop : (s.toBitVec ++ e ++ m).getLsbD 31 = s.toBitVec.getLsbD 0 := by
    rw [BitVec.getLsbD_append, if_neg (by decide), BitVec.getLsbD_append, if_neg (by decide)]
  refine Eq.trans ?_ htop
  simp only [unpackSign, packComponents, BitVec.getLsbD_cast, BitVec.getLsbD_extractLsb]
  rfl

theorem ofBitVec_toBitVec (s : Sign) : Sign.ofBitVec s.toBitVec = s := by
  cases s <;> rfl

theorem toNat_one_append (m : BitVec 23) : (1#1 ++ m).toNat = 2 ^ 23 + m.toNat := by
  rw [BitVec.toNat_append, ← Nat.shiftLeft_add_eq_or_of_lt m.isLt]
  rfl

theorem finite_congr (s : Sign) {m n : Nat} {e f : Int} (hm : 0 < m) (hn : 0 < n) (h : m = n)
    (he : e = f) : UnpackedFloat.finite s m e hm = .finite s n f hn := by
  subst h he
  rfl

/-- Storing a number that is in the form of the format keeps it. -/
theorem unpack_pack (s : Sign) {m : Nat} {e : Int} (hm : 0 < m) (hc : Canonical m e)
    (he : e ≤ 104) :
    UnpackedFloat.unpack Format.binary32 (UnpackedFloat.pack Format.binary32 (.finite s m e hm)) =
      .finite s m e hm := by
  have hlow := hc.low
  have hwidth := hc.width
  have hbias : e + (Format.binary32.exponentBias : Int) +
      (Format.binary32.mantissaBitsWithoutImplicit : Int) = e + 150 := by
    change e + 127 + 23 = _
    omega
  obtain ⟨k, hk⟩ : ∃ k : Nat, e + 150 = k := ⟨(e + 150).toNat, by omega⟩
  unfold UnpackedFloat.pack
  simp only [hbias, hk, Int.toNat_natCast]
  rw [if_neg (by omega)]
  have hexp : (BitVec.ofNat 8 k).toNat = k := by
    rw [BitVec.toNat_ofNat, Nat.mod_eq_of_lt (by omega)]
  split
  case isTrue hlog =>
    change m.log2 + 1 = 24 at hlog
    have hm23 : 2 ^ 23 ≤ m := (Nat.le_log2 (by omega)).mp (by omega)
    unfold UnpackedFloat.unpack
    simp only [unpackExponent_packComponents, unpackMantissa_packComponents,
      unpackSign_packComponents, ofBitVec_toBitVec]
    rw [if_neg, if_neg]
    · apply finite_congr
      · rw [toNat_one_append, BitVec.toNat_ofNat]
        omega
      · change ((BitVec.ofNat 8 k).toNat : Int) - (127 + 23) = e
        omega
    · intro h
      have := congrArg BitVec.toNat h
      rw [hexp] at this
      change k = 0 at this
      omega
    · intro h
      have := congrArg BitVec.toNat h
      rw [hexp] at this
      change k = 255 at this
      omega
  case isFalse hlog =>
    change ¬m.log2 + 1 = 24 at hlog
    have hm23 : ¬2 ^ 23 ≤ m := by
      intro h
      have hle := (Nat.le_log2 (by omega)).mpr h
      have hlt := (Nat.log2_lt (by omega)).mpr hwidth
      omega
    have hmin : e = -149 := by
      rcases hc.normal with h | h
      · exact absurd h hm23
      · exact h
    have hmant : (BitVec.ofNat 23 m).toNat = m := by
      rw [BitVec.toNat_ofNat, Nat.mod_eq_of_lt (by omega)]
    unfold UnpackedFloat.unpack
    simp only [unpackExponent_packComponents, unpackMantissa_packComponents,
      unpackSign_packComponents, ofBitVec_toBitVec]
    have hzero : ¬BitVec.ofNat 23 m = 0#23 := by
      intro h
      have := congrArg BitVec.toNat h
      rw [hmant] at this
      change m = 0 at this
      omega
    rw [if_neg (by decide), if_pos trivial, dif_neg hzero]
    exact finite_congr s _ hm hmant (by rw [hmin]; rfl)

theorem unpack_pack_zero (s : Sign) :
    UnpackedFloat.unpack Format.binary32 (UnpackedFloat.pack Format.binary32 (.zero s)) =
      .zero s := by
  cases s <;> rfl

/-- What is stored in a float is in the form of the format. -/
theorem canonical_of_unpack {b : BitVec 32} {s : Sign} {m : Nat} {e : Int} {hm : 0 < m}
    (h : UnpackedFloat.unpack Format.binary32 b = .finite s m e hm) : Canonical m e ∧ e ≤ 104 := by
  unfold UnpackedFloat.unpack at h
  simp only at h
  have hexp := (@unpackExponent Format.binary32 b).isLt
  have hmant := (@unpackMantissa Format.binary32 b).isLt
  change _ < 2 ^ 8 at hexp
  change _ < 2 ^ 23 at hmant
  split at h
  · split at h <;> cases h
  · rename_i hones
    have hlt : (@unpackExponent Format.binary32 b).toNat ≠ 255 := by
      intro heq
      apply hones
      apply BitVec.eq_of_toNat_eq
      rw [heq]
      rfl
    split at h
    · rename_i hzero
      split at h
      · cases h
      · rename_i hm₀
        injection h with hs hm he
        rw [hzero] at he
        change (0 : Int) - (127 + 23) + 1 = e at he
        exact ⟨⟨by omega, by omega, .inr (by omega)⟩, by omega⟩
    · rename_i hzero
      have hpos : (@unpackExponent Format.binary32 b).toNat ≠ 0 := by
        intro heq
        apply hzero
        apply BitVec.eq_of_toNat_eq
        rw [heq]
        rfl
      injection h with hs hm he
      change ((@unpackExponent Format.binary32 b).toNat : Int) - (127 + 23) = e at he
      have hone := toNat_one_append (@unpackMantissa Format.binary32 b)
      rw [hm] at hone
      exact ⟨⟨by omega, by omega, .inl (by omega)⟩, by omega⟩

/-- The exponent of the last place of the rounded number. -/
def lastPlace (m : Nat) (e : Int) : Int := max (m.log2 + 1 + e - 24) (-149)

theorem mantissa_shiftRight (em : ExtendedMantissa) (k : Nat) :
    (em >>> k).mantissa = em.mantissa / 2 ^ k := by
  induction k with
  | zero => rw [Nat.pow_zero, Nat.div_one]; rfl
  | succ k ih =>
      change (em >>> k).mantissa / 2 = _
      rw [ih, Nat.div_div_eq_div_mul, Nat.pow_succ]

/-- Rounding leaves the mantissa or adds one to it. -/
theorem roundedMantissa_bounds (em : ExtendedMantissa) :
    em.mantissa ≤ em.roundedMantissa ∧ em.roundedMantissa ≤ em.mantissa + 1 := by
  obtain ⟨m, round, sticky⟩ := em
  cases round <;> cases sticky <;>
    simp only [ExtendedMantissa.roundedMantissa, ExtendedMantissa.accuracy,
      Accuracy.roundToNearestEven] <;> omega

theorem mantissa_ofMantissaAndAccuracy (m : Nat) (accuracy : Accuracy) :
    (ExtendedMantissa.ofMantissaAndAccuracy m accuracy).mantissa = m := by
  unfold ExtendedMantissa.ofMantissaAndAccuracy
  split <;> rfl

/-- The first shift drops the places behind the last one. -/
theorem shift_eq (m : Nat) {e : Int} (accuracy : Accuracy) (he : e ≤ lastPlace m e) :
    ∃ em, shiftToTargetExponent Format.binary32 m e accuracy = (em, lastPlace m e) ∧
      em.mantissa = m / 2 ^ (lastPlace m e - e).toNat := by
  refine ⟨_, Prod.ext rfl ?_, ?_⟩
  · change e + ((lastPlace m e - e).toNat : Int) = lastPlace m e
    omega
  · refine (mantissa_shiftRight (.ofMantissaAndAccuracy m accuracy) _).trans ?_
    rw [mantissa_ofMantissaAndAccuracy]
    rfl

theorem lt_two_pow_log2_succ {m : Nat} (hm : 0 < m) : m < 2 ^ (m.log2 + 1) :=
  (Nat.log2_lt (by omega)).mp (Nat.lt_succ_self _)

/-- What is left of the mantissa has at most 24 bits, and all of them unless the last place
is the least one of the format. -/
theorem quotient_bounds {m : Nat} {e : Int} (hm : 0 < m ∨ e ≤ -149) (he : e ≤ lastPlace m e) :
    m / 2 ^ (lastPlace m e - e).toNat < 2 ^ 24 ∧
      (lastPlace m e ≠ -149 → 2 ^ 23 ≤ m / 2 ^ (lastPlace m e - e).toNat) := by
  rcases Nat.eq_zero_or_pos m with rfl | hpos
  · have hsmall : e ≤ -149 := hm.resolve_left (by decide)
    have hlast : lastPlace 0 e = -149 := by
      have hlog : Nat.log2 0 = 0 := rfl
      unfold lastPlace
      omega
    exact ⟨by simp, fun h => absurd hlast h⟩
  obtain ⟨k, hk⟩ : ∃ k, (lastPlace m e - e).toNat = k := ⟨_, rfl⟩
  have hle : (m.log2 : Int) + 1 + e - 24 ≤ lastPlace m e := le_max_left _ _
  rw [hk]
  constructor
  · rw [Nat.div_lt_iff_lt_mul (Nat.two_pow_pos k), ← Nat.pow_add]
    exact lt_of_lt_of_le (lt_two_pow_log2_succ hpos) (Nat.pow_le_pow_right (by decide) (by omega))
  · intro hne
    have heq : lastPlace m e = m.log2 + 1 + e - 24 := by
      unfold lastPlace at hne ⊢
      omega
    rw [Nat.le_div_iff_mul_le (Nat.two_pow_pos k), ← Nat.pow_add]
    have hlog : 23 + k = m.log2 := by omega
    rw [hlog]
    exact Nat.log2_self_le (by omega)

/-- The second shift changes the form of a mantissa that was rounded up to 25 bits. -/
theorem normalized {r : Nat} {t : Int} (hr : 0 < r) (hmax : r ≤ 2 ^ 24) (hlow : -149 ≤ t)
    (hnormal : t ≠ -149 → 2 ^ 23 ≤ r) :
    let shifted := shiftToTargetExponent Format.binary32 r t .exact
    Canonical shifted.1.mantissa shifted.2 ∧ 0 < shifted.1.mantissa ∧ shifted.2 ≤ t + 1 ∧
      (shifted.1.mantissa : ℚ) * 2 ^ shifted.2 = r * 2 ^ t := by
  intro shifted
  have hexponent : shifted.2 = t + ((lastPlace r t - t).toNat : Int) := rfl
  have hmantissa : shifted.1.mantissa = r / 2 ^ (lastPlace r t - t).toNat :=
    mantissa_shiftRight ⟨r, false, false⟩ _
  by_cases hfull : r = 2 ^ 24
  · have hlog : r.log2 = 24 := by rw [hfull]; exact Nat.log2_two_pow
    have hshift : (lastPlace r t - t).toNat = 1 := by
      unfold lastPlace
      omega
    rw [hexponent, hmantissa, hshift, hfull]
    refine ⟨⟨by decide, by omega, .inl (by decide)⟩, by decide, le_rfl, ?_⟩
    rw [Nat.cast_one, zpow_add_one₀ (by norm_num)]
    norm_num
    ring
  · have hlog : r.log2 < 24 := (Nat.log2_lt (by omega)).mpr (by omega)
    have hshift : (lastPlace r t - t).toNat = 0 := by
      unfold lastPlace
      omega
    rw [hexponent, hmantissa, hshift]
    simp only [pow_zero, Nat.div_one, Nat.cast_zero, add_zero]
    refine ⟨⟨by omega, hlow, ?_⟩, hr, by omega, trivial⟩
    by_cases ht : t = -149
    · exact .inr ht
    · exact .inl (hnormal ht)

/-- The result of rounding: zero, or a float whose mantissa counts last places. -/
theorem roundWithAccuracy_cases (s : Sign) {m : Nat} {e : Int} (accuracy : Accuracy)
    (hm : 0 < m ∨ e ≤ -149) (he : e ≤ lastPlace m e) :
    ∃ r : Nat, m / 2 ^ (lastPlace m e - e).toNat ≤ r ∧
      r ≤ m / 2 ^ (lastPlace m e - e).toNat + 1 ∧
      (lastPlace m e ≤ 103 →
        numberOf (UnpackedFloat.unpack Format.binary32 (UnpackedFloat.pack Format.binary32
          (roundWithAccuracy Format.binary32 s m e accuracy))) =
          some (signed s (r * 2 ^ lastPlace m e))) := by
  obtain ⟨em, hshift, hem⟩ := shift_eq m accuracy he
  obtain ⟨hlow, hhigh⟩ := roundedMantissa_bounds em
  obtain ⟨hquotient, hnormal⟩ := quotient_bounds hm he
  rw [hem] at hlow hhigh
  refine ⟨em.roundedMantissa, hlow, hhigh, ?_⟩
  intro hlast
  have hmin : -149 ≤ lastPlace m e := le_max_right _ _
  unfold roundWithAccuracy
  rw [hshift]
  rcases Nat.eq_zero_or_pos em.roundedMantissa with hzero | hpos
  · have hmantissa : (shiftToTargetExponent Format.binary32 em.roundedMantissa (lastPlace m e)
        .exact).1.mantissa = 0 := by
      refine (mantissa_shiftRight ⟨em.roundedMantissa, false, false⟩ _).trans ?_
      rw [hzero, Nat.zero_div]
    simp only [dif_pos hmantissa]
    rw [unpack_pack_zero, numberOf, hzero]
    cases s <;> simp [signed]
  · obtain ⟨hcanonical, hpositive, hexponent, hvalue⟩ :=
      normalized hpos (by omega) hmin fun hne => (hnormal hne).trans hlow
    simp only [dif_neg hpositive.ne']
    rw [unpack_pack s hpositive hcanonical (by omega)]
    rw [numberOf, hvalue]

/-- One unit in the last place of a result, and the least positive number. -/
def ulp (v : ℚ) : ℚ := 2 ^ (-23 : Int) * |v| + 2 ^ (-149 : Int)

theorem signed_sub (s : Sign) (a b : ℚ) : |signed s a - signed s b| = |a - b| := by
  cases s
  · rw [signed, signed, neg_sub_neg, abs_sub_comm]
  · rfl

theorem abs_signed (s : Sign) (a : ℚ) : |signed s a| = |a| := by
  cases s
  · exact abs_neg a
  · rfl

theorem two_zpow_ne_zero : (2 : ℚ) ≠ 0 := by norm_num

/-- The mantissa is at least the power of two at its first bit. -/
theorem leading_le {m : Nat} {e : Int} (hm : 0 < m) :
    (2 : ℚ) ^ ((m.log2 : Int) + e) ≤ m * 2 ^ e := by
  rw [zpow_add₀ two_zpow_ne_zero, zpow_natCast]
  gcongr
  exact_mod_cast Nat.log2_self_le (by omega)

theorem lastPlace_le {m : Nat} {e : Int} {v : ℚ} (hm : 0 < m ∨ e ≤ -149)
    (hlow : (m : ℚ) * 2 ^ e ≤ v) (hmax : v < 2 ^ 127) : lastPlace m e ≤ 103 := by
  rcases Nat.eq_zero_or_pos m with rfl | hpos
  · have hlog : Nat.log2 0 = 0 := rfl
    unfold lastPlace
    omega
  · have hlt : (2 : ℚ) ^ ((m.log2 : Int) + e) < 2 ^ (127 : Int) :=
      lt_of_le_of_lt ((leading_le hpos).trans hlow) hmax
    have hlog := (zpow_lt_zpow_iff_right₀ (by norm_num : (1 : ℚ) < 2)).mp hlt
    unfold lastPlace
    omega

/-- The last place is one unit. -/
theorem two_zpow_lastPlace_le {m : Nat} {e : Int} {v : ℚ} (hm : 0 < m ∨ e ≤ -149)
    (hlow : (m : ℚ) * 2 ^ e ≤ v) :
    (2 : ℚ) ^ lastPlace m e ≤ 2 ^ (-23 : Int) * v + 2 ^ (-149 : Int) := by
  have hleast : (0 : ℚ) < 2 ^ (-149 : Int) := by positivity
  have hnonneg : (0 : ℚ) ≤ 2 ^ (-23 : Int) * v :=
    mul_nonneg (by positivity) (le_trans (by positivity) hlow)
  by_cases hlast : lastPlace m e = -149
  · rw [hlast]
    linarith
  · have hpos : 0 < m := by
      rcases hm with h | h
      · exact h
      · by_contra hzero
        have hlog : Nat.log2 0 = 0 := rfl
        obtain rfl : m = 0 := by omega
        apply hlast
        unfold lastPlace
        omega
    have hsum : lastPlace m e = -23 + ((m.log2 : Int) + e) := by
      unfold lastPlace at hlast ⊢
      omega
    have hleading := (leading_le (e := e) hpos).trans hlow
    rw [hsum, zpow_add₀ two_zpow_ne_zero]
    have := mul_le_mul_of_nonneg_left hleading (by positivity : (0 : ℚ) ≤ 2 ^ (-23 : Int))
    linarith

/-- A rounded number is the exact one up to one unit in the last place; `v` is the exact
magnitude, of which the mantissa holds the integral part. -/
theorem roundWithAccuracy_close (s : Sign) {m : Nat} {e : Int} (accuracy : Accuracy) {v : ℚ}
    (hm : 0 < m ∨ e ≤ -149) (he : e ≤ lastPlace m e) (hlow : (m : ℚ) * 2 ^ e ≤ v)
    (hhigh : v ≤ (m + 1 : ℚ) * 2 ^ e) (hmax : v < 2 ^ 127) :
    ∃ r, numberOf (UnpackedFloat.unpack Format.binary32 (UnpackedFloat.pack Format.binary32
        (roundWithAccuracy Format.binary32 s m e accuracy))) = some r ∧
      |r - signed s v| ≤ ulp (signed s v) := by
  obtain ⟨r, hrlow, hrhigh, hnumber⟩ := roundWithAccuracy_cases s accuracy hm he
  refine ⟨_, hnumber (lastPlace_le hm hlow hmax), ?_⟩
  have hv : 0 ≤ v := le_trans (by positivity) hlow
  rw [signed_sub, ulp, abs_signed, abs_of_nonneg hv]
  refine le_trans ?_ (two_zpow_lastPlace_le hm hlow)
  obtain ⟨k, hk⟩ : ∃ k : Nat, (lastPlace m e - e).toNat = k := ⟨_, rfl⟩
  have hpow : (2 : ℚ) ^ lastPlace m e = 2 ^ k * 2 ^ e := by
    rw [← zpow_natCast, ← zpow_add₀ two_zpow_ne_zero]
    congr 1
    omega
  rw [hk] at hrlow hrhigh
  have hfloor : ((m / 2 ^ k : Nat) : ℚ) * 2 ^ k ≤ m := by exact_mod_cast Nat.div_mul_le_self m _
  have hceil : (m : ℚ) + 1 ≤ ((m / 2 ^ k : Nat) + 1 : ℚ) * 2 ^ k := by
    exact_mod_cast (Nat.div_lt_iff_lt_mul (Nat.two_pow_pos k)).mp (Nat.lt_succ_self _)
  have hrlow' : ((m / 2 ^ k : Nat) : ℚ) ≤ r := by exact_mod_cast hrlow
  have hrhigh' : (r : ℚ) ≤ (m / 2 ^ k : Nat) + 1 := by exact_mod_cast hrhigh
  generalize ((m / 2 ^ k : Nat) : ℚ) = q at *
  have hunit : (0 : ℚ) < 2 ^ e := by positivity
  have hunits : (0 : ℚ) < 2 ^ k * 2 ^ e := by positivity
  have h₁ := mul_le_mul_of_nonneg_right hfloor hunit.le
  have h₂ := mul_le_mul_of_nonneg_right hceil hunit.le
  have h₃ := mul_le_mul_of_nonneg_right hrlow' hunits.le
  have h₄ := mul_le_mul_of_nonneg_right hrhigh' hunits.le
  rw [hpow, abs_le]
  constructor <;> linarith

theorem log2_shiftLeft {m : Nat} (hm : 0 < m) (k : Nat) : (m <<< k).log2 = m.log2 + k := by
  rw [Nat.shiftLeft_eq, Nat.log2_eq_iff (by positivity), Nat.pow_succ, Nat.pow_add]
  have hlow := Nat.log2_self_le (n := m) (by omega)
  have hhigh := lt_two_pow_log2_succ hm
  refine ⟨Nat.mul_le_mul_right _ hlow, ?_⟩
  calc
    m * 2 ^ k < 2 ^ (m.log2 + 1) * 2 ^ k := Nat.mul_lt_mul_of_pos_right hhigh (Nat.two_pow_pos k)
    _ = 2 ^ m.log2 * 2 ^ k * 2 := by ring

theorem shiftLeft_mul_zpow (m k : Nat) (e : Int) :
    ((m <<< k : Nat) : ℚ) * 2 ^ (e - k) = m * 2 ^ e := by
  rw [Nat.shiftLeft_eq, Nat.cast_mul, Nat.cast_pow, Nat.cast_ofNat, mul_assoc, ← zpow_natCast,
    ← zpow_add₀ two_zpow_ne_zero]
  congr 2
  omega

theorem round_close (s : Sign) {m : Nat} {e : Int} (hm : 0 < m) (hmax : (m : ℚ) * 2 ^ e < 2 ^ 127) :
    ∃ r, numberOf (UnpackedFloat.unpack Format.binary32 (UnpackedFloat.pack Format.binary32
        (UnpackedFloat.round Format.binary32 s m e))) = some r ∧
      |r - signed s (m * 2 ^ e)| ≤ ulp (signed s (m * 2 ^ e)) := by
  obtain ⟨k, hk⟩ : ∃ k : Nat, (e - lastPlace m e).toNat = k := ⟨_, rfl⟩
  have hplace : lastPlace (m <<< k) (e - k) = lastPlace m e := by
    unfold lastPlace
    rw [log2_shiftLeft hm]
    omega
  have hpos : 0 < m <<< k := by
    rw [Nat.shiftLeft_eq]
    positivity
  have hround : UnpackedFloat.round Format.binary32 s m e =
      roundWithAccuracy Format.binary32 s (m <<< k) (e - k) .exact := by
    rw [← hk]
    rfl
  have hvalue := shiftLeft_mul_zpow m k e
  rw [hround, ← hvalue]
  apply roundWithAccuracy_close s .exact (.inl hpos) (by rw [hplace]; omega) le_rfl
  · gcongr
    linarith
  · rwa [hvalue]

/-- What fits into the mantissa is not rounded. -/
theorem round_exact (s : Sign) {m : Nat} {e : Int} (hm : 0 < m) (he : lastPlace m e ≤ e)
    (hmax : lastPlace m e ≤ 103) :
    numberOf (UnpackedFloat.unpack Format.binary32 (UnpackedFloat.pack Format.binary32
      (UnpackedFloat.round Format.binary32 s m e))) = some (signed s (m * 2 ^ e)) := by
  obtain ⟨k, hk⟩ : ∃ k : Nat, (e - lastPlace m e).toNat = k := ⟨_, rfl⟩
  have hplace : lastPlace (m <<< k) (e - k) = e - k := by
    unfold lastPlace at he hk ⊢
    rw [log2_shiftLeft hm]
    omega
  have hpos : 0 < m <<< k := by
    rw [Nat.shiftLeft_eq]
    positivity
  have hshift : shiftToTargetExponent Format.binary32 (m <<< k) (e - k) .exact =
      (⟨m <<< k, false, false⟩, e - k) := by
    change (ExtendedMantissa.mk (m <<< k) false false >>>
      (lastPlace (m <<< k) (e - k) - (e - k)).toNat,
        e - k + ((lastPlace (m <<< k) (e - k) - (e - k)).toNat : Int)) = _
    rw [hplace, Int.sub_self, Int.toNat_zero, Nat.cast_zero, Int.add_zero]
    rfl
  have hround : UnpackedFloat.round Format.binary32 s m e = .finite s (m <<< k) (e - k) hpos := by
    have hsplit : UnpackedFloat.round Format.binary32 s m e =
        roundWithAccuracy Format.binary32 s (m <<< k) (e - k) .exact := by
      rw [← hk]
      rfl
    have hrounded : (ExtendedMantissa.mk (m <<< k) false false).roundedMantissa = m <<< k := rfl
    rw [hsplit, roundWithAccuracy, hshift]
    simp only [hrounded, hshift]
    rw [dif_neg hpos.ne']
  have hcanonical : Canonical (m <<< k) (e - k) := by
    obtain ⟨hwidth, hnormal⟩ := quotient_bounds (.inl hpos) hplace.ge
    rw [hplace, Int.sub_self, Int.toNat_zero, pow_zero, Nat.div_one] at hwidth hnormal
    refine ⟨hwidth, ?_, (em (e - k = -149)).symm.imp_left hnormal⟩
    rw [← hplace]
    exact le_max_right _ _
  rw [hround, unpack_pack s hpos hcanonical, numberOf, shiftLeft_mul_zpow]
  unfold lastPlace at he hk hmax
  omega

theorem normalize_close {m e : Int} (zeroSign : Sign) (hmax : |(m : ℚ) * 2 ^ e| < 2 ^ 127) :
    ∃ r, numberOf (UnpackedFloat.unpack Format.binary32 (UnpackedFloat.pack Format.binary32
        (UnpackedFloat.normalize Format.binary32 m e zeroSign))) = some r ∧
      |r - m * 2 ^ e| ≤ ulp (m * 2 ^ e) := by
  unfold UnpackedFloat.normalize
  have hunit : (0 : ℚ) < 2 ^ e := by positivity
  rcases lt_trichotomy m 0 with hneg | rfl | hpos
  · rw [compare_lt_iff_lt.mpr hneg]
    obtain ⟨n, rfl⟩ : ∃ n : Nat, m = -n := ⟨(-m).toNat, by omega⟩
    have hsigned : signed .negative ((n : ℚ) * 2 ^ e) = ((-n : Int) : ℚ) * 2 ^ e := by
      rw [signed]
      push_cast
      ring
    rw [← hsigned, abs_signed, abs_of_nonneg (by positivity)] at hmax
    have hround := round_close .negative (by omega) hmax
    rw [hsigned] at hround
    simpa using hround
  · rw [compare_eq_iff_eq.mpr rfl]
    refine ⟨0, by rw [unpack_pack_zero, numberOf], ?_⟩
    simp [ulp]
  · rw [compare_gt_iff_gt.mpr hpos]
    obtain ⟨n, rfl⟩ : ∃ n : Nat, m = n := ⟨m.toNat, by omega⟩
    rw [abs_of_nonneg (by positivity)] at hmax
    have hround := round_close .positive (e := e) (m := n) (by omega) (by simpa using hmax)
    simpa [signed] using hround

theorem decreaseExponent_value (m : Nat) (e t : Int) :
    ((decreaseExponent m e t).1 : ℚ) * 2 ^ (decreaseExponent m e t).2 = m * 2 ^ e :=
  shiftLeft_mul_zpow m _ e

theorem decreaseExponent_min (m : Nat) (e f : Int) :
    (decreaseExponent m e (min e f)).2 = min e f ∧
      (decreaseExponent m f (min e f)).2 = min e f := by
  unfold decreaseExponent
  constructor <;> simp only <;> omega

theorem apply_cast (s : Sign) (m : Nat) (q : ℚ) :
    ((s.apply m : Int) : ℚ) * q = signed s (m * q) := by
  cases s <;> simp [Sign.apply, signed]

/-- A number as it is unpacked from the format. -/
def Stored : UnpackedFloat → Prop
  | .finite _ m e _ => Canonical m e ∧ e ≤ 104
  | _ => True

theorem stored_unpack (x : Float32) : Stored x.toModel.unpack := by
  cases hu : x.toModel.unpack with
  | finite s m e hm => exact canonical_of_unpack hu
  | zero s => trivial
  | infinity s => trivial
  | notANumber => trivial

theorem numberOf_unpack_pack {u : UnpackedFloat} {a : ℚ} (hs : Stored u) (h : numberOf u = some a) :
    numberOf (UnpackedFloat.unpack Format.binary32 (UnpackedFloat.pack Format.binary32 u)) =
      some a := by
  cases u with
  | zero s => rw [unpack_pack_zero, h]
  | finite s m e hm => rw [unpack_pack s hm hs.1 hs.2, h]
  | infinity s => cases h
  | notANumber => cases h

theorem stored_neg {u : UnpackedFloat} (hs : Stored u) : Stored u.neg := by
  cases u <;> exact hs

theorem neg_apply (s : Sign) (n : Int) : (-s).apply n = -s.apply n := by
  cases s
  · exact (neg_neg n).symm
  · rfl

theorem neg_signed (s : Sign) (q : ℚ) : signed (-s) q = -signed s q := by
  cases s
  · exact (neg_neg q).symm
  · rfl

theorem numberOf_neg {u : UnpackedFloat} {a : ℚ} (h : numberOf u = some a) :
    numberOf u.neg = some (-a) := by
  cases u with
  | zero s => rw [← Option.some_inj.mp h, neg_zero]; rfl
  | finite s m e hm =>
      rw [← Option.some_inj.mp h, ← neg_signed]
      rfl
  | infinity s => cases h
  | notANumber => cases h

theorem ulp_nonneg (v : ℚ) : 0 ≤ ulp v := by
  unfold ulp
  positivity

/-- Both operands of a sum with the smaller of their exponents. -/
theorem common_exponent (s₁ s₂ : Sign) (m₁ m₂ : Nat) (e₁ e₂ : Int) :
    ((s₁.apply (decreaseExponent m₁ e₁ (min e₁ e₂)).1 +
        s₂.apply (decreaseExponent m₂ e₂ (min e₁ e₂)).1 : Int) : ℚ) * 2 ^ min e₁ e₂ =
      signed s₁ (m₁ * 2 ^ e₁) + signed s₂ (m₂ * 2 ^ e₂) := by
  obtain ⟨hmin₁, hmin₂⟩ := decreaseExponent_min m₁ e₁ e₂
  have hmin₂' := (decreaseExponent_min m₂ e₁ e₂).2
  push_cast
  rw [add_mul, apply_cast, apply_cast, ← decreaseExponent_value m₁ e₁ (min e₁ e₂),
    ← decreaseExponent_value m₂ e₂ (min e₁ e₂), hmin₁, hmin₂']

theorem add_unpacked {u v : UnpackedFloat} {a b : ℚ} (hu : Stored u) (hv : Stored v)
    (ha : numberOf u = some a) (hb : numberOf v = some b) (hmax : |a + b| < 2 ^ 127) :
    ∃ r, numberOf (UnpackedFloat.unpack Format.binary32 (UnpackedFloat.pack Format.binary32
        (UnpackedFloat.add Format.binary32 u v))) = some r ∧ |r - (a + b)| ≤ ulp (a + b) := by
  have hkeepu := numberOf_unpack_pack hu ha
  have hkeepv := numberOf_unpack_pack hv hb
  cases u with
  | infinity s => cases ha
  | notANumber => cases ha
  | zero s₁ =>
      obtain rfl : 0 = a := Option.some_inj.mp ha
      cases v with
      | infinity s => cases hb
      | notANumber => cases hb
      | zero s₂ =>
          obtain rfl : 0 = b := Option.some_inj.mp hb
          refine ⟨0, ?_, by simpa using ulp_nonneg 0⟩
          cases s₁ <;> cases s₂ <;> exact (congrArg numberOf (unpack_pack_zero _)).trans rfl
      | finite s₂ m₂ e₂ hm₂ =>
          rw [zero_add]
          exact ⟨b, hkeepv, by simpa using ulp_nonneg b⟩
  | finite s₁ m₁ e₁ hm₁ =>
      cases v with
      | infinity s => cases hb
      | notANumber => cases hb
      | zero s₂ =>
          obtain rfl : 0 = b := Option.some_inj.mp hb
          rw [add_zero]
          exact ⟨a, hkeepu, by simpa using ulp_nonneg a⟩
      | finite s₂ m₂ e₂ hm₂ =>
          obtain rfl := Option.some_inj.mp ha
          obtain rfl := Option.some_inj.mp hb
          have hsum := common_exponent s₁ s₂ m₁ m₂ e₁ e₂
          rw [← hsum] at hmax ⊢
          exact normalize_close .positive hmax

/-- A difference is the sum with the negated operand. -/
theorem sub_unpacked (u v : UnpackedFloat) :
    UnpackedFloat.sub Format.binary32 u v = UnpackedFloat.add Format.binary32 u v.neg := by
  cases u with
  | finite s₁ m₁ e₁ hm₁ =>
      cases v with
      | finite s₂ m₂ e₂ hm₂ =>
          simp only [UnpackedFloat.sub, UnpackedFloat.add, UnpackedFloat.neg, neg_apply,
            Int.sub_eq_add_neg]
      | _ => rfl
  | _ => cases v <;> rfl

section Operations

variable {x y : Float32} {a b : ℚ}

theorem add_close (hx : value x = some a) (hy : value y = some b) (hmax : |a + b| < 2 ^ 127) :
    ∃ r, value (x + y) = some r ∧ |r - (a + b)| ≤ ulp (a + b) :=
  add_unpacked (stored_unpack x) (stored_unpack y) hx hy hmax

theorem sub_close (hx : value x = some a) (hy : value y = some b) (hmax : |a - b| < 2 ^ 127) :
    ∃ r, value (x - y) = some r ∧ |r - (a - b)| ≤ ulp (a - b) := by
  have hsub : value (x - y) = numberOf (UnpackedFloat.unpack Format.binary32
      (UnpackedFloat.pack Format.binary32
        (UnpackedFloat.sub Format.binary32 x.toModel.unpack y.toModel.unpack))) := rfl
  rw [sub_eq_add_neg] at hmax ⊢
  rw [hsub, sub_unpacked]
  exact add_unpacked (stored_unpack x) (stored_neg (stored_unpack y)) hx (numberOf_neg hy) hmax

theorem mul_signed (s₁ s₂ : Sign) (p q : ℚ) :
    signed (s₁ * s₂) (p * q) = signed s₁ p * signed s₂ q := by
  cases s₁ <;> cases s₂
  · exact (neg_mul_neg p q).symm
  · exact (neg_mul p q).symm
  · exact (mul_neg p q).symm
  · rfl

/-- The product of two mantissas has its last place above its exponent. -/
theorem le_lastPlace_mul {m₁ m₂ : Nat} {e₁ e₂ : Int} (hm₁ : 0 < m₁) (hm₂ : 0 < m₂)
    (h₁ : Canonical m₁ e₁) (h₂ : Canonical m₂ e₂) : e₁ + e₂ ≤ lastPlace (m₁ * m₂) (e₁ + e₂) := by
  have hmin : (-149 : Int) ≤ lastPlace (m₁ * m₂) (e₁ + e₂) := le_max_right _ _
  have hmax : ((m₁ * m₂).log2 : Int) + 1 + (e₁ + e₂) - 24 ≤ lastPlace (m₁ * m₂) (e₁ + e₂) :=
    le_max_left _ _
  have hnormal : 2 ^ 23 ≤ m₁ * m₂ → e₁ + e₂ ≤ lastPlace (m₁ * m₂) (e₁ + e₂) := by
    intro h
    have := (Nat.le_log2 (by positivity)).mpr h
    omega
  rcases h₁.normal with h | h
  · exact hnormal (h.trans (Nat.le_mul_of_pos_right m₁ hm₂))
  · rcases h₂.normal with h' | h'
    · exact hnormal (h'.trans (Nat.le_mul_of_pos_left m₂ hm₁))
    · omega

theorem mul_close (hx : value x = some a) (hy : value y = some b) (hmax : |a * b| < 2 ^ 127) :
    ∃ r, value (x * y) = some r ∧ |r - a * b| ≤ ulp (a * b) := by
  change ∃ r, numberOf (UnpackedFloat.unpack Format.binary32 (UnpackedFloat.pack Format.binary32
    (UnpackedFloat.mul Format.binary32 x.toModel.unpack y.toModel.unpack))) = some r ∧ _
  have hu := stored_unpack x
  have hv := stored_unpack y
  change numberOf x.toModel.unpack = _ at hx
  change numberOf y.toModel.unpack = _ at hy
  generalize x.toModel.unpack = u at *
  generalize y.toModel.unpack = v at *
  cases u with
  | infinity s => cases hx
  | notANumber => cases hx
  | zero s₁ =>
      obtain rfl : 0 = a := Option.some_inj.mp hx
      refine ⟨0, ?_, by simpa using ulp_nonneg 0⟩
      cases v with
      | infinity s => cases hy
      | notANumber => cases hy
      | zero s₂ => exact congrArg numberOf (unpack_pack_zero _)
      | finite s₂ m₂ e₂ hm₂ => exact congrArg numberOf (unpack_pack_zero _)
  | finite s₁ m₁ e₁ hm₁ =>
      cases v with
      | infinity s => cases hy
      | notANumber => cases hy
      | zero s₂ =>
          obtain rfl : 0 = b := Option.some_inj.mp hy
          rw [mul_zero]
          exact ⟨0, congrArg numberOf (unpack_pack_zero _), by simpa using ulp_nonneg 0⟩
      | finite s₂ m₂ e₂ hm₂ =>
          obtain rfl := Option.some_inj.mp hx
          obtain rfl := Option.some_inj.mp hy
          have hproduct : (m₁ * 2 ^ e₁ * (m₂ * 2 ^ e₂) : ℚ) = (m₁ * m₂ : Nat) * 2 ^ (e₁ + e₂) := by
            rw [zpow_add₀ two_zpow_ne_zero]
            push_cast
            ring
          rw [← mul_signed, hproduct] at hmax ⊢
          rw [abs_signed, abs_of_nonneg (by positivity)] at hmax
          apply roundWithAccuracy_close (s₁ * s₂) .exact (.inl (Nat.mul_pos hm₁ hm₂))
            (le_lastPlace_mul hm₁ hm₂ hu.1 hv.1) le_rfl
          · gcongr
            linarith
          · exact hmax

/-- The quotient has bits enough for its mantissa, or goes down to the least exponent. -/
theorem divCore_spec {m₁ m₂ : Nat} (e₁ e₂ : Int) (hm₁ : 0 < m₁) (hm₂ : 0 < m₂) :
    ∃ m e accuracy, divCore Format.binary32 m₁ e₁ m₂ e₂ = (m, e, accuracy) ∧
      (0 < m ∨ e ≤ -149) ∧ e ≤ lastPlace m e ∧ (m : ℚ) * 2 ^ e ≤ m₁ * 2 ^ e₁ / (m₂ * 2 ^ e₂) ∧
      m₁ * 2 ^ e₁ / (m₂ * 2 ^ e₂) ≤ (m + 1 : ℚ) * 2 ^ e := by
  obtain ⟨d, hd⟩ : ∃ d : Int, (m₁.log2 + 1 + e₁) - (m₂.log2 + 1 + e₂) - 24 = d := ⟨_, rfl⟩
  obtain ⟨t, ht⟩ : ∃ t, min (e₁ - e₂) (max d (-149)) = t := ⟨_, rfl⟩
  obtain ⟨k, hk⟩ : ∃ k : Nat, (e₁ - e₂ - t).toNat = k := ⟨_, rfl⟩
  have htarget : min (e₁ - e₂) (Format.binary32.targetExponent
      (totalExponent m₁ e₁ - totalExponent m₂ e₂)) = t := by
    rw [← ht, ← hd]
    rfl
  have hcore : divCore Format.binary32 m₁ e₁ m₂ e₂ =
      (m₁ <<< k / m₂, t, accuracyOfFraction (m₁ <<< k % m₂) m₂) := by
    unfold divCore
    simp only [htarget, hk]
  have hm₂' : (0 : ℚ) < m₂ := by exact_mod_cast hm₂
  have hunit : (0 : ℚ) < 2 ^ t := by positivity
  have hvalue : (m₁ * 2 ^ e₁ / (m₂ * 2 ^ e₂) : ℚ) = ((m₁ <<< k : Nat) : ℚ) / m₂ * 2 ^ t := by
    have hexp : e₁ - k = e₂ + t := by omega
    rw [← shiftLeft_mul_zpow m₁ k e₁, hexp, zpow_add₀ two_zpow_ne_zero]
    field_simp
  have hlow : ((m₁ <<< k / m₂ : Nat) : ℚ) ≤ ((m₁ <<< k : Nat) : ℚ) / m₂ := Nat.cast_div_le
  have hhigh : ((m₁ <<< k : Nat) : ℚ) / m₂ ≤ (m₁ <<< k / m₂ : Nat) + 1 := by
    rw [div_le_iff₀ hm₂']
    exact_mod_cast ((Nat.div_lt_iff_lt_mul hm₂).mp (Nat.lt_succ_self _)).le
  have hleading : (2 : ℚ) ^ (d + 23) ≤ m₁ * 2 ^ e₁ / (m₂ * 2 ^ e₂) := by
    have h₁ := leading_le (e := e₁) hm₁
    have h₂ : (m₂ : ℚ) * 2 ^ e₂ ≤ 2 ^ ((m₂.log2 : Int) + 1 + e₂) := by
      rw [zpow_add₀ two_zpow_ne_zero, ← Nat.cast_succ, zpow_natCast]
      gcongr
      exact_mod_cast (lt_two_pow_log2_succ hm₂).le
    have hexp : (m₁.log2 : Int) + e₁ = d + 23 + ((m₂.log2 : Int) + 1 + e₂) := by omega
    rw [le_div_iff₀ (by positivity)]
    rw [hexp, zpow_add₀ two_zpow_ne_zero] at h₁
    exact (mul_le_mul_of_nonneg_left h₂ (by positivity)).trans h₁
  have hcases : 2 ^ 23 ≤ m₁ <<< k / m₂ ∨ t ≤ -149 := by
    by_cases hcase : t ≤ d
    · left
      have hbits : (2 : ℚ) ^ (t + (23 : Nat)) ≤ m₁ * 2 ^ e₁ / (m₂ * 2 ^ e₂) :=
        (zpow_le_zpow_right₀ (by norm_num) (by push_cast; omega)).trans hleading
      rw [hvalue, zpow_add₀ two_zpow_ne_zero, mul_comm, mul_le_mul_iff_of_pos_right hunit,
        le_div_iff₀ hm₂', zpow_natCast] at hbits
      rw [Nat.le_div_iff_mul_le hm₂]
      exact_mod_cast hbits
    · right
      omega
  refine ⟨_, _, _, hcore, by omega, ?_, ?_, ?_⟩
  · unfold lastPlace
    rcases hcases with h | h
    · have := (Nat.le_log2 (by omega)).mpr h
      omega
    · omega
  · rw [hvalue]
    gcongr
  · rw [hvalue]
    gcongr

theorem div_signed (s₁ s₂ : Sign) (p q : ℚ) :
    signed (s₁ / s₂) (p / q) = signed s₁ p / signed s₂ q := by
  cases s₁ <;> cases s₂
  · exact (neg_div_neg_eq p q).symm
  · exact (neg_div q p).symm
  · exact (div_neg p).symm
  · rfl

theorem div_close (hx : value x = some a) (hy : value y = some b) (hb : b ≠ 0)
    (hmax : |a / b| < 2 ^ 127) : ∃ r, value (x / y) = some r ∧ |r - a / b| ≤ ulp (a / b) := by
  change ∃ r, numberOf (UnpackedFloat.unpack Format.binary32 (UnpackedFloat.pack Format.binary32
    (UnpackedFloat.div Format.binary32 x.toModel.unpack y.toModel.unpack))) = some r ∧ _
  change numberOf x.toModel.unpack = _ at hx
  change numberOf y.toModel.unpack = _ at hy
  generalize x.toModel.unpack = u at *
  generalize y.toModel.unpack = v at *
  cases v with
  | infinity s => cases hy
  | notANumber => cases hy
  | zero s₂ => exact absurd (Option.some_inj.mp hy).symm hb
  | finite s₂ m₂ e₂ hm₂ =>
      cases u with
      | infinity s => cases hx
      | notANumber => cases hx
      | zero s₁ =>
          obtain rfl : 0 = a := Option.some_inj.mp hx
          rw [zero_div]
          exact ⟨0, congrArg numberOf (unpack_pack_zero _), by simpa using ulp_nonneg 0⟩
      | finite s₁ m₁ e₁ hm₁ =>
          obtain rfl := Option.some_inj.mp hx
          obtain rfl := Option.some_inj.mp hy
          have hnonneg : (0 : ℚ) ≤ m₁ * 2 ^ e₁ / (m₂ * 2 ^ e₂) := by positivity
          rw [← div_signed] at hmax ⊢
          rw [abs_signed, abs_of_nonneg hnonneg] at hmax
          obtain ⟨m, e, accuracy, hcore, hm, he, hlow, hhigh⟩ := divCore_spec e₁ e₂ hm₁ hm₂
          simp only [UnpackedFloat.div, hcore]
          exact roundWithAccuracy_close (s₁ / s₂) accuracy hm he hlow hhigh hmax

/-- A count of up to 24 bits is converted without rounding. -/
theorem ofInt_exact {n : Nat} (hn : n < 2 ^ 24) :
    value (Float32.ofModel (.ofInt n)) = some (n : ℚ) := by
  change numberOf (UnpackedFloat.unpack Format.binary32 (UnpackedFloat.pack Format.binary32
    (UnpackedFloat.normalize Format.binary32 n 0 .positive))) = _
  rcases Nat.eq_zero_or_pos n with rfl | hpos
  · rfl
  · have hlog : n.log2 < 24 := (Nat.log2_lt hpos.ne').mpr hn
    have hplace : lastPlace n 0 ≤ 0 := by
      unfold lastPlace
      omega
    have hround := round_exact .positive hpos hplace (hplace.trans (by decide))
    rw [UnpackedFloat.normalize, compare_gt_iff_gt.mpr (by omega)]
    simpa [signed] using hround

/-- An integer is converted with one rounding. -/
theorem ofInt_close {n : Int} (hn : |(n : ℚ)| < 2 ^ 127) :
    ∃ r, value (Float32.ofModel (.ofInt n)) = some r ∧ |r - n| ≤ ulp n := by
  have hone : (n : ℚ) * 2 ^ (0 : Int) = n := by rw [zpow_zero, mul_one]
  have hclose := normalize_close (m := n) (e := 0) .positive (by rwa [hone])
  rwa [hone] at hclose
theorem value_toFloat32 (n : UInt8) : value n.toFloat32 = some (n.toNat : ℚ) :=
  ofInt_exact (n.toNat_lt.trans (by decide))

/-- The integer towards zero. -/
def truncate (q : ℚ) : Int := if 0 ≤ q then ⌊q⌋ else ⌈q⌉

theorem truncate_signed (s : Sign) {q : ℚ} (hq : 0 ≤ q) : truncate (signed s q) = s.apply ⌊q⌋ := by
  cases s
  · change (if 0 ≤ -q then ⌊-q⌋ else ⌈-q⌉) = -⌊q⌋
    by_cases h : 0 ≤ -q
    · have hzero : q = 0 := by linarith
      simp [hzero]
    · rw [if_neg h, Int.ceil_neg]
  · exact if_pos hq

/-- The integer is not greater in magnitude than the number. -/
theorem abs_truncate_le (q : ℚ) : |(truncate q : ℚ)| ≤ |q| := by
  unfold truncate
  split
  case isTrue h =>
    rw [abs_of_nonneg h, abs_of_nonneg (by exact_mod_cast Int.floor_nonneg.mpr h)]
    exact Int.floor_le q
  case isFalse h =>
    have hneg : q ≤ 0 := by linarith
    have hceil : ⌈q⌉ ≤ 0 := Int.ceil_le.mpr (by exact_mod_cast hneg)
    rw [abs_of_nonpos hneg, abs_of_nonpos (by exact_mod_cast hceil)]
    exact neg_le_neg (Int.le_ceil q)

theorem abs_sub_truncate_lt (q : ℚ) : |q - truncate q| < 1 := by
  unfold truncate
  split
  · have h₁ := Int.floor_le q
    have h₂ := Int.lt_floor_add_one q
    rw [abs_lt]
    constructor <;> linarith
  · have h₁ := Int.le_ceil q
    have h₂ := Int.ceil_lt_add_one q
    rw [abs_lt]
    constructor <;> linarith

theorem floor_mul_zpow (m : Nat) (e : Int) :
    ⌊(m : ℚ) * 2 ^ e⌋ = ((m <<< e.toNat / 2 ^ (-e).toNat : Nat) : Int) := by
  rcases le_total 0 e with he | he
  · obtain ⟨n, rfl⟩ := Int.eq_ofNat_of_zero_le he
    have hneg : (-(n : Int)).toNat = 0 := by omega
    rw [hneg, Int.toNat_natCast, zpow_natCast, Nat.shiftLeft_eq, pow_zero, Nat.div_one]
    exact_mod_cast Int.floor_natCast (R := ℚ) (m * 2 ^ n)
  · obtain ⟨n, hn⟩ := Int.eq_ofNat_of_zero_le (Int.neg_nonneg.mpr he)
    obtain rfl : e = -n := by omega
    have hpos : (-(n : Int)).toNat = 0 := by omega
    have hneg : (-(-(n : Int))).toNat = n := by omega
    rw [hpos, hneg, Nat.shiftLeft_zero, zpow_neg, zpow_natCast, ← div_eq_mul_inv]
    exact_mod_cast Rat.floor_natCast_div_natCast m (2 ^ n)

theorem roundToInt_eq (s : Sign) (m : Nat) (e : Int) :
    roundToInt s m e = truncate (signed s (m * 2 ^ e)) := by
  have hright : (0 - (e - (e - 0).toNat)).toNat = (-e).toNat := by omega
  have hleft : (e - 0).toNat = e.toNat := by omega
  rw [truncate_signed s (by positivity), floor_mul_zpow, ← hleft, ← hright]
  change s.apply ((_ : ExtendedMantissa).mantissa : Nat) = _
  congr 2
  exact mantissa_shiftRight _ _

theorem toInt_ofIntClamp {n : Int} (hlow : -2 ^ 31 ≤ n) (hhigh : n < 2 ^ 31) :
    (Int32.ofIntClamp n).toInt = n := by
  have hmin : Int32.minValue.toInt = -2 ^ 31 := by decide
  have hmax : Int32.maxValue.toInt = 2 ^ 31 - 1 := by decide
  rw [Int32.ofIntClamp, dif_pos (by omega), dif_pos (by omega), Int32.toInt_ofIntLE]

/-- The conversion of a float in the range of the integers to the integer towards zero. -/
theorem toInt32_eq (hx : value x = some a) (hmax : |a| < 2 ^ 31) :
    x.toModel.toInt32.toInt = truncate a := by
  have hbound : |(truncate a : ℚ)| < 2 ^ 31 := (abs_truncate_le a).trans_lt hmax
  rw [abs_lt] at hbound
  obtain ⟨hlow, hhigh⟩ : -2 ^ 31 < truncate a ∧ truncate a < 2 ^ 31 := by exact_mod_cast hbound
  rw [Float32.Model.toInt32, UnpackedFloat.toInt32]
  change numberOf x.toModel.unpack = _ at hx
  have hint : UnpackedFloat.toInt Int32.minValue.toInt Int32.maxValue.toInt x.toModel.unpack =
      truncate a := by
    generalize x.toModel.unpack = u at hx
    cases u with
    | infinity s => cases hx
    | notANumber => cases hx
    | zero s =>
        obtain rfl : 0 = a := Option.some_inj.mp hx
        rfl
    | finite s m e hm =>
        obtain rfl := Option.some_inj.mp hx
        exact roundToInt_eq s m e
  rw [hint, toInt_ofIntClamp hlow.le hhigh]

/-- The sign of a float, zero of either sign included. -/
theorem nonneg_iff (hx : value x = some a) : 0 ≤ x ↔ 0 ≤ a := by
  have hle : 0 ≤ x ↔ (UnpackedFloat.zero .positive).le x.toModel.unpack = true := by
    change decide ((0 : Float32).toModel ≤ x.toModel) = true ↔ _
    rw [decide_eq_true_iff]
    rfl
  rw [hle]
  change numberOf x.toModel.unpack = _ at hx
  generalize x.toModel.unpack = u at hx
  cases u with
  | infinity s => cases hx
  | notANumber => cases hx
  | zero s =>
      obtain rfl : 0 = a := Option.some_inj.mp hx
      exact iff_of_true rfl le_rfl
  | finite s m e hm =>
      obtain rfl : signed s (m * 2 ^ e) = a := Option.some_inj.mp hx
      have hpos : (0 : ℚ) < m * 2 ^ e := by positivity
      cases s with
      | positive => exact iff_of_true rfl hpos.le
      | negative =>
          apply iff_of_false
          · intro h
            cases h
          · simpa [signed] using hpos

end Operations

end RaspiOrbSlam.Foundation.Binary32
