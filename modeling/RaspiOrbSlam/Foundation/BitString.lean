import Mathlib.Data.Nat.Bitwise

/-!
# Bit strings

Numbers written with a fixed number of bits, most significant bit first, and
the strings that bytes concatenate to.
-/

namespace RaspiOrbSlam.Foundation

/-- The `width` low bits of a number, most significant first. -/
def bitsOf : (width : Nat) → Nat → List Bool
  | 0, _ => []
  | width + 1, n => n.testBit width :: bitsOf width n

@[simp]
theorem length_bitsOf (width n : Nat) : (bitsOf width n).length = width := by
  induction width with
  | zero => rfl
  | succ width ih => simp [bitsOf, ih]

theorem bitsOf_congr {width m n : Nat} (h : ∀ i < width, m.testBit i = n.testBit i) :
    bitsOf width m = bitsOf width n := by
  induction width with
  | zero => rfl
  | succ width ih =>
      simp only [bitsOf]
      rw [h width (Nat.lt_succ_self width)]
      congr 1
      apply ih
      intro i hi
      exact h i (by omega)

/-- The bits above position `low`, then the bits below it. -/
theorem bitsOf_add (high low n : Nat) :
    bitsOf (high + low) n = bitsOf high (n >>> low) ++ bitsOf low n := by
  induction high with
  | zero => simp [bitsOf]
  | succ high ih =>
      have hwidth : high + 1 + low = high + low + 1 := by omega
      rw [hwidth, bitsOf, ih, bitsOf, List.cons_append, Nat.testBit_shiftRight, Nat.add_comm high]

/-- A number in front of `low` further bits. -/
theorem bitsOf_mul_add {high low m k : Nat} (hk : k < 2 ^ low) :
    bitsOf (high + low) (2 ^ low * m + k) = bitsOf high m ++ bitsOf low k := by
  rw [bitsOf_add, Nat.shiftRight_eq_div_pow, Nat.mul_add_div (Nat.two_pow_pos low),
    Nat.div_eq_of_lt hk, Nat.add_zero]
  congr 1
  apply bitsOf_congr
  intro i hi
  rw [Nat.testBit_two_pow_mul_add m hk, if_pos hi]

/-- All the bits of the greatest number of a width are set. -/
theorem bitsOf_two_pow_sub_one (width : Nat) :
    bitsOf width (2 ^ width - 1) = List.replicate width true := by
  induction width with
  | zero => rfl
  | succ width ih =>
      rw [bitsOf, Nat.testBit_two_pow_sub_one, List.replicate_succ, ← ih]
      simp only [Nat.lt_succ_self, decide_true]
      congr 1
      apply bitsOf_congr
      intro i hi
      simp only [Nat.testBit_two_pow_sub_one]
      simp [hi, Nat.lt_succ_of_lt hi]

/-- The number that a bit string writes behind the number `high`. -/
def numberFrom (high : Nat) (bits : List Bool) : Nat :=
  bits.foldl (fun n b => 2 * n + b.toNat) high

theorem numberFrom_cons (high : Nat) (b : Bool) (bits : List Bool) :
    numberFrom high (b :: bits) = numberFrom (2 * high + b.toNat) bits := rfl

theorem two_mul_shiftRight_add_testBit (n k : Nat) :
    2 * (n >>> (k + 1)) + (n.testBit k).toNat = n >>> k := by
  rw [Nat.toNat_testBit, Nat.shiftRight_succ, Nat.shiftRight_eq_div_pow]
  omega

theorem numberFrom_bitsOf (width n : Nat) : numberFrom (n >>> width) (bitsOf width n) = n := by
  induction width with
  | zero => rfl
  | succ width ih => rw [bitsOf, numberFrom_cons, two_mul_shiftRight_add_testBit, ih]

/-- Reading back the bits of a number that fits. -/
theorem numberFrom_zero_bitsOf {width n : Nat} (h : n < 2 ^ width) :
    numberFrom 0 (bitsOf width n) = n := by
  have hhigh : n >>> width = 0 := by rw [Nat.shiftRight_eq_div_pow, Nat.div_eq_of_lt h]
  rw [← hhigh]
  exact numberFrom_bitsOf width n

/-- The bits of a sequence of bytes. -/
def bitsOfBytes (bytes : List UInt8) : List Bool :=
  bytes.flatMap fun b => bitsOf 8 b.toNat

@[simp]
theorem bitsOfBytes_nil : bitsOfBytes [] = [] := rfl

@[simp]
theorem bitsOfBytes_cons (b : UInt8) (bytes : List UInt8) :
    bitsOfBytes (b :: bytes) = bitsOf 8 b.toNat ++ bitsOfBytes bytes := rfl

@[simp]
theorem bitsOfBytes_append (front back : List UInt8) :
    bitsOfBytes (front ++ back) = bitsOfBytes front ++ bitsOfBytes back :=
  List.flatMap_append

theorem length_bitsOfBytes (bytes : List UInt8) :
    (bitsOfBytes bytes).length = 8 * bytes.length := by
  induction bytes with
  | nil => rfl
  | cons b rest ih => simp [ih]; omega

end RaspiOrbSlam.Foundation
