import RaspiOrbSlam.Foundation.BitString
import RaspiOrbSlam.Foundation.Parser
import Mathlib.Data.List.Nodup

/-! # Canonical prefix codes

A code is given by how many codewords there are of each width and by the
symbols in the order of their codewords. The codewords of one width are
consecutive numbers, and the first one of the next width continues from them.
Reading bit by bit, a codeword is complete as soon as its number is below the
end of its width. -/

namespace RaspiOrbSlam.Foundation

/-- A symbol and the `width` low bits of `code`, its codeword. -/
structure Codeword (α : Type*) where
  symbol : α
  code : Nat
  width : Nat

namespace Codeword

variable {α : Type}

def bits (c : Codeword α) : List Bool := bitsOf c.width c.code

/-- The codewords of one width, from the number `code` on. -/
def level (width : Nat) : (symbols : List α) → (code : Nat) → List (Codeword α)
  | [], _ => []
  | a :: rest, code => ⟨a, code, width⟩ :: level width rest (code + 1)

/-- The codewords of the widths from `width` on, the first of them being `code`. -/
def assign : (counts : List Nat) → (symbols : List α) → (width code : Nat) → List (Codeword α)
  | [], _, _, _ => []
  | n :: counts, symbols, width, code =>
      level width (symbols.take n) code ++
        assign counts (symbols.drop n) (width + 1) (2 * (code + n))

/-- No width has more codewords than numbers left for it. -/
def Feasible : (counts : List Nat) → (width code : Nat) → Prop
  | [], _, _ => True
  | n :: counts, width, code =>
      code + n ≤ 2 ^ width ∧ Feasible counts (width + 1) (2 * (code + n))

instance decidableFeasible : ∀ counts width code, Decidable (Feasible counts width code)
  | [], _, _ => isTrue trivial
  | n :: counts, width, code =>
      @instDecidableAnd _ _ _ (decidableFeasible counts (width + 1) (2 * (code + n)))

/-- Read one codeword, of which `code` was read so far; `first` is the first codeword of
the next width. -/
def decode {ε : Type} (invalid : ε) :
    (counts : List Nat) → (symbols : List α) → (code first : Nat) → Parser Bool ε α
  | [], _, _, _ => throw invalid
  | n :: counts, symbols, code, first => do
      let b ← Parser.item invalid
      let next := 2 * code + b.toNat
      if next < first + n then
        match symbols[next - first]? with
        | some a => return a
        | none => throw invalid
      else decode invalid counts (symbols.drop n) next (2 * (first + n))

theorem mem_level {width code : Nat} {symbols : List α} {c : Codeword α} :
    c ∈ level width symbols code ↔
      ∃ i, symbols[i]? = some c.symbol ∧ c.code = code + i ∧ c.width = width := by
  induction symbols generalizing code with
  | nil => simp [level]
  | cons a rest ih =>
      rw [level, List.mem_cons, ih]
      constructor
      · rintro (rfl | ⟨i, hi, hcode, hwidth⟩)
        · exact ⟨0, rfl, rfl, rfl⟩
        · exact ⟨i + 1, hi, by omega, hwidth⟩
      · rintro ⟨i, hi, hcode, hwidth⟩
        cases i with
        | zero =>
            left
            obtain ⟨symbol, number, w⟩ := c
            simp_all
        | succ i => exact .inr ⟨i, hi, by omega, hwidth⟩

/-- A codeword is not shorter than the widths it was taken from, and not below their start. -/
theorem le_of_mem_assign {counts : List Nat} {symbols : List α} {width code : Nat}
    {c : Codeword α} (hc : c ∈ assign counts symbols width code) :
    width ≤ c.width ∧ code ≤ c.code >>> (c.width - width) := by
  induction counts generalizing symbols width code with
  | nil => simp [assign] at hc
  | cons n counts ih =>
      rw [assign, List.mem_append] at hc
      rcases hc with hc | hc
      · obtain ⟨i, -, hcode, hwidth⟩ := mem_level.mp hc
        simp [hwidth, hcode]
      · obtain ⟨hwidth, hfirst⟩ := ih hc
        have hdiff : c.width - width = (c.width - (width + 1)) + 1 := by omega
        refine ⟨by omega, ?_⟩
        rw [hdiff, Nat.shiftRight_succ]
        omega

theorem lt_of_mem_assign {counts : List Nat} {symbols : List α} {width code : Nat}
    {c : Codeword α} (hfeasible : Feasible counts width code)
    (hc : c ∈ assign counts symbols width code) : c.code < 2 ^ c.width := by
  induction counts generalizing symbols width code with
  | nil => simp [assign] at hc
  | cons n counts ih =>
      rw [assign, List.mem_append] at hc
      rcases hc with hc | hc
      · obtain ⟨i, hi, hcode, hwidth⟩ := mem_level.mp hc
        have hlt : i < (symbols.take n).length := (List.getElem?_eq_some_iff.mp hi).1
        have hroom := hfeasible.1
        rw [hwidth, hcode]
        simp only [List.length_take] at hlt
        omega
      · exact ih hfeasible.2 hc

theorem width_lt_of_mem_assign {counts : List Nat} {symbols : List α} {width code : Nat}
    {c : Codeword α} (hc : c ∈ assign counts symbols width code) :
    c.width < width + counts.length := by
  induction counts generalizing symbols width code with
  | nil => simp [assign] at hc
  | cons n counts ih =>
      rw [assign, List.mem_append] at hc
      rw [List.length_cons]
      rcases hc with hc | hc
      · obtain ⟨i, -, -, hwidth⟩ := mem_level.mp hc
        omega
      · have := ih hc
        omega

theorem map_symbol_level (width : Nat) (symbols : List α) (code : Nat) :
    (level width symbols code).map symbol = symbols := by
  induction symbols generalizing code with
  | nil => rfl
  | cons a rest ih => rw [level, List.map_cons, ih]

/-- The symbols get codewords in their order. -/
theorem map_symbol_assign (counts : List Nat) (symbols : List α) (width code : Nat) :
    (assign counts symbols width code).map symbol = symbols.take counts.sum := by
  induction counts generalizing symbols width code with
  | nil => simp [assign]
  | cons n counts ih =>
      rw [assign, List.map_append, map_symbol_level, ih, List.sum_cons, List.take_add]

/-- Behind the bits above the last `k + 1` ones, reading goes on to the codeword's symbol. -/
theorem decode_rest {ε : Type} (invalid : ε) {counts : List Nat} {symbols : List α}
    {width first : Nat} {c : Codeword α} (hc : c ∈ assign counts symbols width first) :
    Parser.Yields
      (decode invalid counts symbols (c.code >>> (c.width - width + 1)) first)
      (bitsOf (c.width - width + 1) c.code) c.symbol := by
  induction counts generalizing symbols width first with
  | nil => simp [assign] at hc
  | cons n counts ih =>
      intro rest
      have hitem : ∀ (b : Bool) (bits : List Bool),
          Parser.item invalid (b :: bits) = .ok (b, bits) := fun _ _ => rfl
      rw [bitsOf, List.cons_append, decode, Parser.bind_ok (hitem _ _)]
      simp only [two_mul_shiftRight_add_testBit]
      rw [assign, List.mem_append] at hc
      rcases hc with hc | hc
      · obtain ⟨i, hi, hcode, hwidth⟩ := mem_level.mp hc
        have hlt : i < (symbols.take n).length := (List.getElem?_eq_some_iff.mp hi).1
        have hsymbol : symbols[i]? = some c.symbol := by
          rw [← hi, List.getElem?_take_of_lt]
          simp only [List.length_take] at hlt
          omega
        simp only [List.length_take] at hlt
        have hin : first + i < first + n := by omega
        simp [hwidth, hcode, hin, hsymbol, bitsOf]
        rfl
      · obtain ⟨hwidth, hfirst⟩ := le_of_mem_assign hc
        have hdiff : c.width - width = c.width - (width + 1) + 1 := by omega
        have hbig : ¬c.code >>> (c.width - width) < first + n := by
          rw [hdiff, Nat.shiftRight_succ]
          omega
        rw [if_neg hbig, hdiff]
        exact ih hc rest

/-- Reading a codeword gives its symbol and leaves what follows. -/
theorem decode_yields {ε : Type} (invalid : ε) {counts : List Nat} {symbols : List α}
    {c : Codeword α} (hfeasible : Feasible counts 1 0) (hc : c ∈ assign counts symbols 1 0) :
    Parser.Yields (decode invalid counts symbols 0 0) c.bits c.symbol := by
  have hwidth := (le_of_mem_assign hc).1
  have hdiff : c.width - 1 + 1 = c.width := by omega
  have hzero : c.code >>> c.width = 0 := by
    rw [Nat.shiftRight_eq_div_pow, Nat.div_eq_of_lt (lt_of_mem_assign hfeasible hc)]
  have hread := decode_rest invalid hc
  rw [hdiff, hzero] at hread
  exact hread

end Codeword

end RaspiOrbSlam.Foundation
