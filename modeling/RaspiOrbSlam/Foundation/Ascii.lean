import RaspiOrbSlam.Foundation.Parser

/-!
# Text in a sequence of bytes

Texts of ASCII characters and decimal numbers, and the parsers that read them.
-/

namespace RaspiOrbSlam.Foundation

/-- The bytes of a text of ASCII characters. -/
def ascii (text : String) : List UInt8 := text.toList.map fun c => UInt8.ofNat c.toNat

/-- The characters of a text. -/
def characters (bytes : List UInt8) : List Char := bytes.map fun b => Char.ofNat b.toNat

theorem ascii_append (front back : String) : ascii (front ++ back) = ascii front ++ ascii back := by
  rw [ascii, String.toList_append, List.map_append]
  rfl

theorem toNat_of_isDigit {c : Char} (h : c.isDigit) : 48 ≤ c.toNat ∧ c.toNat ≤ 57 := by
  simp only [Char.isDigit, Bool.and_eq_true, decide_eq_true_eq, ge_iff_le, UInt32.le_iff_toNat_le]
    at h
  exact h

theorem byte_of_isDigit {c : Char} (h : c.isDigit) :
    (UInt8.ofNat c.toNat).toNat = c.toNat ∧ Char.ofNat (UInt8.ofNat c.toNat).toNat = c := by
  have hbyte : (UInt8.ofNat c.toNat).toNat = c.toNat := by
    apply UInt8.toNat_ofNat_of_lt'
    exact Nat.lt_of_le_of_lt (toNat_of_isDigit h).2 (by decide)
  exact ⟨hbyte, by rw [hbyte, Char.ofNat_toNat]⟩

theorem isDigit_of_mem {c : Char} {n : Nat} (h : c ∈ (toString n).toList) : c.isDigit := by
  rw [Nat.toString_eq_repr, Nat.toList_repr] at h
  exact Nat.isDigit_of_mem_toDigits (by decide) (by decide) h

theorem characters_ascii_toString (n : Nat) :
    characters (ascii (toString n)) = Nat.toDigits 10 n := by
  have hid : (toString n).toList.map ((fun b : UInt8 => Char.ofNat b.toNat) ∘
      fun c : Char => UInt8.ofNat c.toNat) = (toString n).toList.map id := by
    apply List.map_congr_left
    intro c hc
    exact (byte_of_isDigit (isDigit_of_mem hc)).2
  rw [characters, ascii, List.map_map, hid, List.map_id, Nat.toString_eq_repr, Nat.toList_repr]

namespace Parser

variable {ε : Type}

/-- A fixed text. -/
def expect (invalid : ε) (text : List UInt8) : Parser UInt8 ε Unit := fun input =>
  if text.isPrefixOf input then .ok ((), input.drop text.length) else .error invalid

theorem Yields.expect (invalid : ε) (text : List UInt8) :
    Yields (expect invalid text) text () := by
  intro rest
  have hfront : text.isPrefixOf (text ++ rest) = true :=
    List.isPrefixOf_iff_prefix.mpr (List.prefix_append _ _)
  rw [Parser.expect, if_pos hfront, List.drop_left]

/-- A decimal number in front of the byte `stop`. -/
def number (invalid : ε) (stop : UInt8) : Parser UInt8 ε Nat := fun input =>
  let digits := characters (input.takeWhile (· != stop))
  match input.dropWhile (· != stop) with
  | [] => .error invalid
  | _ :: rest =>
      if digits ≠ [] ∧ digits.all Char.isDigit then .ok (Nat.ofDigitChars 10 digits 0, rest)
      else .error invalid

theorem Yields.number (invalid : ε) {stop : UInt8} (hstop : 57 < stop.toNat ∨ stop.toNat < 48)
    (n : Nat) : Yields (number invalid stop) (ascii (toString n) ++ [stop]) n := by
  have hdigits : ∀ b ∈ ascii (toString n), (b != stop) = true := by
    intro b hb
    obtain ⟨c, hc, rfl⟩ := List.mem_map.mp hb
    have hdigit := isDigit_of_mem hc
    have hrange := toNat_of_isDigit hdigit
    rw [bne_iff_ne]
    rintro rfl
    rw [(byte_of_isDigit hdigit).1] at hstop
    omega
  intro rest
  have hstopped : (stop != stop) = false := by simp
  rw [Parser.number, List.append_assoc, List.takeWhile_append_of_pos hdigits,
    List.dropWhile_append_of_pos hdigits]
  simp only [List.singleton_append, List.takeWhile_cons, List.dropWhile_cons, hstopped,
    Bool.false_eq_true, if_false, List.append_nil, characters_ascii_toString]
  rw [if_pos, Nat.ofDigitChars_toDigits (by decide) (by decide)]
  refine ⟨Nat.toDigits_ne_nil, List.all_eq_true.mpr ?_⟩
  intro c hc
  exact Nat.isDigit_of_mem_toDigits (by decide) (by decide) hc

end Parser

end RaspiOrbSlam.Foundation
