import RaspiOrbSlam.Foundation.Ascii
import RaspiOrbSlam.Server.Percentage
import Mathlib.Data.List.TakeWhile

/-!
# The load of the memory

`getMemUtilization` looks for the line of `/proc/meminfo` with the available memory and computes in
single precision which share is in use. The metrics packet has a byte for it.
-/

namespace RaspiOrbSlam.Server

open Foundation
open Protocol (Platform)

/-- What the standard library throws. -/
inductive MemFault where
  | outOfRange
  | invalidArgument
  deriving DecidableEq, Repr

/-- The text in front of the number, without the blank at its end. -/
def memAvailable : List Char := "MemAvailable:".toList

def pos : Nat := "MemAvailable: ".toList.length

/-- `line.rfind(" ")`, which is the greatest `size_t` for a line without a blank. -/
def rfindBlank (w : Nat) (line : List Char) : BitVec w :=
  match line.reverse.findIdx? (· == ' ') with
  | some i => BitVec.ofNat w (line.length - 1 - i)
  | none => -1

/-- `substr`. -/
def substr (line : List Char) (pos n : Nat) : Except MemFault (List Char) :=
  if pos ≤ line.length then .ok ((line.drop pos).take n) else .error .outOfRange

/-- `isspace` in the locale "C". -/
def isSpace (c : Char) : Bool := c == ' ' || ('\t' ≤ c && c ≤ '\r')

/-- A sign and what follows it; without a sign the number is positive. -/
def splitSign : List Char → Int × List Char
  | '-' :: rest => (-1, rest)
  | '+' :: rest => (1, rest)
  | text => (1, text)

/-- `std::stoll`, which ignores what follows the digits. -/
def stoll (text : List Char) : Except MemFault Int :=
  let (sign, text) := splitSign (text.dropWhile isSpace)
  let digits := text.takeWhile Char.isDigit
  if digits = [] then .error .invalidArgument
  else
    let number := sign * Nat.ofDigitChars 10 digits 0
    if -2 ^ 63 ≤ number ∧ number < 2 ^ 63 then .ok number else .error .outOfRange

/-- `getMemUtilization` on the lines of the file. -/
def getMemUtilization {w : Nat} (totalMemory : BitVec w) :
    (lines : List (List Char)) → Except MemFault Float32
  | [] => .ok 0
  | line :: lines =>
      if memAvailable.isPrefixOf line then do
        let line ← substr line pos (rfindBlank w line - BitVec.ofNat w pos).toNat
        let number ← stoll line
        let avail := BitVec.ofInt w number
        return (1 - sizeToFloat avail / sizeToFloat totalMemory) * 100
      else getMemUtilization totalMemory lines

/-- The line as the kernel writes it, with any positive number of blanks. -/
def availableLine (blanks n : Nat) : List Char :=
  memAvailable ++ ' ' :: (List.replicate blanks ' ' ++ (Nat.toDigits 10 n ++ " kB".toList))

theorem length_availableLine (blanks n : Nat) :
    (availableLine blanks n).length = 17 + blanks + (Nat.toDigits 10 n).length := by
  have hkey : memAvailable.length = 13 := rfl
  have hend : " kB".toList.length = 3 := rfl
  simp only [availableLine, List.length_append, List.length_cons, List.length_replicate, hkey, hend]
  omega

theorem rfindBlank_availableLine (w blanks n : Nat) :
    rfindBlank w (availableLine blanks n) =
      BitVec.ofNat w (14 + (blanks + (Nat.toDigits 10 n).length)) := by
  have hindex : (availableLine blanks n).reverse.findIdx? (· == ' ') = some 2 := by
    have hend : " kB".toList.reverse = ['B', 'k', ' '] := rfl
    rw [availableLine, List.reverse_append, List.reverse_cons, List.reverse_append,
      List.reverse_append, hend]
    rfl
  rw [rfindBlank, hindex, length_availableLine]
  dsimp only
  congr 1
  omega

/-- What is cut out of the line. -/
theorem substr_availableLine {w blanks n : Nat}
    (hlength : (availableLine blanks n).length < 2 ^ w) :
    substr (availableLine blanks n) pos
        (rfindBlank w (availableLine blanks n) - BitVec.ofNat w pos).toNat =
      .ok (List.replicate blanks ' ' ++ Nat.toDigits 10 n) := by
  have hpos : pos = 14 := rfl
  rw [length_availableLine] at hlength
  have hcount : (rfindBlank w (availableLine blanks n) - BitVec.ofNat w 14).toNat =
      blanks + (Nat.toDigits 10 n).length := by
    have h14 : (BitVec.ofNat w 14).toNat = 14 := by
      rw [BitVec.toNat_ofNat, Nat.mod_eq_of_lt (by omega)]
    have hfind : (rfindBlank w (availableLine blanks n)).toNat =
        14 + (blanks + (Nat.toDigits 10 n).length) := by
      rw [rfindBlank_availableLine, BitVec.toNat_ofNat, Nat.mod_eq_of_lt (by omega)]
    rw [BitVec.toNat_sub_of_le (BitVec.le_def.mpr (by omega)), hfind, h14]
    omega
  have hdrop : (availableLine blanks n).drop 14 =
      List.replicate blanks ' ' ++ (Nat.toDigits 10 n ++ " kB".toList) := by
    rw [availableLine, List.append_cons]
    exact List.drop_left' rfl
  rw [hpos, substr, if_pos (by rw [length_availableLine]; omega), hcount, hdrop,
    ← List.append_assoc]
  congr 1
  apply List.take_left'
  rw [List.length_append, List.length_replicate]

theorem isSpace_of_isDigit {c : Char} (h : c.isDigit) : isSpace c = false := by
  obtain ⟨hlow, -⟩ := toNat_of_isDigit h
  have hblank : c ≠ ' ' := by
    rintro rfl
    exact absurd hlow (by decide)
  have hcontrol : ¬c ≤ '\r' := by
    intro hle
    have hnat : c.toNat ≤ 13 := UInt32.le_iff_toNat_le.mp hle
    omega
  simp [isSpace, hblank, hcontrol]

theorem splitSign_of_isDigit {c : Char} (h : c.isDigit) (rest : List Char) :
    splitSign (c :: rest) = (1, c :: rest) := by
  unfold splitSign
  split
  · next heq =>
    obtain ⟨rfl, -⟩ := List.cons.inj heq
    cases h
  · next heq =>
    obtain ⟨rfl, -⟩ := List.cons.inj heq
    cases h
  · rfl

/-- Blanks in front of a number are skipped. -/
theorem stoll_digits (blanks : Nat) {n : Nat} (hn : n < 2 ^ 63) :
    stoll (List.replicate blanks ' ' ++ Nat.toDigits 10 n) = .ok n := by
  have hdigit : ∀ c ∈ Nat.toDigits 10 n, c.isDigit :=
    fun c hc => Nat.isDigit_of_mem_toDigits (by decide) (by decide) hc
  have hnumber : Nat.ofDigitChars 10 (Nat.toDigits 10 n) 0 = n :=
    Nat.ofDigitChars_toDigits (by decide) (by decide)
  obtain ⟨c, rest, hdigits⟩ := List.exists_cons_of_ne_nil (Nat.toDigits_ne_nil (b := 10) (n := n))
  rw [hdigits] at hdigit hnumber ⊢
  have hc := hdigit c List.mem_cons_self
  have hblanks : (List.replicate blanks ' ' ++ c :: rest).dropWhile isSpace = c :: rest := by
    rw [List.dropWhile_append_of_pos, List.dropWhile_cons_of_neg]
    · rw [isSpace_of_isDigit hc]
      decide
    · intro a ha
      rw [List.eq_of_mem_replicate ha]
      rfl
  rw [stoll, hblanks, splitSign_of_isDigit hc]
  dsimp only
  rw [List.takeWhile_eq_self_iff.mpr hdigit, if_neg nofun, hnumber, one_mul, if_pos (by omega)]

variable {w : Nat} {totalMemory : BitVec w}

/-- The lines in front of the one with the available memory do not matter. -/
theorem getMemUtilization_skip {before : List (List Char)}
    (h : ∀ line ∈ before, memAvailable.isPrefixOf line = false) (lines : List (List Char)) :
    getMemUtilization totalMemory (before ++ lines) = getMemUtilization totalMemory lines := by
  induction before with
  | nil => rfl
  | cons line before ih =>
      obtain ⟨hline, hbefore⟩ := List.forall_mem_cons.mp h
      rw [List.cons_append, getMemUtilization, if_neg (by rw [hline]; decide), ih hbefore]

/-- What is computed from the line. -/
theorem getMemUtilization_availableLine {blanks n : Nat} (hn : n < 2 ^ 63)
    (hlength : (availableLine blanks n).length < 2 ^ w) (after : List (List Char)) :
    getMemUtilization totalMemory (availableLine blanks n :: after) =
      .ok ((1 - sizeToFloat (BitVec.ofInt w n) / sizeToFloat totalMemory) * 100) := by
  have hfront : memAvailable.isPrefixOf (availableLine blanks n) = true :=
    List.isPrefixOf_iff_prefix.mpr (List.prefix_append _ _)
  rw [getMemUtilization, if_pos hfront, substr_availableLine hlength]
  change (stoll (List.replicate blanks ' ' ++ Nat.toDigits 10 n)).bind _ = _
  rw [stoll_digits blanks hn]
  rfl

/-- What is computed from the file. -/
theorem getMemUtilization_file {before : List (List Char)} {blanks n : Nat}
    (hbefore : ∀ line ∈ before, memAvailable.isPrefixOf line = false)
    (hlength : (availableLine blanks n).length < 2 ^ w) (hn : n < 2 ^ 63)
    (hle : n ≤ totalMemory.toNat) (after : List (List Char)) :
    ∃ avail : BitVec w, avail.toNat = n ∧
      getMemUtilization totalMemory (before ++ availableLine blanks n :: after) =
        .ok ((1 - sizeToFloat avail / sizeToFloat totalMemory) * 100) := by
  refine ⟨BitVec.ofInt w n, ?_, ?_⟩
  · rw [BitVec.ofInt_natCast, BitVec.toNat_ofNat,
      Nat.mod_eq_of_lt (hle.trans_lt totalMemory.isLt)]
  · rw [getMemUtilization_skip hbefore]
    exact getMemUtilization_availableLine hn hlength after

/-- Wherever the line with the available memory stands in the file, and however many blanks it has,
the byte of the metrics packet is less than one and a ten thousandth off the percentage of the
memory that is in use. -/
theorem memUtilization_reported (pf : Platform w) {before after : List (List Char)}
    {blanks n : Nat} (hbefore : ∀ line ∈ before, memAvailable.isPrefixOf line = false)
    (hlength : (availableLine blanks n).length < 2 ^ w) (hn : n < 2 ^ 63)
    (hle : n ≤ totalMemory.toNat) (hpos : 0 < totalMemory.toNat) :
    ∃ load mMemUsage,
      getMemUtilization totalMemory (before ++ availableLine blanks n :: after) = .ok load ∧
      toUInt8 load = .ok mMemUsage ∧ mMemUsage.toNat ≤ 100 ∧
      |100 * (1 - (n : ℚ) / totalMemory.toNat) - mMemUsage.toNat| < 1 + 1 / 10000 := by
  obtain ⟨avail, rfl, hload⟩ := getMemUtilization_file hbefore hlength hn hle after
  obtain ⟨mMemUsage, hbyte⟩ := percentage_reported pf hle hpos
  exact ⟨_, mMemUsage, hload, hbyte⟩

/-- Three quarters of 4000000 kB are available. -/
theorem memUtilization_reported_quarter :
    let totalMemory : BitVec 32 := 4000000
    let lines : List (List Char) := ["MemTotal:        4000000 kB".toList,
      "MemFree:          100000 kB".toList, "MemAvailable:    3000000 kB".toList,
      "Buffers:           50000 kB".toList]
    ∃ load mMemUsage, getMemUtilization totalMemory lines = .ok load ∧
      toUInt8 load = .ok mMemUsage ∧ mMemUsage.toNat ≤ 100 ∧
      |100 * (1 - ((3000000 : Nat) : ℚ) / totalMemory.toNat) - mMemUsage.toNat| <
        1 + 1 / 10000 := by
  intro totalMemory lines
  have hlines : lines = ["MemTotal:        4000000 kB".toList,
      "MemFree:          100000 kB".toList] ++ availableLine 3 3000000 ::
        ["Buffers:           50000 kB".toList] := by decide
  rw [hlines]
  exact memUtilization_reported Protocol.armhf (by decide) (by decide) (by decide)
    (by decide) (by decide)

end RaspiOrbSlam.Server
