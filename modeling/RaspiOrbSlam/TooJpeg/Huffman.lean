import RaspiOrbSlam.Foundation.CanonicalCode
import RaspiOrbSlam.TooJpeg.BitWriter
import Mathlib.Data.List.Sort
import Mathlib.Logic.Function.Basic

/-! # Huffman tables of the JPEG encoder

The tables are computed from the number of codes of each size and the list of
values in the order of their codes, the form in which they also stand in the
file. The codes are canonical, so that the decoding procedure of the format,
which knows only those two lists, gives back the value of every code. -/

namespace RaspiOrbSlam.TooJpeg

open Foundation

def dcLuminanceCodesPerBitsize : List UInt8 :=
  [0, 1, 5, 1, 1, 1, 1, 1, 1, 0, 0, 0, 0, 0, 0, 0]

def dcLuminanceValues : List UInt8 :=
  [0, 1, 2, 3, 4, 5, 6, 7, 8, 9, 10, 11]

def acLuminanceCodesPerBitsize : List UInt8 :=
  [0, 2, 1, 3, 3, 2, 4, 3, 5, 5, 4, 4, 0, 0, 1, 125]

def acLuminanceValues : List UInt8 :=
  [0x01, 0x02, 0x03, 0x00, 0x04, 0x11, 0x05, 0x12, 0x21, 0x31, 0x41, 0x06, 0x13, 0x51, 0x61,
   0x07, 0x22, 0x71, 0x14, 0x32, 0x81, 0x91, 0xA1, 0x08, 0x23, 0x42, 0xB1, 0xC1, 0x15, 0x52,
   0xD1, 0xF0, 0x24, 0x33, 0x62, 0x72, 0x82, 0x09, 0x0A, 0x16, 0x17, 0x18, 0x19, 0x1A, 0x25,
   0x26, 0x27, 0x28, 0x29, 0x2A, 0x34, 0x35, 0x36, 0x37, 0x38, 0x39, 0x3A, 0x43, 0x44, 0x45,
   0x46, 0x47, 0x48, 0x49, 0x4A, 0x53, 0x54, 0x55, 0x56, 0x57, 0x58, 0x59, 0x5A, 0x63, 0x64,
   0x65, 0x66, 0x67, 0x68, 0x69, 0x6A, 0x73, 0x74, 0x75, 0x76, 0x77, 0x78, 0x79, 0x7A, 0x83,
   0x84, 0x85, 0x86, 0x87, 0x88, 0x89, 0x8A, 0x92, 0x93, 0x94, 0x95, 0x96, 0x97, 0x98, 0x99,
   0x9A, 0xA2, 0xA3, 0xA4, 0xA5, 0xA6, 0xA7, 0xA8, 0xA9, 0xAA, 0xB2, 0xB3, 0xB4, 0xB5, 0xB6,
   0xB7, 0xB8, 0xB9, 0xBA, 0xC2, 0xC3, 0xC4, 0xC5, 0xC6, 0xC7, 0xC8, 0xC9, 0xCA, 0xD2, 0xD3,
   0xD4, 0xD5, 0xD6, 0xD7, 0xD8, 0xD9, 0xDA, 0xE1, 0xE2, 0xE3, 0xE4, 0xE5, 0xE6, 0xE7, 0xE8,
   0xE9, 0xEA, 0xF1, 0xF2, 0xF3, 0xF4, 0xF5, 0xF6, 0xF7, 0xF8, 0xF9, 0xFA]

def dcChrominanceCodesPerBitsize : List UInt8 :=
  [0, 3, 1, 1, 1, 1, 1, 1, 1, 1, 1, 0, 0, 0, 0, 0]

def dcChrominanceValues : List UInt8 :=
  [0, 1, 2, 3, 4, 5, 6, 7, 8, 9, 10, 11]

def acChrominanceCodesPerBitsize : List UInt8 :=
  [0, 2, 1, 2, 4, 4, 3, 4, 7, 5, 4, 4, 0, 1, 2, 119]

def acChrominanceValues : List UInt8 :=
  [0x00, 0x01, 0x02, 0x03, 0x11, 0x04, 0x05, 0x21, 0x31, 0x06, 0x12, 0x41, 0x51, 0x07, 0x61,
   0x71, 0x13, 0x22, 0x32, 0x81, 0x08, 0x14, 0x42, 0x91, 0xA1, 0xB1, 0xC1, 0x09, 0x23, 0x33,
   0x52, 0xF0, 0x15, 0x62, 0x72, 0xD1, 0x0A, 0x16, 0x24, 0x34, 0xE1, 0x25, 0xF1, 0x17, 0x18,
   0x19, 0x1A, 0x26, 0x27, 0x28, 0x29, 0x2A, 0x35, 0x36, 0x37, 0x38, 0x39, 0x3A, 0x43, 0x44,
   0x45, 0x46, 0x47, 0x48, 0x49, 0x4A, 0x53, 0x54, 0x55, 0x56, 0x57, 0x58, 0x59, 0x5A, 0x63,
   0x64, 0x65, 0x66, 0x67, 0x68, 0x69, 0x6A, 0x73, 0x74, 0x75, 0x76, 0x77, 0x78, 0x79, 0x7A,
   0x82, 0x83, 0x84, 0x85, 0x86, 0x87, 0x88, 0x89, 0x8A, 0x92, 0x93, 0x94, 0x95, 0x96, 0x97,
   0x98, 0x99, 0x9A, 0xA2, 0xA3, 0xA4, 0xA5, 0xA6, 0xA7, 0xA8, 0xA9, 0xAA, 0xB2, 0xB3, 0xB4,
   0xB5, 0xB6, 0xB7, 0xB8, 0xB9, 0xBA, 0xC2, 0xC3, 0xC4, 0xC5, 0xC6, 0xC7, 0xC8, 0xC9, 0xCA,
   0xD2, 0xD3, 0xD4, 0xD5, 0xD6, 0xD7, 0xD8, 0xD9, 0xDA, 0xE2, 0xE3, 0xE4, 0xE5, 0xE6, 0xE7,
   0xE8, 0xE9, 0xEA, 0xF2, 0xF3, 0xF4, 0xF5, 0xF6, 0xF7, 0xF8, 0xF9, 0xFA]

/-- What the language leaves undefined and the encoder could run into. -/
inductive Fault
  /-- An element outside of its array is accessed. -/
  | outOfBounds
  /-- An element is read that was never stored. -/
  | uninitialised
  /-- An integer leaves the range of its type. -/
  | overflow
deriving DecidableEq, Repr

/-- An array of Huffman codes, `none` where no code was stored. -/
abbrev HuffmanTable := Nat → Option BitCode

/-- The loop over the codes of one size: `result[*values++] = BitCode(huffmanCode++, numBits)`. -/
def storeCodes (numBits : Nat) : (count : Nat) → (values : List UInt8) → (huffmanCode : Nat) →
    (result : HuffmanTable) → Except Fault (List UInt8 × Nat × HuffmanTable)
  | 0, values, huffmanCode, result => .ok (values, huffmanCode, result)
  | _ + 1, [], _, _ => .error .outOfBounds
  | count + 1, value :: values, huffmanCode, result =>
      storeCodes numBits count values (huffmanCode + 1)
        (Function.update result value.toNat
          (some ⟨UInt16.ofNat huffmanCode, UInt8.ofNat numBits⟩))

/-- The loop over the sizes from `numBits` on. -/
def storeSizes : (numCodes : List UInt8) → (numBits : Nat) → (values : List UInt8) →
    (huffmanCode : Nat) → (result : HuffmanTable) → Except Fault HuffmanTable
  | [], _, _, _, result => .ok result
  | count :: numCodes, numBits, values, huffmanCode, result => do
      let (values, huffmanCode, result) ←
        storeCodes numBits count.toNat values huffmanCode result
      storeSizes numCodes (numBits + 1) values (huffmanCode <<< 1) result

/-- `numCodes` has the 16 elements of its array. -/
def generateHuffmanTable (numCodes values : List UInt8) : Except Fault HuffmanTable :=
  storeSizes numCodes 1 values 0 fun _ => none

/-- The definition of a Huffman code as it stands in a file. -/
structure CodeLists where
  numCodes : List UInt8
  values : List UInt8
deriving DecidableEq

namespace CodeLists

/-- The codewords that the format assigns. -/
def codewords (d : CodeLists) : List (Codeword UInt8) :=
  Codeword.assign (d.numCodes.map UInt8.toNat) d.values 1 0

/-- The decoding procedure of the format. -/
def decode {ε : Type} (invalid : ε) (d : CodeLists) : Parser Bool ε UInt8 :=
  Codeword.decode invalid (d.numCodes.map UInt8.toNat) d.values 0 0

/-- The table has a code for every value of the definition and for nothing else, and
decoding a code gives its value. -/
structure Encodes (d : CodeLists) (table : HuffmanTable) : Prop where
  domain : ∀ n, (table n).isSome ↔ ∃ value ∈ d.values, value.toNat = n
  fits : ∀ n c, table n = some c → c.Fits
  decodes : ∀ {ε : Type} (invalid : ε) (value : UInt8) (c : BitCode),
    table value.toNat = some c → Parser.Yields (d.decode invalid) c.bits value

/-- No code is the beginning of the code of another value. -/
theorem Encodes.prefix_free {d : CodeLists} {table : HuffmanTable} (h : d.Encodes table)
    {a b : UInt8}
    {c e : BitCode} (ha : table a.toNat = some c) (hb : table b.toNat = some e)
    (hbegins : c.bits <+: e.bits) : a = b := by
  obtain ⟨rest, hrest⟩ := hbegins
  have hleft := h.decodes () a c ha rest
  have hright := h.decodes () b e hb []
  rw [List.append_nil, ← hrest, hleft] at hright
  exact (Prod.mk.inj (Except.ok.inj hright)).1

end CodeLists

/-- A definition that lists every value once, and not more codes than there are. -/
structure CodeDefinition extends CodeLists where
  sixteen : numCodes.length = 16
  total : (numCodes.map UInt8.toNat).sum = values.length
  distinct : values.Nodup
  feasible : Codeword.Feasible (numCodes.map UInt8.toNat) 1 0

/-- A codeword as the encoder stores it. -/
def bitCode (c : Codeword UInt8) : BitCode := ⟨UInt16.ofNat c.code, UInt8.ofNat c.width⟩

def storeCode (result : HuffmanTable) (c : Codeword UInt8) : HuffmanTable :=
  Function.update result c.symbol.toNat (some (bitCode c))

theorem storeCodes_eq (numBits : Nat) {count : Nat} {values : List UInt8} (huffmanCode : Nat)
    (result : HuffmanTable) (h : count ≤ values.length) :
    storeCodes numBits count values huffmanCode result =
      .ok (values.drop count, huffmanCode + count,
        (Codeword.level numBits (values.take count) huffmanCode).foldl storeCode result) := by
  induction count generalizing values huffmanCode result with
  | zero => rfl
  | succ count ih =>
      cases values with
      | nil => simp at h
      | cons value values =>
          rw [storeCodes, ih _ _ (by simpa using h)]
          simp only [List.drop_succ_cons, List.take_succ_cons, Codeword.level, List.foldl_cons]
          rw [Nat.add_right_comm, Nat.add_assoc]
          rfl

theorem storeSizes_eq {numCodes : List UInt8} (numBits : Nat) {values : List UInt8}
    (huffmanCode : Nat) (result : HuffmanTable)
    (h : (numCodes.map UInt8.toNat).sum ≤ values.length) :
    storeSizes numCodes numBits values huffmanCode result =
      .ok ((Codeword.assign (numCodes.map UInt8.toNat) values numBits huffmanCode).foldl
        storeCode result) := by
  induction numCodes generalizing numBits values huffmanCode result with
  | nil => rfl
  | cons count numCodes ih =>
      simp only [List.map_cons, List.sum_cons] at h
      rw [storeSizes, storeCodes_eq _ _ _ (by omega)]
      change storeSizes numCodes _ _ _ _ = _
      rw [ih _ _ _ (by simp only [List.length_drop]; omega), List.map_cons, Codeword.assign,
        List.foldl_append, Nat.shiftLeft_eq, Nat.mul_comm]

/-- What is stored under an index that no codeword has. -/
theorem foldl_storeCode_of_forall_ne {codes : List (Codeword UInt8)} {result : HuffmanTable}
    {n : Nat} (h : ∀ c ∈ codes, c.symbol.toNat ≠ n) :
    codes.foldl storeCode result n = result n := by
  induction codes generalizing result with
  | nil => rfl
  | cons c rest ih =>
      rw [List.foldl_cons, ih fun d hd => h d (by simp [hd])]
      exact Function.update_of_ne (h c (by simp)).symm _ _

/-- When no value occurs twice, no stored code is overwritten. -/
theorem foldl_storeCode_of_mem {codes : List (Codeword UInt8)} {result : HuffmanTable}
    (hdistinct : (codes.map Codeword.symbol).Nodup) {c : Codeword UInt8} (hc : c ∈ codes) :
    codes.foldl storeCode result c.symbol.toNat = some (bitCode c) := by
  induction codes generalizing result with
  | nil => simp at hc
  | cons d rest ih =>
      rw [List.map_cons, List.nodup_cons] at hdistinct
      rw [List.foldl_cons]
      rcases List.mem_cons.mp hc with rfl | hrest
      · rw [foldl_storeCode_of_forall_ne, storeCode, Function.update_self]
        intro e he heq
        apply hdistinct.1
        rw [← UInt8.toNat_inj.mp heq]
        exact List.mem_map_of_mem he
      · exact ih hdistinct.2 hrest

namespace CodeDefinition

variable (d : CodeDefinition)

theorem map_symbol_codewords : d.codewords.map Codeword.symbol = d.values := by
  rw [CodeLists.codewords, Codeword.map_symbol_assign, d.total, List.take_length]

theorem generateHuffmanTable_eq :
    generateHuffmanTable d.numCodes d.values =
      .ok (d.codewords.foldl storeCode fun _ => none) :=
  storeSizes_eq 1 0 _ d.total.le

variable {d}

theorem bits_bitCode {c : Codeword UInt8} (hc : c ∈ d.codewords) :
    (bitCode c).Fits ∧ (bitCode c).bits = c.bits := by
  have hcode := Codeword.lt_of_mem_assign d.feasible hc
  have hwidth := Codeword.width_lt_of_mem_assign hc
  rw [List.length_map, d.sixteen] at hwidth
  have hpow : 2 ^ c.width ≤ 2 ^ 16 := Nat.pow_le_pow_right (by decide) (by omega)
  have hc16 : (UInt16.ofNat c.code).toNat = c.code :=
    UInt16.toNat_ofNat_of_lt' (by change _ < 65536; omega)
  have hw8 : (UInt8.ofNat c.width).toNat = c.width :=
    UInt8.toNat_ofNat_of_lt' (by change _ < 256; omega)
  refine ⟨⟨?_, ?_⟩, ?_⟩
  · change (UInt8.ofNat c.width).toNat ≤ 16
    omega
  · change (UInt16.ofNat c.code).toNat < 2 ^ (UInt8.ofNat c.width).toNat
    rwa [hc16, hw8]
  · rw [BitCode.bits, bitCode, hc16, hw8, Codeword.bits]

/-- An entry of the table is the code of a codeword with its index as symbol. -/
theorem exists_of_entry {n : Nat} {c : BitCode}
    (h : d.codewords.foldl storeCode (fun _ => none) n = some c) :
    ∃ word ∈ d.codewords, word.symbol.toNat = n ∧ bitCode word = c := by
  by_contra hnone
  have hdistinct : (d.codewords.map Codeword.symbol).Nodup := by
    rw [map_symbol_codewords]
    exact d.distinct
  have hmiss : ∀ word ∈ d.codewords, word.symbol.toNat ≠ n := by
    rintro word hword rfl
    rw [foldl_storeCode_of_mem hdistinct hword] at h
    exact hnone ⟨word, hword, rfl, Option.some_inj.mp h⟩
  rw [foldl_storeCode_of_forall_ne hmiss] at h
  exact absurd h (by simp)

theorem encodes_table : d.Encodes (d.codewords.foldl storeCode fun _ => none) where
  domain n := by
    rw [Option.isSome_iff_exists, ← map_symbol_codewords]
    constructor
    · rintro ⟨c, hc⟩
      obtain ⟨word, hword, hn, -⟩ := exists_of_entry hc
      exact ⟨word.symbol, List.mem_map_of_mem hword, hn⟩
    · rintro ⟨value, hvalue, rfl⟩
      obtain ⟨word, hword, rfl⟩ := List.mem_map.mp hvalue
      refine ⟨bitCode word, foldl_storeCode_of_mem ?_ hword⟩
      rw [map_symbol_codewords]
      exact d.distinct
  fits n c hc := by
    obtain ⟨word, hword, -, rfl⟩ := exists_of_entry hc
    exact (bits_bitCode hword).1
  decodes invalid value c hc := by
    obtain ⟨word, hword, hsymbol, rfl⟩ := exists_of_entry hc
    rw [(bits_bitCode hword).2, ← UInt8.toNat_inj.mp hsymbol]
    exact Codeword.decode_yields invalid d.feasible hword

end CodeDefinition

/-- For every definition that does not ask for more codes than there are, the table is
computed without a fault, has a code for exactly the listed values, no code begins another
one, and the decoding procedure of the format gives back the value of every code. -/
theorem generateHuffmanTable_canonical (d : CodeDefinition) :
    ∃ table, generateHuffmanTable d.numCodes d.values = .ok table ∧ d.Encodes table ∧
      ∀ a b : UInt8, ∀ c e, table a.toNat = some c → table b.toNat = some e →
        c.bits <+: e.bits → a = b := by
  refine ⟨_, d.generateHuffmanTable_eq, CodeDefinition.encodes_table, ?_⟩
  intro a b c e ha hb hbegins
  exact CodeDefinition.encodes_table.prefix_free ha hb hbegins

/-- Sorting is the cheaper test for long lists of values. -/
theorem nodup_of_increasing {values : List UInt8}
    (h : ((values.map UInt8.toNat).insertionSort (· ≤ ·)).IsChain (· < ·)) : values.Nodup := by
  have hsorted := List.isChain_iff_pairwise.mp h
  apply List.Nodup.of_map UInt8.toNat
  exact (List.perm_insertionSort (· ≤ ·) _).nodup_iff.mp (hsorted.imp fun hlt => hlt.ne)

def dcLuminance : CodeDefinition where
  numCodes := dcLuminanceCodesPerBitsize
  values := dcLuminanceValues
  sixteen := rfl
  total := rfl
  distinct := by decide
  feasible := by decide

def acLuminance : CodeDefinition where
  numCodes := acLuminanceCodesPerBitsize
  values := acLuminanceValues
  sixteen := rfl
  total := by decide +kernel
  distinct := nodup_of_increasing (by decide +kernel)
  feasible := by decide +kernel

def dcChrominance : CodeDefinition where
  numCodes := dcChrominanceCodesPerBitsize
  values := dcChrominanceValues
  sixteen := rfl
  total := rfl
  distinct := by decide
  feasible := by decide

def acChrominance : CodeDefinition where
  numCodes := acChrominanceCodesPerBitsize
  values := acChrominanceValues
  sixteen := rfl
  total := by decide +kernel
  distinct := nodup_of_increasing (by decide +kernel)
  feasible := by decide +kernel

end RaspiOrbSlam.TooJpeg
