import RaspiOrbSlam.TooJpeg.EntropyCoder

/-! # Decoding a block

The decoding procedure of the format for one block, with nothing but the code
definitions of the file, and the round trip of what the encoder sends for a
block. -/

namespace RaspiOrbSlam.TooJpeg

open Foundation

/-- The input is no file of the format, or of a kind that the encoder does not write. -/
inductive Malformed
  | malformed
deriving DecidableEq, Repr

/-- The difference of the first coefficient. -/
def decodeDC (dc : CodeLists) : Parser Bool Malformed Int := do
  let size ← dc.decode .malformed
  receive .malformed size.toNat

/-- The `n` last coefficients of a block: runs of zeros with a value behind them, runs of
sixteen zeros, and zeros up to the end. -/
def decodeACs (ac : CodeLists) (n : Nat) : Parser Bool Malformed (List Int) :=
  if n = 0 then return []
  else do
    let symbol ← ac.decode .malformed
    let run := symbol.toNat / 16
    let size := symbol.toNat % 16
    if size ≠ 0 then
      if run < n then do
        let value ← receive .malformed size
        let rest ← decodeACs ac (n - run - 1)
        return List.replicate run 0 ++ value :: rest
      else throw .malformed
    else if symbol = 0xF0 then
      if 16 ≤ n then do
        let rest ← decodeACs ac (n - 16)
        return List.replicate 16 0 ++ rest
      else throw .malformed
    else if symbol = 0x00 then return List.replicate n 0
    else throw .malformed
termination_by n

/-- A block: the difference of its first coefficient, and the others in zigzag order. -/
def decodeBlock (dc ac : CodeLists) : Parser Bool Malformed (Int × List Int) := do
  let diff ← decodeDC dc
  let acs ← decodeACs ac 63
  return (diff, acs)

/-- The symbols that blocks of eight bit samples need. -/
structure Baseline (dc ac : CodeLists) : Prop where
  sizes : ∀ size ≤ 11, UInt8.ofNat size ∈ dc.values
  pairs : ∀ run < 16, ∀ size < 11, 0 < size → UInt8.ofNat (16 * run + size) ∈ ac.values
  sixteenZeros : 0xF0 ∈ ac.values
  endOfBlock : 0x00 ∈ ac.values

/-- A listed value has a code in the table. -/
theorem CodeLists.Encodes.exists_code {d : CodeLists} {table : HuffmanTable} (h : d.Encodes table)
    {value : UInt8} (hvalue : value ∈ d.values) :
    ∃ c, table value.toNat = some c ∧ c.Fits ∧
      Parser.Yields (d.decode Malformed.malformed) c.bits value := by
  obtain ⟨c, hc⟩ := Option.isSome_iff_exists.mp ((h.domain _).mpr ⟨value, hvalue, rfl⟩)
  exact ⟨c, hc, h.fits _ c hc, h.decodes _ value c hc⟩

section ACs

variable {ac : CodeLists}

theorem decodeACs_zero : Parser.Yields (decodeACs ac 0) [] [] := by
  intro rest
  rw [decodeACs, if_pos rfl]
  rfl

theorem decodeACs_end {n : Nat} {code : BitCode} (hn : n ≠ 0)
    (hcode : Parser.Yields (ac.decode Malformed.malformed) code.bits 0x00) :
    Parser.Yields (decodeACs ac n) code.bits (List.replicate n 0) := by
  intro rest
  rw [decodeACs, if_neg hn, Parser.bind_ok (hcode rest)]
  rfl

theorem decodeACs_sixteenZeros {n : Nat} {code : BitCode} {bits : List Bool} {acs : List Int}
    (hcode : Parser.Yields (ac.decode Malformed.malformed) code.bits 0xF0)
    (hrest : Parser.Yields (decodeACs ac n) bits acs) :
    Parser.Yields (decodeACs ac (n + 16)) (code.bits ++ bits) (List.replicate 16 0 ++ acs) := by
  intro rest
  rw [decodeACs, if_neg (by omega), List.append_assoc, Parser.bind_ok (hcode _)]
  have hsize : ¬UInt8.toNat 0xF0 % 16 ≠ 0 := by decide
  simp only [if_neg hsize, if_true]
  rw [if_pos (by omega), Nat.add_sub_cancel, Parser.bind_ok (hrest rest)]
  rfl

theorem decodeACs_zeros {n : Nat} {code : BitCode} {bits : List Bool} {acs : List Int}
    (hcode : Parser.Yields (ac.decode Malformed.malformed) code.bits 0xF0)
    (hrest : Parser.Yields (decodeACs ac n) bits acs) (count : Nat) :
    Parser.Yields (decodeACs ac (n + 16 * count))
      ((List.replicate count code).flatMap BitCode.bits ++ bits)
      (List.replicate (16 * count) 0 ++ acs) := by
  induction count with
  | zero => exact hrest
  | succ count ih =>
      have hmore := decodeACs_sixteenZeros hcode ih
      rw [List.replicate_succ, List.flatMap_cons, List.append_assoc]
      have hzeros : List.replicate (16 * (count + 1)) (0 : Int) =
          List.replicate 16 0 ++ List.replicate (16 * count) 0 := by
        rw [List.replicate_append_replicate]
        congr 1
        omega
      rw [hzeros, List.append_assoc]
      exact hmore

theorem decodeACs_value {n run size : Nat} {code encoded : BitCode} {bits : List Bool}
    {value : Int} {acs : List Int} (hrun : run < 16) (hsize : size < 16) (hpos : 0 < size)
    (hcode : Parser.Yields (ac.decode Malformed.malformed) code.bits
      (UInt8.ofNat (16 * run + size)))
    (hvalue : Parser.Yields (receive Malformed.malformed size) encoded.bits value)
    (hrest : Parser.Yields (decodeACs ac n) bits acs) :
    Parser.Yields (decodeACs ac (n + run + 1)) (code.bits ++ (encoded.bits ++ bits))
      (List.replicate run 0 ++ value :: acs) := by
  have hsymbol : (UInt8.ofNat (16 * run + size)).toNat = 16 * run + size :=
    UInt8.toNat_ofNat_of_lt' (by change _ < 256; omega)
  have hmod : (16 * run + size) % 16 = size := by omega
  have hdiv : (16 * run + size) / 16 = run := by omega
  have hleft : n + run + 1 - run - 1 = n := by omega
  intro rest
  rw [decodeACs, if_neg (by omega), List.append_assoc, Parser.bind_ok (hcode _)]
  simp only [hsymbol, hmod, hdiv]
  rw [if_pos (by omega), if_pos (by omega), List.append_assoc, Parser.bind_ok (hvalue _), hleft,
    Parser.bind_ok (hrest rest)]
  rfl

end ACs

/-- What the `while` loop sends for zeros up to the index `j`: a code for every sixteen of
them, the `z` counted before included. The offset holds the others in its upper four bits. -/
theorem skipZeros_writes {huffmanAC : HuffmanTable} {quantized : Nat → Int16} {zrl : BitCode}
    (hzrl : huffmanAC 0xF0 = some zrl) {i j z : Nat} (hij : i ≤ j) (hj : j < 64) (hz : z < 16)
    (hzero : ∀ k, i ≤ k → k < j → quantized k = 0) (hvalue : quantized j ≠ 0) :
    Writes (skipZeros huffmanAC quantized (16 * z) i)
      (List.replicate ((z + (j - i)) / 16) zrl) ⟨(16 * ((z + (j - i)) % 16), j), hij⟩ := by
  obtain ⟨n, hn⟩ : ∃ n, j - i = n := ⟨_, rfl⟩
  induction n generalizing i z with
  | zero =>
      obtain rfl : i = j := by omega
      have hcount : (z + (i - i)) / 16 = 0 ∧ (z + (i - i)) % 16 = z := by omega
      rw [skipZeros, if_pos hj, if_neg hvalue]
      simp only [hcount]
      exact Writes.pure _
  | succ n ih =>
      rw [skipZeros, if_pos (by omega), if_pos (hzero i le_rfl (by omega))]
      have hrest : ∀ k, i + 1 ≤ k → k < j → quantized k = 0 := by
        intro k hk hkj
        exact hzero k (by omega) hkj
      by_cases hfull : z = 15
      · have hcount : (z + (j - i)) / 16 = (0 + (j - (i + 1))) / 16 + 1 ∧
            (z + (j - i)) % 16 = (0 + (j - (i + 1))) % 16 := by omega
        rw [if_pos (by omega)]
        simp only [hcount, List.replicate_succ]
        have htail := ih (z := 0) (by omega) (by omega) hrest (by omega)
        exact (Writes.entry hzrl).bind ((Writes.send zrl).bind (htail.bindPure _))
      · have hcount : z + (j - i) = z + 1 + (j - (i + 1)) := by omega
        rw [if_neg (by omega)]
        simp only [hcount]
        have htail := ih (z := z + 1) (by omega) (by omega) hrest (by omega)
        exact htail.bindPure _

/-- The coefficients from index `i` on. -/
def coefficients (quantized : Nat → Int16) (i : Nat) : List Int :=
  (List.range' i (64 - i)).map fun k => (quantized k).toInt

theorem map_of_zeros {quantized : Nat → Int16} {i n : Nat}
    (hzero : ∀ k, i ≤ k → k < i + n → quantized k = 0) :
    (List.range' i n).map (fun k => (quantized k).toInt) = List.replicate n 0 := by
  rw [List.eq_replicate_iff, List.length_map, List.length_range']
  refine ⟨rfl, ?_⟩
  intro v hv
  obtain ⟨k, hk, rfl⟩ := List.mem_map.mp hv
  rw [List.mem_range'_1] at hk
  rw [hzero k hk.1 hk.2]
  rfl

/-- A run of zeros, the value that ends it, and the rest. -/
theorem coefficients_split {quantized : Nat → Int16} {i j : Nat} (hij : i ≤ j) (hj : j < 64)
    (hzero : ∀ k, i ≤ k → k < j → quantized k = 0) :
    coefficients quantized i =
      List.replicate (j - i) 0 ++ (quantized j).toInt :: coefficients quantized (j + 1) := by
  have hlength : 64 - i = j - i + (64 - (j + 1) + 1) := by omega
  have hstart : i + 1 * (j - i) = j := by omega
  rw [coefficients, hlength, ← List.range'_append, hstart, List.range'_succ, List.map_append,
    List.map_cons, map_of_zeros fun k hk hkj => hzero k hk (by omega)]
  rfl

theorem coefficients_of_zeros {quantized : Nat → Int16} {p : Nat}
    (htail : ∀ k, p < k → k < 64 → quantized k = 0) :
    coefficients quantized (p + 1) = List.replicate (64 - (p + 1)) 0 := by
  apply map_of_zeros
  intro k hk hk64
  exact htail k hk (by omega)

section Encoding

variable {dc ac : CodeLists} {huffmanDC huffmanAC : HuffmanTable} {quantized : Nat → Int16}
  {posNonZero : Nat}

/-- The two codes of a value behind a run of zeros. -/
theorem exists_pair (hac : ac.Encodes huffmanAC) (hsymbols : Baseline dc ac) {value : Int}
    (hvalue : value ≠ 0) (hrange : value.natAbs < 1024) {run : Nat} (hrun : run < 16) :
    ∃ encoded pair, precomputedCodewords value = some encoded ∧
      huffmanAC (16 * run + encoded.numBits.toNat) = some pair ∧ encoded.Fits ∧ pair.Fits ∧
      ∀ n bits acs, Parser.Yields (decodeACs ac n) bits acs →
        Parser.Yields (decodeACs ac (n + run + 1)) (pair.bits ++ (encoded.bits ++ bits))
          (List.replicate run 0 ++ value :: acs) := by
  have hsize : value.natAbs.size ≤ 10 := Nat.size_le.mpr hrange
  have hpos : 0 < value.natAbs.size := Nat.size_pos.mpr (by omega)
  have hencoded : precomputedCodewords value = some (codewordOf value) := by
    rw [precomputedCodewords_apply, if_pos ⟨hvalue, by rw [codeWordLimit]; omega⟩]
  obtain ⟨-, -, hfits, hbits, hreceive⟩ := precomputedCodewords_spec hencoded
  obtain ⟨pair, hpair, hpairFits, hpairReads⟩ :=
    hac.exists_code (hsymbols.pairs run hrun _ (by omega) hpos)
  rw [UInt8.toNat_ofNat_of_lt' (by change _ < 256; omega)] at hpair
  refine ⟨codewordOf value, pair, hencoded, hbits ▸ hpair, hfits, hpairFits, ?_⟩
  intro n bits acs hrest
  exact decodeACs_value hrun (by omega) hpos hpairReads (hbits ▸ hreceive Malformed.malformed) hrest

/-- What is sent for the coefficients from `i` on decodes to them, with the end of the block
behind it. The induction goes from one value that is not zero to the next. -/
theorem encodeACs_decodes (hac : ac.Encodes huffmanAC) (hsymbols : Baseline dc ac)
    (hp : posNonZero < 64) (hlast : posNonZero ≠ 0 → quantized posNonZero ≠ 0)
    (htail : ∀ k, posNonZero < k → k < 64 → quantized k = 0)
    (hrange : ∀ k, 1 ≤ k → k < 64 → (quantized k).toInt.natAbs < 1024) {i : Nat} (hi : 1 ≤ i)
    (hip : i ≤ posNonZero + 1) :
    ∃ codes, Writes (encodeACs huffmanAC precomputedCodewords quantized posNonZero i) codes () ∧
      (∀ c ∈ codes, c.Fits) ∧ ∀ ending,
        Parser.Yields (decodeACs ac (64 - (posNonZero + 1))) ending
          (List.replicate (64 - (posNonZero + 1)) 0) →
        Parser.Yields (decodeACs ac (64 - i)) (codes.flatMap BitCode.bits ++ ending)
          (coefficients quantized i) := by
  obtain ⟨n, hn⟩ : ∃ n, posNonZero + 1 - i = n := ⟨_, rfl⟩
  induction n using Nat.strong_induction_on generalizing i with
  | _ n ih =>
      by_cases hend : i ≤ posNonZero
      case neg =>
        obtain rfl : i = posNonZero + 1 := by omega
        refine ⟨[], ?_, by simp, ?_⟩
        · rw [encodeACs, if_neg hend]
          exact Writes.pure ()
        · intro ending hending
          rw [coefficients_of_zeros htail]
          exact hending
      case pos =>
        have hnonzero : ∃ j, i ≤ j ∧ quantized j ≠ 0 := ⟨posNonZero, hend, hlast (by omega)⟩
        let j := Nat.find hnonzero
        obtain ⟨hij, hvalue⟩ : i ≤ j ∧ quantized j ≠ 0 := Nat.find_spec hnonzero
        have hjp : j ≤ posNonZero := Nat.find_min' hnonzero ⟨hend, hlast (by omega)⟩
        have hzero : ∀ k, i ≤ k → k < j → quantized k = 0 := by
          intro k hk hkj
          by_contra hne
          exact Nat.find_min hnonzero hkj ⟨hk, hne⟩
        clear_value j
        have hne : (quantized j).toInt ≠ 0 := fun h => hvalue (Int16.toInt_inj.mp h)
        have hrun : (0 + (j - i)) % 16 < 16 := Nat.mod_lt _ (by decide)
        obtain ⟨encoded, pair, hencoded, hpair, hfits, hpairFits, hreads⟩ :=
          exists_pair hac hsymbols hne (hrange j (by omega) (by omega)) hrun
        obtain ⟨zrl, hzrl, hzrlFits, hzrlReads⟩ := hac.exists_code hsymbols.sixteenZeros
        obtain ⟨rest, hrestWrites, hrestFits, hrestReads⟩ :=
          ih (posNonZero + 1 - (j + 1)) (by omega) (by omega) (by omega) rfl
        have hskip := skipZeros_writes hzrl hij (by omega) (by decide : 0 < 16) hzero hvalue
        refine ⟨List.replicate ((0 + (j - i)) / 16) zrl ++ (pair :: encoded :: rest), ?_, ?_, ?_⟩
        · rw [encodeACs, if_pos hend]
          apply hskip.bind
          apply (Writes.entry hencoded).bind
          apply (Writes.entry hpair).bind
          exact (Writes.send pair).bind ((Writes.send encoded).bind hrestWrites)
        · intro c hc
          simp only [List.mem_append, List.mem_replicate, List.mem_cons] at hc
          rcases hc with ⟨-, rfl⟩ | rfl | rfl | hc
          · exact hzrlFits
          · exact hpairFits
          · exact hfits
          · exact hrestFits c hc
        · intro ending hending
          have hall := decodeACs_zeros hzrlReads (hreads _ _ _ (hrestReads ending hending))
            ((0 + (j - i)) / 16)
          have hcount : 64 - (j + 1) + (0 + (j - i)) % 16 + 1 + 16 * ((0 + (j - i)) / 16) =
              64 - i := by omega
          have hzeros : 16 * ((0 + (j - i)) / 16) + (0 + (j - i)) % 16 = j - i := by omega
          rw [hcount, ← List.append_assoc (List.replicate _ _) (List.replicate _ _),
            List.replicate_append_replicate, hzeros, ← coefficients_split hij (by omega) hzero]
            at hall
          simpa only [List.flatMap_append, List.flatMap_cons, List.append_assoc] using hall

theorem encodeDC_decodes (hdc : dc.Encodes huffmanDC) (hsymbols : Baseline dc ac) {diff : Int32}
    (hrange : diff.toInt.natAbs < codeWordLimit) :
    ∃ codes, Writes (encodeDC diff huffmanDC precomputedCodewords) codes () ∧
      (∀ c ∈ codes, c.Fits) ∧
      Parser.Yields (decodeDC dc) (codes.flatMap BitCode.bits) diff.toInt := by
  by_cases hdiff : diff = 0
  · obtain ⟨code, hcode, hfits, hreads⟩ := hdc.exists_code (hsymbols.sizes 0 (by decide))
    refine ⟨[code], ?_, by simpa using hfits, ?_⟩
    · rw [encodeDC, if_pos hdiff]
      exact Writes.sendEntry hcode
    · rw [hdiff]
      exact hreads.bind (Parser.Yields.pure 0)
  · have hne : diff.toInt ≠ 0 := fun h => hdiff (Int32.toInt_inj.mp h)
    have hbits : precomputedCodewords diff.toInt = some (codewordOf diff.toInt) := by
      rw [precomputedCodewords_apply, if_pos ⟨hne, hrange⟩]
    obtain ⟨-, -, hbitsFits, hnum, hreceive⟩ := precomputedCodewords_spec hbits
    have hsize : diff.toInt.natAbs.size ≤ 11 := Nat.size_le.mpr hrange
    obtain ⟨code, hcode, hfits, hreads⟩ := hdc.exists_code (hsymbols.sizes _ hsize)
    have hindex : (UInt8.ofNat diff.toInt.natAbs.size).toNat = diff.toInt.natAbs.size :=
      UInt8.toNat_ofNat_of_lt' (by change _ < 256; omega)
    rw [hindex, ← hnum] at hcode
    refine ⟨[code, codewordOf diff.toInt], ?_, by simpa using ⟨hfits, hbitsFits⟩, ?_⟩
    · rw [encodeDC, if_neg hdiff]
      apply (Writes.entry hbits).bind
      apply (Writes.entry hcode).bind
      exact (Writes.send code).bind (Writes.send _)
    · have hboth := hreads.bind (f := fun size => receive Malformed.malformed size.toNat)
        (by rw [hindex, ← hnum]; exact hreceive Malformed.malformed)
      rw [List.flatMap_cons, List.flatMap_cons, List.flatMap_nil, List.append_nil]
      exact hboth

theorem encodeEnd_decodes (hac : ac.Encodes huffmanAC) (hsymbols : Baseline dc ac)
    (hp : posNonZero < 64) :
    ∃ codes, Writes (encodeEnd huffmanAC posNonZero) codes () ∧ (∀ c ∈ codes, c.Fits) ∧
      Parser.Yields (decodeACs ac (64 - (posNonZero + 1))) (codes.flatMap BitCode.bits)
        (List.replicate (64 - (posNonZero + 1)) 0) := by
  by_cases hend : posNonZero < 8 * 8 - 1
  · obtain ⟨code, hcode, hfits, hreads⟩ := hac.exists_code hsymbols.endOfBlock
    refine ⟨[code], ?_, by simpa using hfits, ?_⟩
    · rw [encodeEnd, if_pos hend]
      exact Writes.sendEntry hcode
    · simpa using decodeACs_end (by omega) hreads
  · obtain rfl : posNonZero = 63 := by omega
    refine ⟨[], ?_, by simp, decodeACs_zero⟩
    rw [encodeEnd, if_neg hend]
    exact Writes.pure ()

/-- Quantized coefficients for which the tables have a code: `posNonZero` is the last index
of a value that is not zero, or zero. -/
structure Codable (DC : Int32) (quantized : Nat → Int16) (posNonZero : Nat) (lastDC : Int16) :
    Prop where
  index : posNonZero < 64
  last : posNonZero ≠ 0 → quantized posNonZero ≠ 0
  zeros : ∀ k, posNonZero < k → k < 64 → quantized k = 0
  range : ∀ k, 1 ≤ k → k < 64 → (quantized k).toInt.natAbs < 1024
  diff : (DC.toInt - lastDC.toInt).natAbs < codeWordLimit

/-- A difference below the limit does not overflow. -/
theorem toInt_sub_of_lt {DC : Int32} {lastDC : Int16}
    (h : (DC.toInt - lastDC.toInt).natAbs < codeWordLimit) :
    (DC - lastDC.toInt32).toInt = DC.toInt - lastDC.toInt := by
  have hlow := lastDC.le_toInt
  have hhigh := lastDC.toInt_lt
  rw [codeWordLimit] at h
  rw [Int32.toInt_sub, Int16.toInt_toInt32, Int.bmod_eq_of_le] <;> omega

/-- Decoding what is sent for a block gives the difference of its first coefficient and all
the others, and leaves the bits behind the block. -/
theorem encodeCoefficients_decodes (hdc : dc.Encodes huffmanDC) (hac : ac.Encodes huffmanAC)
    (hsymbols : Baseline dc ac) {DC : Int32} {lastDC : Int16}
    (hblock : Codable DC quantized posNonZero lastDC) :
    ∃ codes, Writes (encodeCoefficients DC quantized posNonZero lastDC huffmanDC huffmanAC
        precomputedCodewords) codes DC.toInt16 ∧ (∀ c ∈ codes, c.Fits) ∧
      Parser.Yields (decodeBlock dc ac) (codes.flatMap BitCode.bits)
        (DC.toInt - lastDC.toInt, coefficients quantized 1) := by
  have hdiff := toInt_sub_of_lt hblock.diff
  have hrange : (DC - lastDC.toInt32).toInt.natAbs < codeWordLimit := by
    rw [hdiff]
    exact hblock.diff
  obtain ⟨first, hfirstWrites, hfirstFits, hfirstReads⟩ := encodeDC_decodes hdc hsymbols hrange
  obtain ⟨others, hothersWrites, hothersFits, hothersReads⟩ :=
    encodeACs_decodes hac hsymbols hblock.index hblock.last hblock.zeros hblock.range le_rfl
      (by omega)
  obtain ⟨ending, hendWrites, hendFits, hendReads⟩ := encodeEnd_decodes hac hsymbols hblock.index
  refine ⟨first ++ (others ++ ending), ?_, ?_, ?_⟩
  · rw [encodeCoefficients]
    apply hfirstWrites.bind
    apply hothersWrites.bind
    exact hendWrites.bindPure _
  · intro c hc
    simp only [List.mem_append] at hc
    rcases hc with hc | hc | hc
    · exact hfirstFits c hc
    · exact hothersFits c hc
    · exact hendFits c hc
  · rw [hdiff] at hfirstReads
    have hrest := (hothersReads _ hendReads).map (Prod.mk (DC.toInt - lastDC.toInt))
    rw [← bind_pure_comp] at hrest
    rw [decodeBlock, List.flatMap_append, List.flatMap_append]
    apply hfirstReads.bind
    exact hrest

end Encoding

end RaspiOrbSlam.TooJpeg
