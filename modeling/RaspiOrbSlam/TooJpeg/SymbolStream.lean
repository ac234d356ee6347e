import RaspiOrbSlam.TooJpeg.FileRoundTrip

/-! # Streams of symbols

Symbols of any codes and numbers of any sizes may follow each other in the bit writer.
A decoder that knows which kind comes next reads the same symbols back. -/

namespace RaspiOrbSlam.TooJpeg

open Foundation

/-- A value of a Huffman code, or a number in as many bits as it needs. -/
inductive Symbol
  | huffman (d : CodeDefinition) (value : UInt8)
  | number (v : Int)

/-- What a decoder has to know of the next symbol. -/
inductive SymbolKind
  | huffman (d : CodeDefinition)
  | number (size : Nat)

/-- What the encoder sends for a symbol. -/
def Symbol.code : Symbol → Option BitCode
  | .huffman d value =>
      match generateHuffmanTable d.numCodes d.values with
      | .ok table => table value.toNat
      | .error _ => none
  | .number v => precomputedCodewords v

def Symbol.kind : Symbol → SymbolKind
  | .huffman d _ => .huffman d
  | .number v => .number v.natAbs.size

def SymbolKind.read : SymbolKind → Parser Bool Malformed Symbol
  | .huffman d => Symbol.huffman d <$> d.decode .malformed
  | .number size => Symbol.number <$> receive .malformed size

def readSymbols : List SymbolKind → Parser Bool Malformed (List Symbol)
  | [] => return []
  | kind :: kinds => do
      let symbol ← kind.read
      let rest ← readSymbols kinds
      return symbol :: rest

/-- What is sent for a symbol fits the buffer, and is read as the symbol. -/
theorem Symbol.code_spec {symbol : Symbol} {c : BitCode} (h : symbol.code = some c) :
    c.Fits ∧ Parser.Yields symbol.kind.read c.bits symbol := by
  cases symbol with
  | huffman d value =>
      rw [code, d.generateHuffmanTable_eq] at h
      exact ⟨CodeDefinition.encodes_table.fits _ c h,
        (CodeDefinition.encodes_table.decodes Malformed.malformed value c h).map _⟩
  | number v =>
      obtain ⟨-, -, hfits, hsize, hreceive⟩ := precomputedCodewords_spec h
      have hread := (hreceive Malformed.malformed).map Symbol.number
      rw [hsize] at hread
      exact ⟨hfits, hread⟩

theorem readSymbols_yields {symbols : List Symbol} {codes : List BitCode}
    (h : List.Forall₂ (fun symbol c => symbol.code = some c) symbols codes) :
    Parser.Yields (readSymbols (symbols.map Symbol.kind)) (codes.flatMap BitCode.bits) symbols := by
  induction h with
  | nil => exact Parser.Yields.pure []
  | @cons symbol c symbols codes hfirst _ ih =>
      have hall := ih.map (List.cons symbol)
      rw [← bind_pure_comp] at hall
      exact (Symbol.code_spec hfirst).2.bind hall

/-- Whatever symbols are sent, and whatever marker follows them, the bytes up to the marker are
whole, no byte of them is taken for a marker, and they are read back as the same symbols with
fewer than eight set bits behind them. -/
theorem symbols_readBack {w : BitWriter} (hempty : w.buffer.numBits = 0) {symbols : List Symbol}
    {codes : List BitCode}
    (h : List.Forall₂ (fun symbol c => symbol.code = some c) symbols codes) {id : UInt8}
    (hid : id ≠ 0) (rest : List UInt8) :
    ∃ data full padding, (w.putAll codes).flush.output = w.output ++ data ∧
      unstuff (data ++ 0xFF :: id :: rest) = some (full, 0xFF :: id :: rest) ∧
      readSymbols (symbols.map Symbol.kind) (bitsOfBytes full) = .ok (symbols, padding) ∧
      padding.length < 8 ∧ ∀ bit ∈ padding, bit = true := by
  have hfits : ∀ c ∈ codes, c.Fits := by
    intro c hc
    obtain ⟨i, hi, rfl⟩ := List.mem_iff_getElem.mp hc
    have hcode := h.get (by rw [h.length_eq]; exact hi) hi
    exact (Symbol.code_spec hcode).1
  have hstart : w.buffer.numBits.toNat < 8 := by
    rw [hempty]
    decide
  obtain ⟨full, hout, hbits⟩ :=
    BitWriter.flush_output hempty (BitWriter.putAll_appends hstart hfits)
  refine ⟨stuff full, full, BitWriter.padding (codes.flatMap BitCode.bits).length, hout,
    unstuff_stuff full hid rest, ?_, ?_, ?_⟩
  · rw [hbits]
    exact readSymbols_yields h _
  · rw [BitWriter.padding, List.length_replicate]
    exact Nat.mod_lt _ (by decide)
  · intro bit hbit
    exact List.eq_of_mem_replicate hbit

/-- The difference 5 of a first coefficient, in front of the end of the image. -/
theorem symbols_readBack_difference :
    let w : BitWriter := { output := [] }
    let symbols : List Symbol := [.huffman dcLuminance 3, .number 5]
    let codes : List BitCode := [⟨0b100, 3⟩, ⟨0b101, 3⟩]
    ∃ data full padding, (w.putAll codes).flush.output = w.output ++ data ∧
      unstuff (data ++ [0xFF, 0xD9]) = some (full, [0xFF, 0xD9]) ∧
      readSymbols (symbols.map Symbol.kind) (bitsOfBytes full) = .ok (symbols, padding) ∧
      padding.length < 8 ∧ ∀ bit ∈ padding, bit = true := by
  intro w symbols codes
  have hnumber : Symbol.code (.number 5) = some ⟨0b101, 3⟩ := by
    change precomputedCodewords 5 = _
    rw [precomputedCodewords_apply]
    decide
  exact symbols_readBack rfl (.cons (by decide +kernel) (.cons hnumber .nil)) (by decide) []

end RaspiOrbSlam.TooJpeg
