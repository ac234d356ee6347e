import RaspiOrbSlam.Foundation.BitString
import Mathlib.Data.Nat.Bitwise

/-! # The bit writer of the JPEG encoder

Huffman codes go through a buffer whose full bytes are handed to the callback,
a zero behind every 0xFF. Everything else bypasses the buffer. -/

namespace RaspiOrbSlam.TooJpeg

open Foundation

/-- A single Huffman code: the right-most `numBits` bits of `code`. -/
structure BitCode where
  code : UInt16
  numBits : UInt8
deriving DecidableEq, Repr

/-- The most recently encoded bits that are not written yet. Written bits are
not cleared, so only the right-most `numBits` bits of `data` count. -/
structure BitBuffer where
  data : BitVec 32 := 0
  numBits : UInt8 := 0

/-- `output` holds the bytes handed to the callback so far. -/
structure BitWriter where
  output : List UInt8
  buffer : BitBuffer := {}

namespace BitWriter

/-- One call of the callback. -/
def emit (w : BitWriter) (oneByte : UInt8) : BitWriter :=
  { w with output := w.output ++ [oneByte] }

/-- The loop `while (buffer.numBits >= 8)`. -/
def writeFullBytes (w : BitWriter) : BitWriter :=
  if 8 ≤ w.buffer.numBits.toNat then
    let numBits := w.buffer.numBits - 8
    let oneByte := UInt8.ofBitVec ((w.buffer.data.sshiftRight numBits.toNat).setWidth 8)
    let written := emit { w with buffer := { w.buffer with numBits := numBits } } oneByte
    writeFullBytes (if oneByte = 0xFF then written.emit 0 else written)
  else w
termination_by w.buffer.numBits.toNat
decreasing_by
  rename_i h
  have hsub : (w.buffer.numBits - 8).toNat = w.buffer.numBits.toNat - 8 :=
    UInt8.toNat_sub_of_le w.buffer.numBits 8 h
  split <;> simp only [emit, hsub] <;> omega

/-- `operator<<(const BitCode&)`. No code is wider than 16 bits, so that no shift reaches
the width of an `int`; bits shifted out of `data` are lost, as the compiler defines it. -/
def put (w : BitWriter) (data : BitCode) : BitWriter :=
  writeFullBytes { w with
    buffer :=
      { numBits := w.buffer.numBits + data.numBits
        data := (w.buffer.data <<< data.numBits.toNat) ||| data.code.toBitVec.setWidth 32 } }

/-- Fill the last byte with ones. -/
def flush (w : BitWriter) : BitWriter := w.put ⟨0x7F, 7⟩

/-- `operator<<` for an array of bytes, past the buffer; a single byte is an array of one. -/
def bytes (w : BitWriter) (manyBytes : List UInt8) : BitWriter :=
  manyBytes.foldl emit w

/-- Start a new JFIF block. -/
def addMarker (w : BitWriter) (id : UInt8) (length : UInt16) : BitWriter :=
  (((w.emit 0xFF).emit id).emit (length >>> 8).toUInt8).emit (length &&& 0xFF).toUInt8

theorem bytes_eq (w : BitWriter) (manyBytes : List UInt8) :
    w.bytes manyBytes = { w with output := w.output ++ manyBytes } := by
  induction manyBytes generalizing w with
  | nil => simp [bytes]
  | cons b rest ih =>
      change (w.emit b).bytes rest = _
      rw [ih]
      simp [emit]

end BitWriter

/-- A zero behind every 0xFF. -/
def stuff (bytes : List UInt8) : List UInt8 :=
  bytes.flatMap fun b => if b = 0xFF then [b, 0] else [b]

@[simp]
theorem stuff_nil : stuff [] = [] := rfl

theorem stuff_cons (b : UInt8) (bytes : List UInt8) :
    stuff (b :: bytes) = (if b = 0xFF then [b, 0] else [b]) ++ stuff bytes := rfl

@[simp]
theorem stuff_append (front back : List UInt8) :
    stuff (front ++ back) = stuff front ++ stuff back :=
  List.flatMap_append

/-- The bits of a code as they appear in the stream. -/
def BitCode.bits (c : BitCode) : List Bool := bitsOf c.numBits.toNat c.code.toNat

/-- A code that has no bits besides its own and fits into 16 of them. -/
structure BitCode.Fits (c : BitCode) : Prop where
  width : c.numBits.toNat ≤ 16
  value : c.code.toNat < 2 ^ c.numBits.toNat

/-- The bits that wait for the rest of their byte. -/
def BitWriter.pending (w : BitWriter) : List Bool :=
  bitsOf w.buffer.numBits.toNat w.buffer.data.toNat

/-- `w'` is `w` after `bits`: the full bytes among the pending and the new bits have been
output, and fewer than eight bits are left. -/
structure BitWriter.Appends (w : BitWriter) (bits : List Bool) (w' : BitWriter) : Prop where
  left : w'.buffer.numBits.toNat < 8
  output : ∃ full : List UInt8, w'.output = w.output ++ stuff full ∧
    w.pending ++ bits = bitsOfBytes full ++ w'.pending

namespace BitWriter

theorem Appends.refl {w : BitWriter} (h : w.buffer.numBits.toNat < 8) : w.Appends [] w :=
  ⟨h, [], by simp⟩

theorem Appends.trans {w₁ w₂ w₃ : BitWriter} {front back : List Bool} (h₁ : w₁.Appends front w₂)
    (h₂ : w₂.Appends back w₃) : w₁.Appends (front ++ back) w₃ where
  left := h₂.left
  output := by
    obtain ⟨full₁, hout₁, hbits₁⟩ := h₁.output
    obtain ⟨full₂, hout₂, hbits₂⟩ := h₂.output
    refine ⟨full₁ ++ full₂, ?_, ?_⟩
    · rw [hout₂, hout₁, stuff_append, List.append_assoc]
    · rw [← List.append_assoc, hbits₁, List.append_assoc, hbits₂, bitsOfBytes_append,
        List.append_assoc]

/-- The byte taken out of the buffer holds the eight oldest pending bits. -/
theorem bitsOf_oldest (data : BitVec 32) {n : Nat} (h : n + 8 ≤ 32) :
    bitsOf 8 (UInt8.ofBitVec ((data.sshiftRight n).setWidth 8)).toNat =
      bitsOf 8 (data.toNat >>> n) := by
  apply bitsOf_congr
  intro i hi
  change (((data.sshiftRight n).setWidth 8).toNat).testBit i = _
  rw [BitVec.testBit_toNat, BitVec.getLsbD_setWidth, BitVec.getLsbD_sshiftRight,
    Nat.testBit_shiftRight, ← BitVec.testBit_toNat]
  have hsum : n + i < 32 := by omega
  have hi32 : i < 32 := by omega
  simp [hi, hi32, hsum]

/-- The bits in the buffer behind a new code. -/
theorem bitsOf_extended (data : BitVec 32) {n k : Nat} {code : UInt16} (h : n + k ≤ 32)
    (hcode : code.toNat < 2 ^ k) :
    bitsOf (n + k) ((data <<< k) ||| code.toBitVec.setWidth 32).toNat =
      bitsOf n data.toNat ++ bitsOf k code.toNat := by
  rw [← bitsOf_mul_add hcode]
  apply bitsOf_congr
  intro i hi
  have hi32 : i < 32 := by omega
  rw [BitVec.testBit_toNat, BitVec.getLsbD_or, BitVec.getLsbD_shiftLeft, BitVec.getLsbD_setWidth,
    Nat.testBit_two_pow_mul_add _ hcode, ← BitVec.testBit_toNat, ← BitVec.testBit_toNat]
  change (_ || (_ && code.toNat.testBit i)) = _
  by_cases hlow : i < k
  · simp [hi32, hlow]
  · have hhigh : code.toNat < 2 ^ i :=
      lt_of_lt_of_le hcode (Nat.pow_le_pow_right (by decide) (by omega))
    simp [hi32, hlow, Nat.testBit_lt_two_pow hhigh]

/-- One round of the loop outputs the eight oldest pending bits. -/
theorem pending_of_full {w : BitWriter} (h : 8 ≤ w.buffer.numBits.toNat)
    (hint : w.buffer.numBits.toNat ≤ 32) :
    w.pending =
      bitsOf 8 (UInt8.ofBitVec
        ((w.buffer.data.sshiftRight (w.buffer.numBits - 8).toNat).setWidth 8)).toNat ++
      bitsOf (w.buffer.numBits - 8).toNat w.buffer.data.toNat := by
  have hsub : (w.buffer.numBits - 8).toNat = w.buffer.numBits.toNat - 8 :=
    UInt8.toNat_sub_of_le w.buffer.numBits 8 h
  have hwidth : w.buffer.numBits.toNat = 8 + (w.buffer.numBits - 8).toNat := by omega
  rw [pending, hwidth, bitsOf_add, bitsOf_oldest _ (by omega)]

theorem writeFullBytes_appends (w : BitWriter) (h : w.buffer.numBits.toNat ≤ 32) :
    w.Appends [] w.writeFullBytes := by
  induction w using writeFullBytes.induct with
  | case1 w hfull numBits oneByte written ih =>
      simp only [dite_eq_ite] at ih
      have hnum : numBits.toNat = w.buffer.numBits.toNat - 8 :=
        UInt8.toNat_sub_of_le w.buffer.numBits 8 hfull
      have hbits : w.pending = bitsOf 8 oneByte.toNat ++ written.pending := pending_of_full hfull h
      rw [writeFullBytes, if_pos hfull]
      change w.Appends [] (writeFullBytes (if oneByte = 0xFF then written.emit 0 else written))
      have hleft :
          (if oneByte = 0xFF then written.emit 0 else written).buffer.numBits.toNat ≤ 32 := by
        split <;> change numBits.toNat ≤ 32 <;> omega
      obtain ⟨hlast, full, hout, hrest⟩ := ih hleft
      refine ⟨hlast, oneByte :: full, ?_, ?_⟩
      · rw [hout, stuff_cons, ← List.append_assoc]
        congr 1
        split <;> simp [written, emit]
      · rw [List.append_nil] at hrest ⊢
        rw [hbits, bitsOfBytes_cons, List.append_assoc, ← hrest]
        split <;> rfl
  | case2 w hfull =>
      rw [writeFullBytes, if_neg hfull]
      exact Appends.refl (by omega)

theorem put_appends {w : BitWriter} {c : BitCode} (hw : w.buffer.numBits.toNat < 8)
    (hc : c.Fits) : w.Appends c.bits (w.put c) := by
  have hsum : (w.buffer.numBits + c.numBits).toNat = w.buffer.numBits.toNat + c.numBits.toNat := by
    rw [UInt8.toNat_add, Nat.mod_eq_of_lt]
    have := hc.width
    omega
  have hwidth := hc.width
  obtain ⟨hleft, full, hout, hbits⟩ := writeFullBytes_appends { w with
    buffer :=
      { numBits := w.buffer.numBits + c.numBits
        data := (w.buffer.data <<< c.numBits.toNat) ||| c.code.toBitVec.setWidth 32 } }
    (by change (w.buffer.numBits + c.numBits).toNat ≤ 32; omega)
  refine ⟨hleft, full, hout, ?_⟩
  change _ = _ ++ pending (w.put c) at hbits
  rw [← hbits, List.append_nil, pending, pending, BitCode.bits]
  change _ = bitsOf (w.buffer.numBits + c.numBits).toNat _
  rw [hsum, bitsOf_extended _ (by omega) hc.value]

/-- The codes of a list, one after another. -/
def putAll (w : BitWriter) (codes : List BitCode) : BitWriter := codes.foldl put w

theorem putAll_append (w : BitWriter) (front back : List BitCode) :
    w.putAll (front ++ back) = (w.putAll front).putAll back :=
  List.foldl_append

theorem putAll_appends {w : BitWriter} {codes : List BitCode} (hw : w.buffer.numBits.toNat < 8)
    (hc : ∀ c ∈ codes, c.Fits) : w.Appends (codes.flatMap BitCode.bits) (w.putAll codes) := by
  induction codes generalizing w with
  | nil => exact Appends.refl hw
  | cons c rest ih =>
      have hfirst := put_appends hw (hc c (by simp))
      apply hfirst.trans
      apply ih hfirst.left
      intro d hd
      exact hc d (by simp [hd])

/-- The bits that fill up the last byte. -/
def padding (count : Nat) : List Bool := List.replicate ((8 - count % 8) % 8) true

/-- After `flush` the output is whole bytes: the bits, then ones up to the end of the byte. -/
theorem flush_output {w w' : BitWriter} {bits : List Bool} (hempty : w.buffer.numBits = 0)
    (h : w.Appends bits w') :
    ∃ full : List UInt8, w'.flush.output = w.output ++ stuff full ∧
      bitsOfBytes full = bits ++ padding bits.length := by
  have hfits : BitCode.Fits ⟨0x7F, 7⟩ := ⟨by decide, by decide⟩
  have hones : BitCode.bits ⟨0x7F, 7⟩ = List.replicate 7 true := bitsOf_two_pow_sub_one 7
  obtain ⟨hleft, full, hout, hbits⟩ := h.trans (put_appends h.left hfits)
  rw [pending, hempty, hones] at hbits
  change bits ++ _ = _ at hbits
  refine ⟨full, hout, ?_⟩
  have hlength := congrArg List.length hbits
  have hlast : (w'.put ⟨0x7F, 7⟩).pending.length < 8 := by
    rw [pending, length_bitsOf]
    exact hleft
  simp only [List.length_append, List.length_replicate, length_bitsOfBytes] at hlength
  have hfill : bits.length + (8 - bits.length % 8) % 8 = 8 * full.length := by omega
  have htake := congrArg (List.take (8 * full.length)) hbits
  rw [List.take_left' (length_bitsOfBytes full), ← hfill, List.take_length_add_append,
    List.take_replicate] at htake
  rw [← htake, padding]
  congr 2
  omega

end BitWriter

end RaspiOrbSlam.TooJpeg
