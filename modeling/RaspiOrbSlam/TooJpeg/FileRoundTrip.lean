import RaspiOrbSlam.TooJpeg.FileHeader
import RaspiOrbSlam.TooJpeg.ScanRoundTrip

/-! # The round trip of a file

Decoding what is written for a picture gives its dimensions, the quantization
tables for the quality, and the integers of all blocks. -/

namespace RaspiOrbSlam.TooJpeg

open Foundation

/-- Bytes behind the scan do not matter for what was stuffed. -/
theorem unstuff_stuff (bytes : List UInt8) {id : UInt8} (hid : id ≠ 0) (rest : List UInt8) :
    unstuff (stuff bytes ++ 0xFF :: id :: rest) = some (bytes, 0xFF :: id :: rest) := by
  induction bytes with
  | nil =>
      rw [stuff_nil, List.nil_append, unstuff, if_pos rfl, if_neg hid]
  | cons b bytes ih =>
      rw [stuff_cons]
      by_cases hb : b = 0xFF
      · rw [if_pos hb]
        change unstuff (b :: 0 :: (stuff bytes ++ 0xFF :: id :: rest)) = _
        rw [unstuff, if_pos hb, if_pos rfl, ih]
        rfl
      · rw [if_neg hb]
        change unstuff (b :: (stuff bytes ++ 0xFF :: id :: rest)) = _
        obtain ⟨next, tail, htail⟩ :
            ∃ next tail, stuff bytes ++ 0xFF :: id :: rest = next :: tail := by
          cases stuff bytes with
          | nil => exact ⟨_, _, rfl⟩
          | cons c cs => exact ⟨_, _, rfl⟩
        rw [htail, unstuff, if_neg hb, ← htail, ih]
        rfl

theorem clamp_between (value : Nat) {minValue maxValue : Nat} (h : minValue ≤ maxValue) :
    minValue ≤ clamp value minValue maxValue ∧ clamp value minValue maxValue ≤ maxValue := by
  unfold clamp
  split
  · exact ⟨le_rfl, h⟩
  · split
    · exact ⟨h, le_rfl⟩
    · omega

/-- No step of a table is zero, whatever the quality. -/
theorem quantTable_ne_zero (table : Fin 64 → Nat) (quality : UInt8) (i : Fin 64) :
    quantTable table quality i ≠ 0 := by
  obtain ⟨hlow, hhigh⟩ := clamp_between ((table (zigZagInv i) * qualityFactor quality + 50) / 100)
    (by decide : 1 ≤ 255)
  intro hzero
  have hnat := congrArg UInt8.toNat hzero
  rw [quantTable, UInt8.toNat_ofNat_of_lt' (Nat.lt_succ_of_le hhigh)] at hnat
  change _ = 0 at hnat
  omega

theorem table_encodes (d : CodeDefinition) : d.Encodes d.table := CodeDefinition.encodes_table

namespace Arguments

variable (a : Arguments)

def picture (pixels : List UInt8) : Picture :=
  ⟨pixels, a.width.toNat, a.height.toNat, a.invertRB, a.isRGB⟩

/-- What the loops over the units get. -/
def setup (pixels : List UInt8) : ScanSetup where
  picture := a.picture pixels
  downsample := a.isRGB && a.downsample
  scaledLuminance := scaledTable a.quantLuminance
  scaledChrominance := scaledTable a.quantChrominance
  tables := a.tables
  codewords := precomputedCodewords

/-- Arguments that the encoder accepts: the buffer holds all pixels, and the comment ends within
its memory and within a segment. -/
structure Valid (pixels : List UInt8) : Prop where
  output : a.output = true
  buffer : a.pixels = some pixels
  readable : (a.picture pixels).Readable
  comment : ∀ memory ∈ a.comment, 0 ∈ memory ∧ (commentText memory).length + 2 < 2 ^ 16

/-- What a decoder is to find in the file. -/
def decoded (pixels : List UInt8) : DecodedFile where
  width := a.width.toNat
  height := a.height.toNat
  comments := a.comments
  quant := List.ofFn a.quantLuminance ::
    if a.isRGB then [List.ofFn a.quantChrominance, List.ofFn a.quantChrominance] else []
  units := (a.setup pixels).scanLevels

variable {a}

theorem setup_prepared {pixels : List UInt8} (h : (a.picture pixels).Readable) :
    (a.setup pixels).Prepared a.quantLuminance a.quantChrominance where
  readable := h
  colours hdownsample := (Bool.and_eq_true_iff.mp hdownsample).1
  scaledLuminance := by rw [setup]
  scaledChrominance := by rw [setup]
  stepsLuminance := quantTable_ne_zero defaultQuantLuminance a.quality
  stepsChrominance := quantTable_ne_zero defaultQuantChrominance a.quality
  luminanceDC := table_encodes dcLuminance
  luminanceAC := table_encodes acLuminance
  chrominanceDC hrgb := by
    change dcChrominance.Encodes (if a.isRGB then dcChrominance.table else fun _ => none)
    rw [if_pos (show a.isRGB = true from hrgb)]
    exact table_encodes dcChrominance
  chrominanceAC hrgb := by
    change acChrominance.Encodes (if a.isRGB then acChrominance.table else fun _ => none)
    rw [if_pos (show a.isRGB = true from hrgb)]
    exact table_encodes acChrominance
  codewords := by rw [setup]

end Arguments

/-- The whole output: the header, the scan with its last byte filled up, and the end. -/
theorem writeFile_output (a : Arguments) {pixels : List UInt8} (planes : Planes)
    (hreadable : (a.picture pixels).Readable)
    (hcomment : ∀ memory ∈ a.comment, 0 ∈ memory ∧ (commentText memory).length + 2 < 2 ^ 16) :
    ∃ full bits state w, writeFile a pixels planes { output := [] } = .ok ((), w) ∧
      w.output = a.front ++ stuff full ++ [0xFF, 0xD9] ∧
      bitsOfBytes full = bits ++ BitWriter.padding bits.length ∧
      Parser.Yields (decodeScan (a.setup pixels).scanLevels.length (a.setup pixels).components)
        bits ⟨(a.setup pixels).scanLevels, predictions (a.setup pixels) state⟩ := by
  obtain ⟨codes, state, hwrites, hfits, hyields⟩ :=
    encodeScan_decodes (Arguments.setup_prepared hreadable) planes
  let w : BitWriter := { output := a.front }
  obtain ⟨full, hfull, hpadded⟩ := BitWriter.flush_output (w := w) rfl
    (BitWriter.putAll_appends (w := w) (show 0 < 8 by decide) hfits)
  refine ⟨full, codes.flatMap BitCode.bits, state, (w.putAll codes).flush.bytes [0xFF, 0xD9], ?_,
    ?_, hpadded, hyields⟩
  · apply (Outputs.writeBytes headerJfif).run
    apply (writeComment_outputs hcomment).run
    apply (writeQuantization_outputs a).run
    apply (writeFrame_outputs a).run
    apply (writeHuffman_outputs a).run
    apply (writeScanHeader_outputs a).run
    change ((a.setup pixels).encodeScan { planes } >>= fun _ => (do
      modify BitWriter.flush
      writeBytes [0xFF, 0xD9] : Writing Unit))
        { output := headerJfif ++ a.comments.flatMap (segment 0xFE) ++
          segment 0xDB a.quantPayload ++ segment 0xC0 a.framePayload ++
          segment 0xC4 a.codePayload ++ segment 0xDA a.scanPayload } = _
    rw [a.front_eq]
    change ((a.setup pixels).encodeScan { planes } w).bind _ = _
    rw [hwrites w]
    rfl
  · rw [BitWriter.bytes_eq, hfull]

theorem length_stepsTo (limit step : Nat) :
    (stepsTo limit step).length = (limit + step - 1) / step := by
  rw [stepsTo, List.length_map, List.length_range]

theorem ScanSetup.length_scanLevels (setup : ScanSetup) :
    setup.scanLevels.length = (stepsTo setup.picture.height setup.mcuSize).length *
      (stepsTo setup.picture.width setup.mcuSize).length := by
  rw [scanLevels, List.length_flatMap]
  simp

/-- The decoder finds as many units as the loops encode. -/
theorem Arguments.unitCount_frame (a : Arguments) (pixels : List UInt8) :
    a.frame.unitCount = (a.setup pixels).scanLevels.length := by
  have hsize : 8 * (a.frame.components.map FrameComponent.horizontal).foldl max 1 =
      (a.setup pixels).mcuSize ∧ 8 * (a.frame.components.map FrameComponent.vertical).foldl max 1 =
      (a.setup pixels).mcuSize := by
    unfold frame ScanSetup.mcuSize setup
    cases a.isRGB <;> cases a.downsample <;> exact ⟨rfl, rfl⟩
  rw [Frame.unitCount, hsize.1, hsize.2, ScanSetup.length_scanLevels, length_stepsTo,
    length_stepsTo]
  rfl

theorem Arguments.scanComponents_header (a : Arguments) (pixels : List UInt8) :
    a.header.scanComponents a.frame ((1, 0) :: if a.isRGB then [(2, 17), (3, 17)] else []) =
      some (a.setup pixels).components := by
  unfold Header.scanComponents header frame ScanSetup.components ScanSetup.luminanceComponent
    ScanSetup.chrominanceComponent setup picture
  cases a.isRGB <;> cases a.downsample <;> rfl

theorem Arguments.quant_header (a : Arguments) (pixels : List UInt8) :
    (a.frame.components.mapM fun c => a.header.quant.lookup c.quant) =
      some (a.decoded pixels).quant := by
  unfold header frame decoded
  cases a.isRGB <;> rfl

theorem Arguments.decodeData_scan (a : Arguments) {pixels full : List UInt8} {bits : List Bool}
    {components : List (ScanComponent × Int)}
    (hfull : bitsOfBytes full = bits ++ BitWriter.padding bits.length)
    (hscan : Parser.Yields
      (decodeScan (a.setup pixels).scanLevels.length (a.setup pixels).components) bits
      ⟨(a.setup pixels).scanLevels, components⟩) :
    a.header.decodeData ((1, 0) :: if a.isRGB then [(2, 17), (3, 17)] else [])
      (stuff full ++ [0xFF, 0xD9]) = some (a.decoded pixels) := by
  have hpadding : (BitWriter.padding bits.length).length < 8 ∧
      (BitWriter.padding bits.length).all id = true := by
    rw [BitWriter.padding]
    constructor
    · rw [List.length_replicate]
      omega
    · simp
  have hframe : a.header.frame = some a.frame := rfl
  rw [Header.decodeData, hframe, Option.bind_eq_bind, Option.bind_some,
    a.scanComponents_header pixels, Option.bind_eq_bind, Option.bind_some,
    a.quant_header pixels, Option.bind_eq_bind, Option.bind_some, unstuff_stuff full (by decide)]
  simp only [Option.bind_eq_bind, Option.bind_some]
  rw [a.unitCount_frame pixels, hfull, hscan]
  simp only
  rw [if_pos ⟨trivial, hpadding⟩]
  rfl

/-- Decoding what is written. -/
theorem writeJpeg_decodes {a : Arguments} {pixels : List UInt8} (h : a.Valid pixels)
    (planes : Planes) :
    ∃ bytes, writeJpeg a planes = .ok (true, bytes) ∧
      decodeFile bytes = some (a.decoded pixels) := by
  obtain ⟨full, bits, state, w, hwrite, houtput, hfull, hscan⟩ :=
    writeFile_output a planes h.readable h.comment
  refine ⟨w.output, ?_, ?_⟩
  · have hpos : ∀ n : UInt16, 0 < n.toNat → n ≠ 0 := by
      rintro n hn rfl
      exact lt_irrefl 0 hn
    have hwidth := hpos _ h.readable.width
    have hheight := hpos _ h.readable.height
    rw [writeJpeg, h.buffer]
    simp only [h.output, hwidth, hheight, Bool.not_true, Bool.false_or, beq_iff_eq, Bool.or_eq_true,
      or_false, if_false]
    change (writeFile a pixels planes { output := [] }).bind _ = _
    rw [hwrite]
    rfl
  · rw [houtput, List.append_assoc, a.decodeFile_front h.comment]
    exact a.decodeData_scan hfull hscan

end RaspiOrbSlam.TooJpeg
