import RaspiOrbSlam.TooJpeg.BlockRoundTrip
import RaspiOrbSlam.TooJpeg.SamplePrecision
import RaspiOrbSlam.TooJpeg.ScanDecoder
import RaspiOrbSlam.TooJpeg.WriteJpeg

/-! # The round trip of a scan

What the loops over the units send decodes to the integers of all blocks, for
every picture that the buffer holds. -/

namespace RaspiOrbSlam.TooJpeg

open Foundation

/-- Only the 64 values of a block count. -/
theorem scaleBlock_congr {block block' : Nat → Float32} (h : ∀ k < 64, block k = block' k)
    (scaled : Nat → Float32) (i : Fin 64) :
    scaleBlock block scaled (zigZagInv i) = scaleBlock block' scaled (zigZagInv i) := by
  have hrows : ∀ r c : Fin 8, block (r * 8 + c) = block' (r * 8 + c) := by
    intro r c
    exact h _ (place_eq r c).2
  simp only [scaleBlock, zigZagInv_eq, transformColumns_apply, transformRows_apply, hrows]

theorem levels_congr {block block' : Nat → Float32} (h : ∀ k < 64, block k = block' k)
    (scaled : Nat → Float32) :
    levels (scaleBlock block scaled) = levels (scaleBlock block' scaled) := by
  simp only [levels, level, scaleBlock_congr h]

theorem Samples.congr {block block' : Nat → Float32} {v : Fin 8 → Fin 8 → ℚ} {h : ℚ}
    (hs : Samples block' v h) (heq : ∀ k < 64, block k = block' k) : Samples block v h :=
  { hs with near := fun r c => by rw [heq _ (place_eq r c).2]; exact hs.near r c }

namespace ScanSetup

variable (setup : ScanSetup)

/-- The integers of a unit, for each component the blocks in the order of the scan. -/
def unitLevels (mcuX mcuY : Nat) : List (List (List Int)) :=
  let p := setup.picture
  ((stepsTo setup.mcuSize 8).flatMap fun blockY => (stepsTo setup.mcuSize 8).map fun blockX =>
      levels (scaleBlock (luminanceBlock p (mcuX + blockX) (mcuY + blockY))
        setup.scaledLuminance)) ::
    if p.isRGB then
      [[levels (scaleBlock (chrominanceBlock p setup.downsample rgb2cb mcuX mcuY)
        setup.scaledChrominance)],
      [levels (scaleBlock (chrominanceBlock p setup.downsample rgb2cr mcuX mcuY)
        setup.scaledChrominance)]]
    else []

/-- All units, line by line. -/
def scanLevels : List (List (List (List Int))) :=
  (stepsTo setup.picture.height setup.mcuSize).flatMap fun mcuY =>
    (stepsTo setup.picture.width setup.mcuSize).map fun mcuX => setup.unitLevels mcuX mcuY

/-- The components as a decoder of the file knows them. -/
def luminanceComponent : ScanComponent where
  blocks := if setup.downsample then 4 else 1
  dc := dcLuminance.toCodeLists
  ac := acLuminance.toCodeLists

def chrominanceComponent : ScanComponent where
  blocks := 1
  dc := dcChrominance.toCodeLists
  ac := acChrominance.toCodeLists

def components : List ScanComponent :=
  luminanceComponent setup ::
    if setup.picture.isRGB then [chrominanceComponent, chrominanceComponent] else []

/-- The tables and the codes of the loops, for quantization steps that are not zero. -/
structure Prepared (quantLuminance quantChrominance : Fin 64 → UInt8) : Prop where
  readable : setup.picture.Readable
  colours : setup.downsample = true → setup.picture.isRGB = true
  scaledLuminance : setup.scaledLuminance = scaledTable quantLuminance
  scaledChrominance : setup.scaledChrominance = scaledTable quantChrominance
  stepsLuminance : ∀ i, quantLuminance i ≠ 0
  stepsChrominance : ∀ i, quantChrominance i ≠ 0
  luminanceDC : dcLuminance.Encodes setup.tables.luminanceDC
  luminanceAC : acLuminance.Encodes setup.tables.luminanceAC
  chrominanceDC : setup.picture.isRGB = true → dcChrominance.Encodes setup.tables.chrominanceDC
  chrominanceAC : setup.picture.isRGB = true → acChrominance.Encodes setup.tables.chrominanceAC
  codewords : setup.codewords = precomputedCodewords

end ScanSetup

theorem baseline_luminance : Baseline dcLuminance.toCodeLists acLuminance.toCodeLists where
  sizes := by decide +kernel
  pairs := by decide +kernel
  sixteenZeros := by decide +kernel
  endOfBlock := by decide +kernel

theorem baseline_chrominance : Baseline dcChrominance.toCodeLists acChrominance.toCodeLists where
  sizes := by decide +kernel
  pairs := by decide +kernel
  sixteenZeros := by decide +kernel
  endOfBlock := by decide +kernel

/-- Encoding a block, and decoding it behind the others of its component. -/
theorem Samples.encodeBlock_nextBlock {c : ScanComponent} {huffmanDC huffmanAC : HuffmanTable}
    (hdc : c.dc.Encodes huffmanDC) (hac : c.ac.Encodes huffmanAC) (hsymbols : Baseline c.dc c.ac)
    {block : Nat → Float32} {v : Fin 8 → Fin 8 → ℚ} {h : ℚ} {quant : Fin 64 → UInt8}
    (hs : Samples block v h) (hquant : ∀ i, quant i ≠ 0) {lastDC : Int16}
    (hlast : Predicted h (quant 0) lastDC) :
    ∃ codes DC, Writes (encodeBlock block (scaledTable quant) lastDC huffmanDC huffmanAC
        precomputedCodewords) codes DC ∧ (∀ c ∈ codes, c.Fits) ∧ Predicted h (quant 0) DC ∧
      ∀ blocks n, Parser.Yields (nextBlock c (blocks, lastDC.toInt) n)
        (codes.flatMap BitCode.bits)
        (blocks ++ [levels (scaleBlock block (scaledTable quant))], DC.toInt) := by
  obtain ⟨codes, DC, hwrites, hfits, hnext, acs, hlevels, hreads⟩ :=
    hs.encodeBlock_decodes hdc hac hsymbols hquant hlast
  refine ⟨codes, DC, hwrites, hfits, hnext, ?_⟩
  intro blocks n
  have hsum : lastDC.toInt + (DC.toInt - lastDC.toInt) = DC.toInt := by omega
  have hblock := hreads.bind (f := fun read : Int × List Int =>
    (pure (blocks ++ [(lastDC.toInt + read.1) :: read.2], lastDC.toInt + read.1) :
      Parser Bool Malformed (List (List Int) × Int))) (Parser.Yields.pure _)
  rw [hsum, List.append_nil] at hblock
  rw [hlevels]
  exact hblock

section Units

variable {setup : ScanSetup} {quantLuminance quantChrominance : Fin 64 → UInt8}

/-- Blocks of the luminance since the state `start`. -/
structure LuminanceProgress (setup : ScanSetup) (quant : Fin 64 → UInt8) (start : ScanState)
    (blocks : List (List Int)) (codes : List BitCode) (state : ScanState) : Prop where
  fits : ∀ c ∈ codes, c.Fits
  predicted : Predicted (1 / 2) (quant 0) state.lastYDC
  others : state.lastCbDC = start.lastCbDC ∧ state.lastCrDC = start.lastCrDC
  reads : Parser.Yields ((List.range blocks.length).foldlM (nextBlock setup.luminanceComponent)
    ([], start.lastYDC.toInt)) (codes.flatMap BitCode.bits) (blocks, state.lastYDC.toInt)

theorem encodeY_progress (hsetup : setup.Prepared quantLuminance quantChrominance)
    {start state : ScanState} {blocks : List (List Int)} {codes : List BitCode}
    (h : LuminanceProgress setup quantLuminance start blocks codes state)
    (mcuX mcuY blockX blockY : Nat) :
    ∃ more state', Writes (setup.encodeY mcuX mcuY blockY state blockX) more state' ∧
      LuminanceProgress setup quantLuminance start
        (blocks ++ [levels (scaleBlock
          (luminanceBlock setup.picture (mcuX + blockX) (mcuY + blockY)) setup.scaledLuminance)])
        (codes ++ more) state' ∧
      Sampled setup.picture setup.downsample (mcuX + blockX) (mcuY + blockY) 64 state'.planes := by
  obtain ⟨planes, hsample, hsampled⟩ := sampleBlock_writes hsetup.readable setup.downsample
    (mcuX + blockX) (mcuY + blockY) state.planes
  obtain ⟨more, DC, hencode, hfits, hpredicted, hreads⟩ :=
    ((luminanceBlock_samples _ _ _).congr hsampled.luminance).encodeBlock_nextBlock
      (c := setup.luminanceComponent) hsetup.luminanceDC hsetup.luminanceAC baseline_luminance
      hsetup.stepsLuminance h.predicted
  have hblock : levels (scaleBlock planes.Y (scaledTable quantLuminance)) =
      levels (scaleBlock (luminanceBlock setup.picture (mcuX + blockX) (mcuY + blockY))
        setup.scaledLuminance) := by
    rw [hsetup.scaledLuminance]
    exact levels_congr hsampled.luminance _
  refine ⟨more, { state with planes, lastYDC := DC }, ?_, ⟨?_, hpredicted, h.others, ?_⟩,
    hsampled⟩
  · rw [ScanSetup.encodeY, hsetup.scaledLuminance, hsetup.codewords]
    exact hsample.bind (hencode.bindPure _)
  · intro c hc
    rcases List.mem_append.mp hc with hc | hc
    · exact h.fits c hc
    · exact hfits c hc
  · rw [List.length_append, List.length_singleton, List.flatMap_append, ← hblock]
    exact foldlM_range_succ h.reads (hreads blocks _)

/-- A row of blocks in a unit. -/
theorem encodeYRow_progress (hsetup : setup.Prepared quantLuminance quantChrominance)
    {start state : ScanState} {blocks : List (List Int)} {codes : List BitCode}
    (h : LuminanceProgress setup quantLuminance start blocks codes state)
    (mcuX mcuY blockY : Nat) (columns : List Nat) :
    ∃ more state', Writes (columns.foldlM (setup.encodeY mcuX mcuY blockY) state) more state' ∧
      LuminanceProgress setup quantLuminance start
        (blocks ++ columns.map fun blockX => levels (scaleBlock
          (luminanceBlock setup.picture (mcuX + blockX) (mcuY + blockY)) setup.scaledLuminance))
        (codes ++ more) state' := by
  apply Writes.foldlM (P := fun done more state =>
    LuminanceProgress setup quantLuminance start
      (blocks ++ done.map fun blockX => levels (scaleBlock
        (luminanceBlock setup.picture (mcuX + blockX) (mcuY + blockY)) setup.scaledLuminance))
      (codes ++ more) state)
  · intro done blockX rest _ more state hprogress
    obtain ⟨last, state', hwrites, hnext, -⟩ :=
      encodeY_progress hsetup hprogress mcuX mcuY blockX blockY
    refine ⟨last, state', hwrites, ?_⟩
    rw [List.map_append, List.map_singleton, ← List.append_assoc, ← List.append_assoc]
    exact hnext
  · rw [List.map_nil, List.append_nil, List.append_nil]
    exact h

theorem LuminanceProgress.start {quant : Fin 64 → UInt8} {state : ScanState}
    (h : Predicted (1 / 2) (quant 0) state.lastYDC) :
    LuminanceProgress setup quant state [] [] state :=
  ⟨fun _ hc => absurd hc List.not_mem_nil, h, ⟨rfl, rfl⟩, Parser.Yields.pure _⟩

/-- The luminance of a unit; without downsampling, the samples of the chrominance are those of
the same pixels. -/
theorem encodeLuminance_progress (hsetup : setup.Prepared quantLuminance quantChrominance)
    {state : ScanState} (h : Predicted (1 / 2) (quantLuminance 0) state.lastYDC) (mcuX mcuY : Nat) :
    ∃ codes state', Writes ((stepsTo setup.mcuSize 8).foldlM (fun state blockY =>
        (stepsTo setup.mcuSize 8).foldlM (setup.encodeY mcuX mcuY blockY) state) state)
          codes state' ∧
      LuminanceProgress setup quantLuminance state
        ((stepsTo setup.mcuSize 8).flatMap fun blockY => (stepsTo setup.mcuSize 8).map fun blockX =>
          levels (scaleBlock (luminanceBlock setup.picture (mcuX + blockX) (mcuY + blockY))
            setup.scaledLuminance)) codes state' ∧
      (setup.downsample = false → Sampled setup.picture false mcuX mcuY 64 state'.planes) := by
  by_cases hdownsample : setup.downsample = true
  · obtain ⟨codes, state', hwrites, hprogress⟩ := Writes.foldlM
      (l := stepsTo setup.mcuSize 8) (f := fun state blockY =>
        (stepsTo setup.mcuSize 8).foldlM (setup.encodeY mcuX mcuY blockY) state)
      (P := fun done codes state' => LuminanceProgress setup quantLuminance state
        (done.flatMap fun blockY => (stepsTo setup.mcuSize 8).map fun blockX =>
          levels (scaleBlock (luminanceBlock setup.picture (mcuX + blockX) (mcuY + blockY))
            setup.scaledLuminance)) codes state') (by
      intro done blockY rest _ codes state' hprogress
      obtain ⟨more, state'', hwrites, hnext⟩ :=
        encodeYRow_progress hsetup hprogress mcuX mcuY blockY (stepsTo setup.mcuSize 8)
      refine ⟨more, state'', hwrites, ?_⟩
      rw [List.flatMap_append, List.flatMap_singleton]
      exact hnext) (LuminanceProgress.start h)
    refine ⟨codes, state', hwrites, hprogress, ?_⟩
    intro hfalse
    rw [hdownsample] at hfalse
    cases hfalse
  · rw [Bool.not_eq_true] at hdownsample
    have hsteps : stepsTo setup.mcuSize 8 = [0] := by
      rw [ScanSetup.mcuSize, hdownsample]
      rfl
    obtain ⟨codes, state', hwrites, hprogress, hsampled⟩ :=
      encodeY_progress hsetup (LuminanceProgress.start h) mcuX mcuY 0 0
    rw [hsteps]
    rw [hdownsample] at hsampled
    have hinner : Writes ([0].foldlM (setup.encodeY mcuX mcuY 0) state) codes state' :=
      Writes.foldlM_concat (l := []) (Writes.pure state) hwrites
    exact ⟨codes, state', Writes.foldlM_concat (l := []) (Writes.pure state) hinner, hprogress,
      fun _ => hsampled⟩

/-- The samples of the chrominance, from one pass or the other. -/
theorem chrominance_planes (hsetup : setup.Prepared quantLuminance quantChrominance)
    (hrgb : setup.picture.isRGB = true) {mcuX mcuY : Nat} (hx : mcuX < setup.picture.width)
    {planes : Planes}
    (hplanes : setup.downsample = false → Sampled setup.picture false mcuX mcuY 64 planes) :
    ∃ planes', Writes (setup.averageChrominance mcuX mcuY planes) [] planes' ∧
      ∀ k < 64,
        planes'.Cb k = chrominanceBlock setup.picture setup.downsample rgb2cb mcuX mcuY k ∧
        planes'.Cr k = chrominanceBlock setup.picture setup.downsample rgb2cr mcuX mcuY k := by
  rw [ScanSetup.averageChrominance]
  cases hdownsample : setup.downsample with
  | true =>
      obtain ⟨planes', hwrites, -, haveraged⟩ :=
        downsampleChrominance_writes hsetup.readable hrgb hx mcuY planes
      refine ⟨planes', hwrites, ?_⟩
      intro k hk
      have harea := haveraged (k / 8) (by omega) (k % 8) (by omega)
      rw [Nat.div_add_mod'] at harea
      exact harea
  | false => exact ⟨planes, Writes.pure planes, (hplanes hdownsample).chrominance hrgb rfl⟩

/-- The predictions of a state. -/
structure Coherent (quantLuminance quantChrominance : Fin 64 → UInt8) (state : ScanState) :
    Prop where
  luminance : Predicted (1 / 2) (quantLuminance 0) state.lastYDC
  blue : Predicted 0 (quantChrominance 0) state.lastCbDC
  red : Predicted 0 (quantChrominance 0) state.lastCrDC

/-- The components with the predictions of a state. -/
def predictions (setup : ScanSetup) (state : ScanState) : List (ScanComponent × Int) :=
  (setup.luminanceComponent, state.lastYDC.toInt) ::
    if setup.picture.isRGB then
      [(ScanSetup.chrominanceComponent, state.lastCbDC.toInt),
        (ScanSetup.chrominanceComponent, state.lastCrDC.toInt)]
    else []

/-- The chrominance of a unit. -/
theorem encodeChrominance_yields (hsetup : setup.Prepared quantLuminance quantChrominance)
    (hrgb : setup.picture.isRGB = true) {mcuX mcuY : Nat} (hx : mcuX < setup.picture.width)
    {state : ScanState}
    (hplanes : setup.downsample = false → Sampled setup.picture false mcuX mcuY 64 state.planes)
    (hblue : Predicted 0 (quantChrominance 0) state.lastCbDC)
    (hred : Predicted 0 (quantChrominance 0) state.lastCrDC) :
    ∃ codes state', Writes (setup.encodeChrominance mcuX mcuY state) codes state' ∧
      (∀ c ∈ codes, c.Fits) ∧ state'.lastYDC = state.lastYDC ∧
      Predicted 0 (quantChrominance 0) state'.lastCbDC ∧
      Predicted 0 (quantChrominance 0) state'.lastCrDC ∧
      Parser.Yields (decodeUnit [(ScanSetup.chrominanceComponent, state.lastCbDC.toInt),
          (ScanSetup.chrominanceComponent, state.lastCrDC.toInt)]) (codes.flatMap BitCode.bits)
        ([[levels (scaleBlock (chrominanceBlock setup.picture setup.downsample rgb2cb mcuX mcuY)
            setup.scaledChrominance)],
          [levels (scaleBlock (chrominanceBlock setup.picture setup.downsample rgb2cr mcuX mcuY)
            setup.scaledChrominance)]],
          [(ScanSetup.chrominanceComponent, state'.lastCbDC.toInt),
            (ScanSetup.chrominanceComponent, state'.lastCrDC.toInt)]) := by
  obtain ⟨planes, hpass, hstored⟩ := chrominance_planes hsetup hrgb hx hplanes
  obtain ⟨front, cb, hfront, hfrontFits, hcb, hfrontReads⟩ :=
    ((chrominanceBlock_samples conversion_blue _ _ _ _).congr
      fun k hk => (hstored k hk).1).encodeBlock_nextBlock (c := ScanSetup.chrominanceComponent)
      (hsetup.chrominanceDC hrgb) (hsetup.chrominanceAC hrgb) baseline_chrominance
      hsetup.stepsChrominance hblue
  obtain ⟨back, cr, hback, hbackFits, hcr, hbackReads⟩ :=
    ((chrominanceBlock_samples conversion_red _ _ _ _).congr
      fun k hk => (hstored k hk).2).encodeBlock_nextBlock (c := ScanSetup.chrominanceComponent)
      (hsetup.chrominanceDC hrgb) (hsetup.chrominanceAC hrgb) baseline_chrominance
      hsetup.stepsChrominance hred
  refine ⟨front ++ back, { state with planes, lastCbDC := cb, lastCrDC := cr }, ?_, ?_, rfl, hcb,
    hcr, ?_⟩
  · rw [ScanSetup.encodeChrominance, hsetup.scaledChrominance, hsetup.codewords]
    exact hpass.bind (hfront.bind (hback.bindPure _))
  · intro c hc
    rcases List.mem_append.mp hc with hc | hc
    · exact hfrontFits c hc
    · exact hbackFits c hc
  · rw [levels_congr fun k hk => (hstored k hk).1] at hfrontReads
    rw [levels_congr fun k hk => (hstored k hk).2] at hbackReads
    rw [hsetup.scaledChrominance, List.flatMap_append]
    have hlast := decodeUnit_cons (c := ScanSetup.chrominanceComponent)
      (foldlM_range_one (hbackReads [] 0)) decodeUnit_nil
    rw [List.append_nil] at hlast
    exact decodeUnit_cons (c := ScanSetup.chrominanceComponent)
      (foldlM_range_one (hfrontReads [] 0)) hlast

/-- A unit decodes to its integers and to the predictions of the next one. -/
theorem encodeMCU_yields (hsetup : setup.Prepared quantLuminance quantChrominance) (mcuY : Nat)
    {mcuX : Nat} (hx : mcuX < setup.picture.width) {state : ScanState}
    (h : Coherent quantLuminance quantChrominance state) :
    ∃ codes state', Writes (setup.encodeMCU mcuY state mcuX) codes state' ∧
      (∀ c ∈ codes, c.Fits) ∧ Coherent quantLuminance quantChrominance state' ∧
      Parser.Yields (decodeUnit (predictions setup state)) (codes.flatMap BitCode.bits)
        (setup.unitLevels mcuX mcuY, predictions setup state') := by
  obtain ⟨front, middle, hfront, hprogress, hplanes⟩ :=
    encodeLuminance_progress hsetup h.luminance mcuX mcuY
  obtain ⟨hblue, hred⟩ := hprogress.others
  have hcount : ((stepsTo setup.mcuSize 8).flatMap fun blockY =>
      (stepsTo setup.mcuSize 8).map fun blockX => levels (scaleBlock
        (luminanceBlock setup.picture (mcuX + blockX) (mcuY + blockY))
          setup.scaledLuminance)).length = setup.luminanceComponent.blocks := by
    rw [ScanSetup.mcuSize, ScanSetup.luminanceComponent]
    cases setup.downsample <;> rfl
  have hreads := hprogress.reads
  rw [hcount] at hreads
  cases hrgb : setup.picture.isRGB with
  | false =>
      refine ⟨front, middle, ?_, hprogress.fits, ⟨hprogress.predicted, ?_, ?_⟩, ?_⟩
      · rw [ScanSetup.encodeMCU, hrgb]
        have hend := hfront.bind (Writes.pure middle)
        rw [List.append_nil] at hend
        exact hend
      · rw [hblue]
        exact h.blue
      · rw [hred]
        exact h.red
      · have hunit := decodeUnit_cons hreads decodeUnit_nil
        rw [List.append_nil] at hunit
        simpa only [predictions, ScanSetup.unitLevels, hrgb, Bool.false_eq_true, if_false]
          using hunit
  | true =>
      obtain ⟨back, state', hback, hbackFits, hluminance, hcb, hcr, hbackReads⟩ :=
        encodeChrominance_yields hsetup hrgb hx hplanes (by rw [hblue]; exact h.blue)
          (by rw [hred]; exact h.red)
      refine ⟨front ++ back, state', ?_, ?_, ⟨?_, hcb, hcr⟩, ?_⟩
      · rw [ScanSetup.encodeMCU, hrgb]
        exact hfront.bind hback
      · intro c hc
        rcases List.mem_append.mp hc with hc | hc
        · exact hprogress.fits c hc
        · exact hbackFits c hc
      · rw [hluminance]
        exact hprogress.predicted
      · rw [hblue, hred] at hbackReads
        have hunit := decodeUnit_cons hreads hbackReads
        rw [← List.flatMap_append, ← hluminance] at hunit
        simpa only [predictions, ScanSetup.unitLevels, hrgb, if_true] using hunit

/-- The units of a scan so far. -/
structure Scanned (setup : ScanSetup) (quantLuminance quantChrominance : Fin 64 → UInt8)
    (units : List (List (List (List Int)))) (codes : List BitCode) (state : ScanState) : Prop where
  fits : ∀ c ∈ codes, c.Fits
  coherent : Coherent quantLuminance quantChrominance state
  reads : Parser.Yields (decodeScan units.length setup.components) (codes.flatMap BitCode.bits)
    ⟨units, predictions setup state⟩

theorem Scanned.next (hsetup : setup.Prepared quantLuminance quantChrominance)
    {units : List (List (List (List Int)))} {codes : List BitCode} {state : ScanState}
    (h : Scanned setup quantLuminance quantChrominance units codes state)
    (mcuY : Nat) {mcuX : Nat} (hx : mcuX < setup.picture.width) :
    ∃ more state', Writes (setup.encodeMCU mcuY state mcuX) more state' ∧
      Scanned setup quantLuminance quantChrominance (units ++ [setup.unitLevels mcuX mcuY])
        (codes ++ more) state' := by
  obtain ⟨more, state', hwrites, hfits, hcoherent, hreads⟩ :=
    encodeMCU_yields hsetup mcuY hx h.coherent
  refine ⟨more, state', hwrites, ?_, hcoherent, ?_⟩
  · intro c hc
    rcases List.mem_append.mp hc with hc | hc
    · exact h.fits c hc
    · exact hfits c hc
  · have hunit := hreads.bind (f := fun read : _ × _ =>
      (pure ⟨units ++ [read.1], read.2⟩ : Parser Bool Malformed ScanProgress))
      (Parser.Yields.pure _)
    rw [List.append_nil] at hunit
    rw [List.length_append, List.length_singleton, List.flatMap_append]
    exact foldlM_range_succ h.reads hunit

theorem lt_of_mem_stepsTo {limit step v : Nat} (hstep : 0 < step) (h : v ∈ stepsTo limit step) :
    v < limit := by
  obtain ⟨k, hk, rfl⟩ := List.mem_map.mp h
  have hle := (Nat.le_div_iff_mul_le hstep).mp (Nat.succ_le_of_lt (List.mem_range.mp hk))
  rw [Nat.succ_mul] at hle
  change k * step < limit
  omega

/-- A line of units. -/
theorem Scanned.line (hsetup : setup.Prepared quantLuminance quantChrominance)
    {units : List (List (List (List Int)))} {codes : List BitCode} {state : ScanState}
    (h : Scanned setup quantLuminance quantChrominance units codes state) (mcuY : Nat) :
    ∃ more state', Writes ((stepsTo setup.picture.width setup.mcuSize).foldlM
        (setup.encodeMCU mcuY) state) more state' ∧
      Scanned setup quantLuminance quantChrominance
        (units ++ (stepsTo setup.picture.width setup.mcuSize).map fun mcuX =>
          setup.unitLevels mcuX mcuY) (codes ++ more) state' := by
  have hsize : 0 < setup.mcuSize := by
    unfold ScanSetup.mcuSize
    split <;> decide
  apply Writes.foldlM (P := fun done more state =>
    Scanned setup quantLuminance quantChrominance
      (units ++ done.map fun mcuX => setup.unitLevels mcuX mcuY) (codes ++ more) state)
  · intro done mcuX rest hsplit more state hscanned
    have hmem : mcuX ∈ stepsTo setup.picture.width setup.mcuSize := by
      rw [← hsplit]
      exact List.mem_append_right _ List.mem_cons_self
    obtain ⟨last, state', hwrites, hnext⟩ :=
      hscanned.next hsetup mcuY (lt_of_mem_stepsTo hsize hmem)
    refine ⟨last, state', hwrites, ?_⟩
    rw [List.map_append, List.map_singleton, ← List.append_assoc, ← List.append_assoc]
    exact hnext
  · rw [List.map_nil, List.append_nil, List.append_nil]
    exact h

/-- Whatever the picture, the scan is encoded without a fault, and decodes to the integers of
all units. -/
theorem encodeScan_decodes (hsetup : setup.Prepared quantLuminance quantChrominance)
    (planes : Planes) :
    ∃ codes state', Writes (setup.encodeScan { planes }) codes state' ∧ (∀ c ∈ codes, c.Fits) ∧
      Parser.Yields (decodeScan setup.scanLevels.length setup.components)
        (codes.flatMap BitCode.bits) ⟨setup.scanLevels, predictions setup state'⟩ := by
  have hstart : Scanned setup quantLuminance quantChrominance [] [] { planes } := by
    refine ⟨fun _ hc => absurd hc List.not_mem_nil, ⟨?_, ?_, ?_⟩, ?_⟩
    · exact predicted_zero (by norm_num) le_rfl (hsetup.stepsLuminance 0)
    · exact predicted_zero le_rfl (by norm_num) (hsetup.stepsChrominance 0)
    · exact predicted_zero le_rfl (by norm_num) (hsetup.stepsChrominance 0)
    · have hcomponents : setup.components.map (·, (0 : Int)) = predictions setup { planes } := by
        rw [ScanSetup.components, predictions]
        cases setup.picture.isRGB <;> rfl
      rw [decodeScan, hcomponents]
      exact Parser.Yields.pure _
  obtain ⟨codes, state', hwrites, hscanned⟩ := Writes.foldlM
    (l := stepsTo setup.picture.height setup.mcuSize) (f := fun state mcuY =>
      (stepsTo setup.picture.width setup.mcuSize).foldlM (setup.encodeMCU mcuY) state)
    (P := fun done codes state => Scanned setup quantLuminance quantChrominance
      (done.flatMap fun mcuY => (stepsTo setup.picture.width setup.mcuSize).map fun mcuX =>
        setup.unitLevels mcuX mcuY) codes state) (by
    intro done mcuY rest _ codes state hscanned
    obtain ⟨more, state', hwrites, hnext⟩ := hscanned.line hsetup mcuY
    refine ⟨more, state', hwrites, ?_⟩
    rw [List.flatMap_append, List.flatMap_singleton]
    exact hnext) hstart
  exact ⟨codes, state', hwrites, hscanned.fits, hscanned.reads⟩

end Units

end RaspiOrbSlam.TooJpeg
