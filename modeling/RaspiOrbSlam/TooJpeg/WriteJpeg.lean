import RaspiOrbSlam.TooJpeg.Sampling
import RaspiOrbSlam.TooJpeg.Transform

/-! # Writing a file

The headers, the quantization tables for a quality, and the scan over the
minimum coded units of a picture. -/

namespace RaspiOrbSlam.TooJpeg

open Foundation

/-- Quantization tables from the standard, Annex K, in rows. -/
def defaultQuantLuminance (i : Fin 64) : Nat :=
  Vector.get
    #v[16, 11, 10, 16, 24, 40, 51, 61, 12, 12, 14, 19, 26, 58, 60, 55, 14, 13, 16, 24, 40, 57, 69,
      56, 14, 17, 22, 29, 51, 87, 80, 62, 18, 22, 37, 56, 68, 109, 103, 77, 24, 35, 55, 64, 81,
      104, 113, 92, 49, 64, 78, 87, 103, 121, 120, 101, 72, 92, 95, 98, 112, 100, 103, 99] i

def defaultQuantChrominance (i : Fin 64) : Nat :=
  Vector.get
    #v[17, 18, 24, 47, 99, 99, 99, 99, 18, 21, 26, 66, 99, 99, 99, 99, 24, 26, 56, 99, 99, 99, 99,
      99, 47, 66, 99, 99, 99, 99, 99, 99, 99, 99, 99, 99, 99, 99, 99, 99, 99, 99, 99, 99, 99, 99,
      99, 99, 99, 99, 99, 99, 99, 99, 99, 99, 99, 99, 99, 99, 99, 99, 99, 99] i

/-- What the caller passes, `none` for a null pointer; `output` tells whether there is a
callback. The comment is the memory at its pointer. -/
structure Arguments where
  output : Bool
  pixels : Option (List UInt8)
  width : UInt16
  height : UInt16
  invertRB : Bool
  isRGB : Bool
  quality : UInt8
  downsample : Bool
  comment : Option (List UInt8)

/-- Restrict a value to the interval. -/
def clamp (value minValue maxValue : Nat) : Nat :=
  if value ≤ minValue then minValue
  else if maxValue ≤ value then maxValue
  else value

/-- The quality level as an internal factor in percent, formula taken from libjpeg. -/
def qualityFactor (quality : UInt8) : Nat :=
  let quality := clamp quality.toNat 1 100
  if quality < 50 then 5000 / quality else 200 - quality * 2

/-- A quantization table in zigzag order, adjusted to the quality. -/
def quantTable (table : Fin 64 → Nat) (quality : UInt8) (i : Fin 64) : UInt8 :=
  UInt8.ofNat (clamp ((table (zigZagInv i) * qualityFactor quality + 50) / 100) 1 255)

/-- `bitWriter << manyBytes`. -/
def writeBytes (manyBytes : List UInt8) : Writing Unit := modify fun w => w.bytes manyBytes

def addMarker (id : UInt8) (length : Nat) : Writing Unit :=
  modify fun w => w.addMarker id (UInt16.ofNat length)

/-- The loop that looks for the zero terminator. -/
def commentLength : (comment : List UInt8) → Except Fault Nat
  | [] => .error .outOfBounds
  | c :: rest => if c = 0 then .ok 0 else do return (← commentLength rest) + 1

def headerJfif : List UInt8 :=
  [0xFF, 0xD8, 0xFF, 0xE0, 0, 16, 0x4A, 0x46, 0x49, 0x46, 0, 1, 1, 0, 0, 1, 0, 1, 0, 0]

def writeComment : (comment : Option (List UInt8)) → Writing Unit
  | none => pure ()
  | some comment => do
      let length ← commentLength comment
      addMarker 0xFE (2 + length)
      writeBytes (comment.take length)

def writeQuantization (isRGB : Bool) (quantLuminance quantChrominance : Fin 64 → UInt8) :
    Writing Unit := do
  addMarker 0xDB (2 + (if isRGB then 2 else 1) * (1 + 8 * 8))
  writeBytes (0x00 :: List.ofFn quantLuminance)
  if isRGB then writeBytes (0x01 :: List.ofFn quantChrominance)

/-- The image infos: dimensions, sampling and quantization tables of each component. -/
def writeFrame (width height : UInt16) (numComponents : Nat) (downsample : Bool) :
    Writing Unit := do
  addMarker 0xC0 (2 + 6 + 3 * numComponents)
  writeBytes [0x08, (height >>> 8).toUInt8, (height &&& 0xFF).toUInt8, (width >>> 8).toUInt8,
    (width &&& 0xFF).toUInt8]
  writeBytes [UInt8.ofNat numComponents]
  (List.range' 1 numComponents).forM fun id =>
    writeBytes [UInt8.ofNat id, if id = 1 ∧ downsample then 0x22 else 0x11,
      if id = 1 then 0 else 1]

/-- The four tables of codes, of which those for the chrominance are only used for colours. -/
structure HuffmanTables where
  luminanceDC : HuffmanTable
  luminanceAC : HuffmanTable
  chrominanceDC : HuffmanTable
  chrominanceAC : HuffmanTable

def writeHuffman (isRGB : Bool) : Writing HuffmanTables := do
  addMarker 0xC4 (if isRGB then 2 + 208 + 208 else 2 + 208)
  writeBytes (0x00 :: (dcLuminanceCodesPerBitsize ++ dcLuminanceValues))
  writeBytes (0x10 :: (acLuminanceCodesPerBitsize ++ acLuminanceValues))
  let luminanceDC ← generateHuffmanTable dcLuminanceCodesPerBitsize dcLuminanceValues
  let luminanceAC ← generateHuffmanTable acLuminanceCodesPerBitsize acLuminanceValues
  if isRGB then do
    writeBytes (0x01 :: (dcChrominanceCodesPerBitsize ++ dcChrominanceValues))
    writeBytes (0x11 :: (acChrominanceCodesPerBitsize ++ acChrominanceValues))
    let chrominanceDC ← generateHuffmanTable dcChrominanceCodesPerBitsize dcChrominanceValues
    let chrominanceAC ← generateHuffmanTable acChrominanceCodesPerBitsize acChrominanceValues
    return ⟨luminanceDC, luminanceAC, chrominanceDC, chrominanceAC⟩
  else return ⟨luminanceDC, luminanceAC, fun _ => none, fun _ => none⟩

def writeScanHeader (numComponents : Nat) : Writing Unit := do
  addMarker 0xDA (2 + 1 + 2 * numComponents + 3)
  writeBytes [UInt8.ofNat numComponents]
  (List.range' 1 numComponents).forM fun id =>
    writeBytes [UInt8.ofNat id, if id = 1 then 0x00 else 0x11]
  writeBytes [0, 63, 0]

/-- The values of `for (v = 0; v < limit; v += step)`. -/
def stepsTo (limit step : Nat) : List Nat :=
  (List.range ((limit + step - 1) / step)).map (· * step)

/-- The variables of the loops over the units: the blocks, and the average colors of the
previous unit. -/
structure ScanState where
  planes : Planes
  lastYDC : Int16 := 0
  lastCbDC : Int16 := 0
  lastCrDC : Int16 := 0

/-- What the loops over the units do not change. -/
structure ScanSetup where
  picture : Picture
  downsample : Bool
  scaledLuminance : Nat → Float32
  scaledChrominance : Nat → Float32
  tables : HuffmanTables
  codewords : Codewords

namespace ScanSetup

variable (setup : ScanSetup)

def mcuSize : Nat := 8 * if setup.downsample then 2 else 1

/-- A block of the luminance. -/
def encodeY (mcuX mcuY blockY : Nat) (state : ScanState) (blockX : Nat) : Writing ScanState := do
  let planes ← sampleBlock setup.picture setup.downsample (mcuX + blockX) (mcuY + blockY)
    state.planes
  let lastYDC ← encodeBlock planes.Y setup.scaledLuminance state.lastYDC setup.tables.luminanceDC
    setup.tables.luminanceAC setup.codewords
  return { state with planes, lastYDC }

/-- The second pass, which only YCbCr420 needs. -/
def averageChrominance (mcuX mcuY : Nat) (planes : Planes) : Writing Planes :=
  if setup.downsample then downsampleChrominance setup.picture mcuX mcuY planes
  else pure planes

/-- The blocks of the chrominance. -/
def encodeChrominance (mcuX mcuY : Nat) (state : ScanState) : Writing ScanState := do
  let planes ← setup.averageChrominance mcuX mcuY state.planes
  let lastCbDC ← encodeBlock planes.Cb setup.scaledChrominance state.lastCbDC
    setup.tables.chrominanceDC setup.tables.chrominanceAC setup.codewords
  let lastCrDC ← encodeBlock planes.Cr setup.scaledChrominance state.lastCrDC
    setup.tables.chrominanceDC setup.tables.chrominanceAC setup.codewords
  return { state with planes, lastCbDC, lastCrDC }

/-- A minimum coded unit: one block of the luminance or four, and two of the chrominance. -/
def encodeMCU (mcuY : Nat) (state : ScanState) (mcuX : Nat) : Writing ScanState := do
  let state ← (stepsTo setup.mcuSize 8).foldlM (fun state blockY =>
    (stepsTo setup.mcuSize 8).foldlM (setup.encodeY mcuX mcuY blockY) state) state
  if !setup.picture.isRGB then return state
  else setup.encodeChrominance mcuX mcuY state

/-- All units, line by line. -/
def encodeScan (state : ScanState) : Writing ScanState :=
  (stepsTo setup.picture.height setup.mcuSize).foldlM (fun state mcuY =>
    (stepsTo setup.picture.width setup.mcuSize).foldlM (setup.encodeMCU mcuY) state) state

end ScanSetup

/-- `writeJpeg` behind its checks of the arguments. The blocks start with any contents. -/
def writeFile (a : Arguments) (pixels : List UInt8) (planes : Planes) : Writing Unit := do
  let numComponents := if a.isRGB then 3 else 1
  let downsample := a.isRGB && a.downsample
  let quantLuminance := quantTable defaultQuantLuminance a.quality
  let quantChrominance := quantTable defaultQuantChrominance a.quality
  writeBytes headerJfif
  writeComment a.comment
  writeQuantization a.isRGB quantLuminance quantChrominance
  writeFrame a.width a.height numComponents downsample
  let tables ← writeHuffman a.isRGB
  writeScanHeader numComponents
  let setup : ScanSetup :=
    { picture := ⟨pixels, a.width.toNat, a.height.toNat, a.invertRB, a.isRGB⟩
      downsample
      scaledLuminance := scaledTable quantLuminance
      scaledChrominance := scaledTable quantChrominance
      tables
      codewords := precomputedCodewords }
  let _ ← setup.encodeScan { planes }
  modify BitWriter.flush
  writeBytes [0xFF, 0xD9]

/-- The only exported function: its result, and what the callback has received. -/
def writeJpeg (a : Arguments) (planes : Planes) : Except Fault (Bool × List UInt8) :=
  match a.pixels with
  | none => .ok (false, [])
  | some pixels =>
      if !a.output || a.width == 0 || a.height == 0 then .ok (false, [])
      else do
        let ((), writer) ← (writeFile a pixels planes).run { output := [] }
        return (true, writer.output)

end RaspiOrbSlam.TooJpeg
