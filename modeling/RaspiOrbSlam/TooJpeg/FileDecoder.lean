import RaspiOrbSlam.TooJpeg.ScanDecoder

/-! # Decoding a file

The segments of a file with one sequential scan, and the bytes of the scan behind
them. The tables are those that the segments define, not those of the encoder. -/

namespace RaspiOrbSlam.TooJpeg

open Foundation

/-- A component of the frame. -/
structure FrameComponent where
  id : Nat
  horizontal : Nat
  vertical : Nat
  quant : Nat

structure Frame where
  height : Nat
  width : Nat
  components : List FrameComponent

/-- What the segments in front of the scan define, the latest table of a number first. -/
structure Header where
  comments : List (List UInt8) := []
  quant : List (Nat × List UInt8) := []
  codes : List (Nat × CodeLists) := []
  frame : Option Frame := none

/-- Quantization tables of 8 bit steps in zigzag order. -/
def quantTables : (payload : List UInt8) → Option (List (Nat × List UInt8))
  | [] => some []
  | id :: rest =>
      if id.toNat < 16 ∧ 64 ≤ rest.length then
        (quantTables (rest.drop 64)).map ((id.toNat, rest.take 64) :: ·)
      else none
termination_by payload => payload.length
decreasing_by
  simp only [List.length_drop, List.length_cons]
  omega

/-- Definitions of codes, those of the other coefficients numbered from 16 on. -/
def codeTables : (payload : List UInt8) → Option (List (Nat × CodeLists))
  | [] => some []
  | id :: rest =>
      let numCodes := rest.take 16
      let total := (numCodes.map UInt8.toNat).sum
      if 16 + total ≤ rest.length then
        (codeTables (rest.drop (16 + total))).map
          ((id.toNat, ⟨numCodes, (rest.drop 16).take total⟩) :: ·)
      else none
termination_by payload => payload.length
decreasing_by
  simp only [List.length_drop, List.length_cons]
  omega

def frameComponents : (payload : List UInt8) → Option (List FrameComponent)
  | [] => some []
  | id :: sampling :: quant :: rest =>
      (frameComponents rest).map
        (⟨id.toNat, sampling.toNat / 16, sampling.toNat % 16, quant.toNat⟩ :: ·)
  | _ => none

def frameHeader : (payload : List UInt8) → Option Frame
  | precision :: h₁ :: h₀ :: w₁ :: w₀ :: count :: rest => do
      let components ← frameComponents rest
      if precision = 8 ∧ components.length = count.toNat then
        some ⟨h₁.toNat * 256 + h₀.toNat, w₁.toNat * 256 + w₀.toNat, components⟩
      else none
  | _ => none

/-- The component and the tables of codes for it, two bytes each. -/
def selectors : (payload : List UInt8) → List (Nat × Nat)
  | id :: tables :: rest => (id.toNat, tables.toNat) :: selectors rest
  | _ => []

def scanHeader : (payload : List UInt8) → Option (List (Nat × Nat))
  | [] => none
  | count :: rest =>
      if rest.drop (2 * count.toNat) = [0, 63, 0] then
        some (selectors (rest.take (2 * count.toNat)))
      else none

/-- The effect of a segment; those of an application are skipped. -/
def Header.apply (h : Header) (id : UInt8) (payload : List UInt8) : Option Header :=
  if id.toNat / 16 = 14 then some h
  else if id = 0xFE then some { h with comments := h.comments ++ [payload] }
  else if id = 0xDB then (quantTables payload).map fun t => { h with quant := t ++ h.quant }
  else if id = 0xC4 then (codeTables payload).map fun t => { h with codes := t ++ h.codes }
  else if id = 0xC0 then (frameHeader payload).map fun f => { h with frame := some f }
  else none

/-- The bytes up to the next marker without the zeros that were stuffed, and the marker with
what follows. -/
def unstuff : List UInt8 → Option (List UInt8 × List UInt8)
  | b :: next :: rest =>
      if b = 0xFF then
        if next = 0 then (unstuff rest).map fun read => (b :: read.1, read.2)
        else some ([], b :: next :: rest)
      else (unstuff (next :: rest)).map fun read => (b :: read.1, read.2)
  | _ => none

/-- The components of the scan, when the frame and the tables for them are defined. -/
def Header.scanComponents (h : Header) (frame : Frame) (scan : List (Nat × Nat)) :
    Option (List ScanComponent) :=
  frame.components.mapM fun c => do
    let tables ← scan.lookup c.id
    let dc ← h.codes.lookup (tables / 16)
    let ac ← h.codes.lookup (16 + tables % 16)
    return ⟨c.horizontal * c.vertical, dc, ac⟩

/-- The number of units that cover the frame. -/
def Frame.unitCount (frame : Frame) : Nat :=
  let across := 8 * (frame.components.map FrameComponent.horizontal).foldl max 1
  let down := 8 * (frame.components.map FrameComponent.vertical).foldl max 1
  (frame.height + down - 1) / down * ((frame.width + across - 1) / across)

/-- A decoded file: the quantization table of every component, and the units of the scan. -/
structure DecodedFile where
  width : Nat
  height : Nat
  comments : List (List UInt8)
  quant : List (List UInt8)
  units : List (List (List (List Int)))

/-- The scan up to the end of the file. Fewer than eight bits may be left, all of them set. -/
def Header.decodeData (h : Header) (scan : List (Nat × Nat)) (data : List UInt8) :
    Option DecodedFile := do
  let frame ← h.frame
  let components ← h.scanComponents frame scan
  let quant ← frame.components.mapM fun c => h.quant.lookup c.quant
  let (full, ending) ← unstuff data
  match decodeScan frame.unitCount components (bitsOfBytes full) with
  | .ok (progress, padding) =>
      if ending = [0xFF, 0xD9] ∧ padding.length < 8 ∧ padding.all id then
        some ⟨frame.width, frame.height, h.comments, quant, progress.units⟩
      else none
  | .error _ => none

/-- Segments up to the scan; each of them takes four bytes at least. -/
def decodeSegments : (fuel : Nat) → Header → List UInt8 → Option DecodedFile
  | fuel + 1, h, marker :: id :: high :: low :: rest =>
      let length := high.toNat * 256 + low.toNat
      if marker = 0xFF ∧ 2 ≤ length ∧ length - 2 ≤ rest.length then
        let payload := rest.take (length - 2)
        let rest := rest.drop (length - 2)
        if id = 0xDA then do
          let scan ← scanHeader payload
          h.decodeData scan rest
        else do
          let h ← h.apply id payload
          decodeSegments fuel h rest
      else none
  | _, _, _ => none

def decodeFile : List UInt8 → Option DecodedFile
  | first :: second :: rest =>
      if first = 0xFF ∧ second = 0xD8 then decodeSegments rest.length {} rest else none
  | _ => none

end RaspiOrbSlam.TooJpeg
