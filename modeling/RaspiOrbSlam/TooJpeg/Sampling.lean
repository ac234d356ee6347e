import RaspiOrbSlam.TooJpeg.EntropyCoder

/-! # The samples of a block

How the pixels become luminance and chrominance. The loops walk through the
buffer of pixels and stop at its borders; the samples are those of the picture
whose last row and column are repeated. -/

namespace RaspiOrbSlam.TooJpeg

open Foundation

/-- The pixels that the caller passes, from the upper left to the lower right. -/
structure Picture where
  pixels : List UInt8
  width : Nat
  height : Nat
  invertRB : Bool
  isRGB : Bool

namespace Picture

variable (p : Picture)

def maxWidth : Nat := p.width - 1
def maxHeight : Nat := p.height - 1

end Picture

/-- The blocks that are filled from the pixels, `Y[8][8]` and so on as flat arrays. -/
structure Planes where
  Y : Nat → Float32
  Cb : Nat → Float32
  Cr : Nat → Float32

/-- A value that is computed in an `int`. -/
def int (value : Nat) : Writing Nat :=
  if value < 2 ^ 31 then pure value else throw .overflow

/-- `pixels[index]`. -/
def Picture.read (p : Picture) (index : Nat) : Writing UInt8 := do
  let index ← int index
  match p.pixels[index]? with
  | some pixel => pure pixel
  | none => throw .outOfBounds

/-- The conversion of an `int`. -/
def toFloat (n : Nat) : Float32 := .ofModel (.ofInt n)

def rgb2y (r g b : Float32) : Float32 := 0.299 * r + 0.587 * g + 0.114 * b
def rgb2cb (r g b : Float32) : Float32 := -0.16874 * r - 0.33126 * g + 0.5 * b
def rgb2cr (r g b : Float32) : Float32 := 0.5 * r - 0.41869 * g - 0.08131 * b

/-- The components of a pixel. -/
def Picture.readRGB (p : Picture) (pixelPos : Nat) : Writing (UInt8 × UInt8 × UInt8) := do
  let g ← p.read (3 * pixelPos + 1)
  if p.invertRB then
    let b ← p.read (3 * pixelPos)
    let r ← p.read (3 * pixelPos + 2)
    return (r, g, b)
  else
    let r ← p.read (3 * pixelPos)
    let b ← p.read (3 * pixelPos + 2)
    return (r, g, b)

/-- The samples of one pixel. -/
def samplePixel (p : Picture) (downsample : Bool) (planes : Planes) (place pixelPos : Nat) :
    Writing Planes :=
  if !p.isRGB then do
    let pixel ← p.read pixelPos
    return { planes with Y := Function.update planes.Y place (pixel.toFloat32 - 128) }
  else do
    let (r, g, b) ← p.readRGB pixelPos
    let planes := { planes with
      Y := Function.update planes.Y place
        (rgb2y r.toFloat32 g.toFloat32 b.toFloat32 - 128) }
    if !downsample then
      return { planes with
        Cb := Function.update planes.Cb place (rgb2cb r.toFloat32 g.toFloat32 b.toFloat32)
        Cr := Function.update planes.Cr place (rgb2cr r.toFloat32 g.toFloat32 b.toFloat32) }
    else return planes

/-- The body of the loop over `deltaX`; the column stops at the right border. -/
def sampleColumn (p : Picture) (downsample : Bool) (row deltaY : Nat) (state : Planes × Nat)
    (deltaX : Nat) : Writing (Planes × Nat) := do
  let (planes, column) := state
  let pixelPos ← int (row * p.width + column)
  let planes ← samplePixel p downsample planes (deltaY * 8 + deltaX) pixelPos
  return (planes, if column < p.maxWidth then column + 1 else column)

/-- The body of the loop over `deltaY`. -/
def sampleRow (p : Picture) (downsample : Bool) (x y : Nat) (planes : Planes) (deltaY : Nat) :
    Writing Planes := do
  let column := min x p.maxWidth
  let row := min (y + deltaY) p.maxHeight
  let (planes, _) ← (List.range 8).foldlM (sampleColumn p downsample row deltaY) (planes, column)
  return planes

/-- The first pass over a block at column `x` and row `y`. -/
def sampleBlock (p : Picture) (downsample : Bool) (x y : Nat) (planes : Planes) :
    Writing Planes :=
  (List.range 8).foldlM (sampleRow p downsample x y) planes

/-- The sum of a component over four pixels. -/
def Picture.readSum (p : Picture) (component pixelPos right down downRight : Nat) :
    Writing Nat := do
  let a ← p.read (pixelPos + component)
  let b ← p.read (right + component)
  let c ← p.read (down + component)
  let d ← p.read (downRight + component)
  return a.toNat + b.toNat + c.toNat + d.toNat

/-- The variables of the loop over `deltaX` in the second pass. -/
structure AreaCursor where
  pixelPos : Nat
  column : Nat
  columnStep : Nat

/-- Step forward to the next area, at most to the last pixel of the row. -/
def nextArea (p : Picture) (row : Nat) (cursor : AreaCursor) : Writing AreaCursor := do
  let pixelPos ← int (cursor.pixelPos + 2 * 3)
  let column := cursor.column + 2
  if p.maxWidth ≤ column then do
    let pixelPos ← int (((row + 1) * p.width - 1) * 3)
    return ⟨pixelPos, column, 0⟩
  else return ⟨pixelPos, column, cursor.columnStep⟩

/-- The average chrominance of an area of four pixels. -/
def sampleArea (p : Picture) (row rowStep deltaY : Nat) (state : Planes × AreaCursor)
    (deltaX : Nat) : Writing (Planes × AreaCursor) := do
  let (planes, cursor) := state
  let right ← int (cursor.pixelPos + cursor.columnStep)
  let down ← int (cursor.pixelPos + rowStep)
  let downRight ← int (cursor.pixelPos + cursor.columnStep + rowStep)
  let r ← p.readSum 0 cursor.pixelPos right down downRight
  let g ← p.readSum 1 cursor.pixelPos right down downRight
  let b ← p.readSum 2 cursor.pixelPos right down downRight
  let place := deltaY * 8 + deltaX
  let planes := { planes with
    Cb := Function.update planes.Cb place (rgb2cb (toFloat r) (toFloat g) (toFloat b) / 4)
    Cr := Function.update planes.Cr place (rgb2cr (toFloat r) (toFloat g) (toFloat b) / 4) }
  let cursor ← nextArea p row cursor
  return (planes, cursor)

/-- The distance in bytes to the next row, which must not exceed the border. -/
def rowStep (p : Picture) (row : Nat) : Nat := if row < p.maxHeight then 3 * p.width else 0

/-- A row of areas. -/
def sampleAreas (p : Picture) (mcuX mcuY : Nat) (planes : Planes) (deltaY : Nat) :
    Writing Planes := do
  let row := min (mcuY + 2 * deltaY) p.maxHeight
  let column := mcuX
  let pixelPos ← int ((row * p.width + column) * 3)
  let columnStep := if column < p.maxWidth then 3 else 0
  let (planes, _) ← (List.range 8).foldlM (sampleArea p row (rowStep p row) deltaY)
    (planes, ⟨pixelPos, column, columnStep⟩)
  return planes

/-- The second pass over the pixels of a 16x16 block, from its bottom to its top. -/
def downsampleChrominance (p : Picture) (mcuX mcuY : Nat) (planes : Planes) : Writing Planes :=
  (List.range 8).reverse.foldlM (sampleAreas p mcuX mcuY) planes

/-- The buffer holds all pixels, and the positions in it are of the type `int`. -/
structure Picture.Readable (p : Picture) : Prop where
  width : 0 < p.width
  height : 0 < p.height
  buffer : (if p.isRGB then 3 else 1) * (p.width * p.height) ≤ p.pixels.length
  small : 3 * (p.width * p.height) + 3 < 2 ^ 31

namespace Picture

variable (p : Picture)

def byte (index : Nat) : UInt8 := p.pixels.getD index 0

/-- The position of the pixel at column `x` and row `y`, or of the closest one in the picture. -/
def position (x y : Nat) : Nat := min y p.maxHeight * p.width + min x p.maxWidth

/-- Red, green and blue at column `x` and row `y`. -/
def rgb (x y : Nat) : UInt8 × UInt8 × UInt8 :=
  let first := p.byte (3 * p.position x y)
  let third := p.byte (3 * p.position x y + 2)
  let g := p.byte (3 * p.position x y + 1)
  if p.invertRB then (third, g, first) else (first, g, third)

/-- The luminance, shifted by 128. -/
def luminance (x y : Nat) : Float32 :=
  if p.isRGB then
    let (r, g, b) := p.rgb x y
    rgb2y r.toFloat32 g.toFloat32 b.toFloat32 - 128
  else (p.byte (p.position x y)).toFloat32 - 128

/-- Blue or red minus luminance, for the conversion `convert`. -/
def chrominance (convert : Float32 → Float32 → Float32 → Float32) (x y : Nat) : Float32 :=
  let (r, g, b) := p.rgb x y
  convert r.toFloat32 g.toFloat32 b.toFloat32

/-- The sum of a component over the area of four pixels at column `x` and row `y`. -/
def area (component x y : Nat) : Nat :=
  (p.byte (3 * p.position x y + component)).toNat +
    (p.byte (3 * p.position (x + 1) y + component)).toNat +
    (p.byte (3 * p.position x (y + 1) + component)).toNat +
    (p.byte (3 * p.position (x + 1) (y + 1) + component)).toNat

/-- The average over an area. The second pass does not look at `invertRB`, unlike the first one: it
takes the first byte of a pixel for its red. -/
def areaChrominance (convert : Float32 → Float32 → Float32 → Float32) (x y : Nat) : Float32 :=
  convert (toFloat (p.area 0 x y)) (toFloat (p.area 1 x y)) (toFloat (p.area 2 x y)) / 4

end Picture

/-- The samples that a block of the luminance stands for. -/
def luminanceBlock (p : Picture) (x y : Nat) : Nat → Float32 :=
  fun k => p.luminance (x + k % 8) (y + k / 8)

/-- The samples of the chrominance, averages over areas when it is downsampled. -/
def chrominanceBlock (p : Picture) (downsample : Bool)
    (convert : Float32 → Float32 → Float32 → Float32) (x y : Nat) : Nat → Float32 :=
  fun k =>
    if downsample then p.areaChrominance convert (x + 2 * (k % 8)) (y + 2 * (k / 8))
    else p.chrominance convert (x + k % 8) (y + k / 8)

section Reading

variable {p : Picture}

theorem int_writes {v : Nat} (h : v < 2 ^ 31) : Writes (int v) [] v := by
  rw [int, if_pos h]
  exact Writes.pure v

theorem Picture.position_lt (hp : p.Readable) (x y : Nat) :
    p.position x y < p.width * p.height := by
  have hwidth := hp.width
  have hheight := hp.height
  have hrow : min y p.maxHeight + 1 ≤ p.height := by
    unfold maxHeight
    omega
  have hcolumn : min x p.maxWidth < p.width := by
    unfold maxWidth
    omega
  calc
    p.position x y < (min y p.maxHeight + 1) * p.width := by
      rw [position, Nat.succ_mul]
      omega
    _ ≤ p.height * p.width := Nat.mul_le_mul_right _ hrow
    _ = p.width * p.height := Nat.mul_comm _ _

theorem Picture.read_writes (hp : p.Readable) {index : Nat}
    (h : index < (if p.isRGB then 3 else 1) * (p.width * p.height)) :
    Writes (p.read index) [] (p.byte index) := by
  have hsmall := hp.small
  have hlength := h.trans_le hp.buffer
  have hint : index < 2 ^ 31 := by
    split at h <;> omega
  apply (int_writes hint).bind
  have helement : p.pixels[index]? = some (p.byte index) := by
    rw [List.getElem?_eq_getElem hlength, byte, List.getD_eq_getElem _ _ hlength]
  rw [helement]
  exact Writes.pure _

theorem Picture.readRGB_writes (hp : p.Readable) (hrgb : p.isRGB = true) (x y : Nat) :
    Writes (p.readRGB (p.position x y)) [] (p.rgb x y) := by
  have hposition := position_lt hp x y
  have hread : ∀ component < 3, Writes (p.read (3 * p.position x y + component)) []
      (p.byte (3 * p.position x y + component)) := by
    intro component hcomponent
    apply read_writes hp
    rw [hrgb, if_pos rfl]
    omega
  rw [readRGB, rgb]
  apply (hread 1 (by decide)).bind
  cases p.invertRB
  · exact (hread 0 (by decide)).bind ((hread 2 (by decide)).bind (Writes.pure _))
  · exact (hread 0 (by decide)).bind ((hread 2 (by decide)).bind (Writes.pure _))

/-- What the first pass stores for a pixel. -/
def storePixel (p : Picture) (downsample : Bool) (planes : Planes) (place x y : Nat) : Planes :=
  let luminance := Function.update planes.Y place (p.luminance x y)
  if p.isRGB && !downsample then
    { Y := luminance
      Cb := Function.update planes.Cb place (p.chrominance rgb2cb x y)
      Cr := Function.update planes.Cr place (p.chrominance rgb2cr x y) }
  else { planes with Y := luminance }

theorem samplePixel_writes (hp : p.Readable) (downsample : Bool) (planes : Planes)
    (place x y : Nat) :
    Writes (samplePixel p downsample planes place (p.position x y)) []
      (storePixel p downsample planes place x y) := by
  rw [samplePixel, storePixel, Picture.luminance]
  cases hrgb : p.isRGB with
  | false =>
      have hread : Writes (p.read (p.position x y)) [] (p.byte (p.position x y)) := by
        apply Picture.read_writes hp
        rw [hrgb, if_neg Bool.false_ne_true, Nat.one_mul]
        exact Picture.position_lt hp x y
      exact hread.bind (Writes.pure _)
  | true =>
      apply (Picture.readRGB_writes hp hrgb x y).bind
      cases downsample
      · exact Writes.pure _
      · exact Writes.pure _

/-- The first `n` samples of a block at column `x` and row `y` are stored. -/
structure Sampled (p : Picture) (downsample : Bool) (x y n : Nat) (planes : Planes) : Prop where
  luminance : ∀ k < n, planes.Y k = p.luminance (x + k % 8) (y + k / 8)
  chrominance : p.isRGB = true → downsample = false → ∀ k < n,
    planes.Cb k = p.chrominance rgb2cb (x + k % 8) (y + k / 8) ∧
      planes.Cr k = p.chrominance rgb2cr (x + k % 8) (y + k / 8)

theorem Sampled.store {downsample : Bool} {x y n : Nat} {planes : Planes}
    (h : Sampled p downsample x y n planes) :
    Sampled p downsample x y (n + 1)
      (storePixel p downsample planes n (x + n % 8) (y + n / 8)) where
  luminance k hk := by
    have hY : (storePixel p downsample planes n (x + n % 8) (y + n / 8)).Y =
        Function.update planes.Y n (p.luminance (x + n % 8) (y + n / 8)) := by
      rw [storePixel]
      split <;> rfl
    rw [hY]
    rcases Nat.lt_succ_iff_lt_or_eq.mp hk with hlt | rfl
    · rw [Function.update_of_ne hlt.ne]
      exact h.luminance k hlt
    · exact Function.update_self _ _ _
  chrominance hrgb hdownsample k hk := by
    rw [storePixel, hrgb, hdownsample]
    rcases Nat.lt_succ_iff_lt_or_eq.mp hk with hlt | rfl
    · have hprevious := h.chrominance hrgb hdownsample k hlt
      simpa [Function.update_of_ne hlt.ne] using hprevious
    · simp

theorem sampleColumn_writes (hp : p.Readable) {downsample : Bool} {x y deltaY i : Nat} (hi : i < 8)
    {planes : Planes} (h : Sampled p downsample x y (deltaY * 8 + i) planes) :
    ∃ planes', Writes (sampleColumn p downsample (min (y + deltaY) p.maxHeight) deltaY
        (planes, min (x + i) p.maxWidth) i) [] (planes', min (x + (i + 1)) p.maxWidth) ∧
      Sampled p downsample x y (deltaY * 8 + (i + 1)) planes' := by
  have hposition := Picture.position_lt hp (x + i) (y + deltaY)
  have hsmall := hp.small
  have hcolumn : (if min (x + i) p.maxWidth < p.maxWidth then min (x + i) p.maxWidth + 1
      else min (x + i) p.maxWidth) = min (x + (i + 1)) p.maxWidth := by
    split <;> omega
  have hplace : (deltaY * 8 + i) % 8 = i ∧ (deltaY * 8 + i) / 8 = deltaY := by omega
  have hstored := h.store
  rw [hplace.1, hplace.2] at hstored
  refine ⟨_, ?_, hstored⟩
  rw [sampleColumn, ← hcolumn]
  apply (int_writes (hposition.trans (by omega))).bind
  exact (samplePixel_writes hp downsample planes _ (x + i) (y + deltaY)).bind (Writes.pure _)

/-- A row is read without leaving the buffer, whatever border it crosses. -/
theorem sampleRow_writes (hp : p.Readable) {downsample : Bool} {x y deltaY : Nat} {planes : Planes}
    (h : Sampled p downsample x y (deltaY * 8) planes) :
    ∃ planes', Writes (sampleRow p downsample x y planes deltaY) [] planes' ∧
      Sampled p downsample x y ((deltaY + 1) * 8) planes' := by
  obtain ⟨codes, ⟨planes', column⟩, hloop, rfl, -, hsampled⟩ := Writes.foldlM_range
    (f := sampleColumn p downsample (min (y + deltaY) p.maxHeight) deltaY)
    (P := fun i codes state => codes = [] ∧ state.2 = min (x + i) p.maxWidth ∧
      Sampled p downsample x y (deltaY * 8 + i) state.1) (n := 8) (by
    rintro i hi codes ⟨planes, column⟩ ⟨rfl, rfl, hsampled⟩
    obtain ⟨planes', hwrites, hnext⟩ := sampleColumn_writes hp hi hsampled
    exact ⟨[], _, hwrites, rfl, rfl, hnext⟩) (a := (planes, min x p.maxWidth)) ⟨rfl, rfl, h⟩
  refine ⟨planes', hloop.bindPure _, ?_⟩
  rw [Nat.succ_mul]
  exact hsampled

/-- The first pass stores all samples of a block. -/
theorem sampleBlock_writes (hp : p.Readable) (downsample : Bool) (x y : Nat) (planes : Planes) :
    ∃ planes', Writes (sampleBlock p downsample x y planes) [] planes' ∧
      Sampled p downsample x y 64 planes' := by
  have hstart : Sampled p downsample x y (0 * 8) planes :=
    ⟨fun k hk => absurd hk (by omega), fun _ _ k hk => absurd hk (by omega)⟩
  obtain ⟨codes, planes', hloop, rfl, hsampled⟩ := Writes.foldlM_range
    (f := sampleRow p downsample x y)
    (P := fun i codes planes => codes = [] ∧ Sampled p downsample x y (i * 8) planes) (n := 8) (by
    rintro i hi codes planes ⟨rfl, hsampled⟩
    obtain ⟨planes', hwrites, hnext⟩ := sampleRow_writes hp hsampled
    exact ⟨[], planes', hwrites, rfl, hnext⟩) ⟨rfl, hstart⟩
  exact ⟨planes', hloop, hsampled⟩

/-- The cursor of the second pass in front of the area at column `x` of a row. -/
def areaCursor (p : Picture) (row x : Nat) : AreaCursor where
  pixelPos := (row * p.width + min x p.maxWidth) * 3
  column := x
  columnStep := if x < p.maxWidth then 3 else 0

/-- What the second pass stores for an area. -/
def storeArea (p : Picture) (planes : Planes) (place x y : Nat) : Planes :=
  { planes with
    Cb := Function.update planes.Cb place (p.areaChrominance rgb2cb x y)
    Cr := Function.update planes.Cr place (p.areaChrominance rgb2cr x y) }

theorem readSum_writes (hp : p.Readable) (hrgb : p.isRGB = true) {component : Nat}
    (hcomponent : component < 3) (x y : Nat) :
    Writes (p.readSum component (3 * p.position x y) (3 * p.position (x + 1) y)
      (3 * p.position x (y + 1)) (3 * p.position (x + 1) (y + 1))) [] (p.area component x y) := by
  have hread : ∀ x y, Writes (p.read (3 * p.position x y + component)) []
      (p.byte (3 * p.position x y + component)) := by
    intro x y
    have hposition := Picture.position_lt hp x y
    apply Picture.read_writes hp
    rw [hrgb, if_pos rfl]
    omega
  apply (hread x y).bind
  apply (hread (x + 1) y).bind
  apply (hread x (y + 1)).bind
  exact (hread (x + 1) (y + 1)).bind (Writes.pure _)

theorem nextArea_writes (hp : p.Readable) (x y : Nat) :
    Writes (nextArea p (min y p.maxHeight) (areaCursor p (min y p.maxHeight) x)) []
      (areaCursor p (min y p.maxHeight) (x + 2)) := by
  have hwidth : p.maxWidth + 1 = p.width := Nat.succ_pred_eq_of_pos hp.width
  have hsmall := hp.small
  have hposition := Picture.position_lt hp x y
  have hend := Picture.position_lt hp (x + 2) y
  rw [Picture.position] at hposition hend
  have hrow : (min y p.maxHeight + 1) * p.width = min y p.maxHeight * p.width + p.width :=
    Nat.succ_mul _ _
  apply (int_writes (v := (min y p.maxHeight * p.width + min x p.maxWidth) * 3 + 2 * 3)
    (by omega)).bind
  by_cases hborder : p.maxWidth ≤ x + 2
  · have hlast : areaCursor p (min y p.maxHeight) (x + 2) =
        ⟨((min y p.maxHeight + 1) * p.width - 1) * 3, x + 2, 0⟩ := by
      rw [areaCursor, if_neg (by omega)]
      congr 1
      omega
    rw [hlast, if_pos (show p.maxWidth ≤ (areaCursor p _ x).column + 2 from hborder)]
    exact (int_writes (by omega)).bind (Writes.pure _)
  · have hnext : areaCursor p (min y p.maxHeight) (x + 2) =
        ⟨(min y p.maxHeight * p.width + min x p.maxWidth) * 3 + 2 * 3, x + 2,
          (areaCursor p (min y p.maxHeight) x).columnStep⟩ := by
      rw [areaCursor, areaCursor, if_pos (by omega), if_pos (by omega)]
      congr 1
      omega
    rw [hnext, if_neg (show ¬p.maxWidth ≤ (areaCursor p _ x).column + 2 from hborder)]
    exact Writes.pure _

theorem position_down (p : Picture) (x y : Nat) :
    3 * p.position x y + rowStep p (min y p.maxHeight) = 3 * p.position x (y + 1) := by
  simp only [Picture.position, rowStep]
  split
  case isTrue h =>
    have hrow : min (y + 1) p.maxHeight = min y p.maxHeight + 1 := by omega
    rw [hrow, Nat.succ_mul (min y p.maxHeight)]
    omega
  case isFalse h =>
    have hrow : min (y + 1) p.maxHeight = min y p.maxHeight := by omega
    rw [hrow, Nat.add_zero]

/-- The steps to the right and down lead to the closest pixels in the picture. -/
theorem sampleArea_writes (hp : p.Readable) (hrgb : p.isRGB = true) (x y : Nat) (planes : Planes)
    (deltaX deltaY : Nat) :
    Writes (sampleArea p (min y p.maxHeight) (rowStep p (min y p.maxHeight)) deltaY
        (planes, areaCursor p (min y p.maxHeight) x) deltaX) []
      (storeArea p planes (deltaY * 8 + deltaX) x y, areaCursor p (min y p.maxHeight) (x + 2)) := by
  have hsmall := hp.small
  have hbounds := fun x y => Picture.position_lt hp x y
  have hpos : (areaCursor p (min y p.maxHeight) x).pixelPos = 3 * p.position x y := by
    rw [areaCursor, Picture.position, Nat.mul_comm]
  have hright : 3 * p.position x y + (areaCursor p (min y p.maxHeight) x).columnStep =
      3 * p.position (x + 1) y := by
    simp only [areaCursor, Picture.position]
    split <;> omega
  have hint : ∀ x y, Writes (int (3 * p.position x y)) [] (3 * p.position x y) := by
    intro x y
    have := hbounds x y
    exact int_writes (by omega)
  rw [sampleArea]
  simp only [hpos, hright, position_down]
  apply (hint (x + 1) y).bind
  apply (hint x (y + 1)).bind
  apply (hint (x + 1) (y + 1)).bind
  apply (readSum_writes hp hrgb (by decide) x y).bind
  apply (readSum_writes hp hrgb (by decide) x y).bind
  apply (readSum_writes hp hrgb (by decide) x y).bind
  exact (nextArea_writes hp x y).bind (Writes.pure _)

/-- The chrominance of the first `n` areas in a row of the 16x16 block at `x` and `y` is stored. -/
def Averaged (p : Picture) (x y row n : Nat) (planes : Planes) : Prop :=
  ∀ c < n, planes.Cb (row * 8 + c) = p.areaChrominance rgb2cb (x + 2 * c) (y + 2 * row) ∧
    planes.Cr (row * 8 + c) = p.areaChrominance rgb2cr (x + 2 * c) (y + 2 * row)

theorem Averaged.store {x y row n : Nat} {planes : Planes} (h : Averaged p x y row n planes) :
    Averaged p x y row (n + 1)
      (storeArea p planes (row * 8 + n) (x + 2 * n) (y + 2 * row)) := by
  intro c hc
  rcases Nat.lt_succ_iff_lt_or_eq.mp hc with hlt | rfl
  · have hne : row * 8 + c ≠ row * 8 + n := by omega
    simpa only [storeArea, Function.update_of_ne hne] using h c hlt
  · simp only [storeArea, Function.update_self, and_self]

theorem Averaged.store_other {x y row other n i x' y' : Nat} {planes : Planes}
    (h : Averaged p x y row n planes) (hn : n ≤ 8) (hi : i < 8) (hrow : row ≠ other) :
    Averaged p x y row n (storeArea p planes (other * 8 + i) x' y') := by
  intro c hc
  have hne : row * 8 + c ≠ other * 8 + i := by omega
  simpa only [storeArea, Function.update_of_ne hne] using h c hc

/-- A row of areas, next to the rows that were stored before. -/
theorem sampleAreas_writes (hp : p.Readable) (hrgb : p.isRGB = true) {x y deltaY : Nat}
    (hx : x < p.width) {rows : List Nat} (hfresh : deltaY ∉ rows) {planes : Planes}
    (h : ∀ r ∈ rows, Averaged p x y r 8 planes) :
    ∃ planes', Writes (sampleAreas p x y planes deltaY) [] planes' ∧ planes'.Y = planes.Y ∧
      ∀ r ∈ rows ++ [deltaY], Averaged p x y r 8 planes' := by
  have hposition := Picture.position_lt hp x (y + 2 * deltaY)
  have hsmall := hp.small
  have hcolumn : min x p.maxWidth = x := min_eq_left (Nat.le_pred_of_lt hx)
  rw [Picture.position, hcolumn] at hposition
  have hcursor : areaCursor p (min (y + 2 * deltaY) p.maxHeight) x =
      ⟨(min (y + 2 * deltaY) p.maxHeight * p.width + x) * 3, x,
        if x < p.maxWidth then 3 else 0⟩ := by
    rw [areaCursor, hcolumn]
  obtain ⟨codes, ⟨planes', cursor⟩, hloop, rfl, -, hY, hrows, hrow⟩ := Writes.foldlM_range
    (f := sampleArea p (min (y + 2 * deltaY) p.maxHeight)
      (rowStep p (min (y + 2 * deltaY) p.maxHeight)) deltaY)
    (P := fun i codes state => codes = [] ∧
      state.2 = areaCursor p (min (y + 2 * deltaY) p.maxHeight) (x + 2 * i) ∧
      state.1.Y = planes.Y ∧ (∀ r ∈ rows, Averaged p x y r 8 state.1) ∧
      Averaged p x y deltaY i state.1) (n := 8) (by
    rintro i hi codes ⟨planes, cursor⟩ ⟨rfl, rfl, hY, hrows, hrow⟩
    refine ⟨[], _, sampleArea_writes hp hrgb (x + 2 * i) (y + 2 * deltaY) planes i deltaY, rfl,
      rfl, hY, ?_, hrow.store⟩
    intro r hr
    apply (hrows r hr).store_other le_rfl hi
    rintro rfl
    exact hfresh hr) (a := (planes, areaCursor p (min (y + 2 * deltaY) p.maxHeight) x))
    ⟨rfl, rfl, rfl, h, fun c hc => absurd hc (Nat.not_lt_zero c)⟩
  refine ⟨planes', ?_, hY, ?_⟩
  · rw [hcursor] at hloop
    exact (int_writes (by omega)).bind (hloop.bindPure _)
  · intro r hr
    rcases List.mem_append.mp hr with hmem | hmem
    · exact hrows r hmem
    · rw [List.mem_singleton.mp hmem]
      exact hrow

/-- The second pass stores all samples of the chrominance and leaves the luminance. -/
theorem downsampleChrominance_writes (hp : p.Readable) (hrgb : p.isRGB = true) {x : Nat}
    (hx : x < p.width) (y : Nat) (planes : Planes) :
    ∃ planes', Writes (downsampleChrominance p x y planes) [] planes' ∧ planes'.Y = planes.Y ∧
      ∀ row < 8, Averaged p x y row 8 planes' := by
  obtain ⟨codes, planes', hloop, rfl, hY, hrows⟩ := Writes.foldlM
    (f := sampleAreas p x y) (l := (List.range 8).reverse)
    (P := fun rows codes state => codes = [] ∧ state.Y = planes.Y ∧
      ∀ r ∈ rows, Averaged p x y r 8 state) (by
    rintro rows row rest hsplit codes planes ⟨rfl, hY, hrows⟩
    have hnodup : ((List.range 8).reverse).Nodup := List.nodup_reverse.mpr List.nodup_range
    rw [← hsplit, List.nodup_append] at hnodup
    have hfresh : row ∉ rows := by
      intro hmem
      exact hnodup.2.2 row hmem row List.mem_cons_self rfl
    obtain ⟨planes', hwrites, hY', hrows'⟩ := sampleAreas_writes hp hrgb hx hfresh hrows
    exact ⟨[], planes', hwrites, rfl, hY'.trans hY, hrows'⟩) (a := planes)
    ⟨rfl, rfl, fun r hr => absurd hr List.not_mem_nil⟩
  refine ⟨planes', hloop, hY, ?_⟩
  intro row hrow
  apply hrows
  rw [List.mem_reverse, List.mem_range]
  exact hrow

end Reading

end RaspiOrbSlam.TooJpeg
