import RaspiOrbSlam.TooJpeg.FileDecoder
import RaspiOrbSlam.TooJpeg.WriteJpeg

/-! # The header of a file

What the encoder writes in front of the scan, and what a decoder makes of it:
the segments define the dimensions, the tables and the components. -/

namespace RaspiOrbSlam.TooJpeg

open Foundation

/-- `m` hands `bytes` to the callback, past the buffer of bits. -/
def Outputs {α : Type} (m : Writing α) (bytes : List UInt8) (a : α) : Prop :=
  ∀ w : BitWriter, m w = .ok (a, { w with output := w.output ++ bytes })

namespace Outputs

variable {α β : Type}

theorem pure (a : α) : Outputs (pure a) [] a := by
  intro w
  rw [List.append_nil]
  rfl

theorem bind {m : Writing α} {f : α → Writing β} {front back : List UInt8} {a : α} {b : β}
    (hm : Outputs m front a) (hf : Outputs (f a) back b) :
    Outputs (m >>= f) (front ++ back) b := by
  intro w
  change (m w).bind (fun r => f r.1 r.2) = _
  rw [hm w, ← List.append_assoc]
  exact hf { w with output := w.output ++ front }

/-- What runs behind `m` finds its bytes in the output. -/
theorem run {m : Writing α} {f : α → Writing β} {front : List UInt8} {a : α} {w : BitWriter}
    {r : Except Fault (β × BitWriter)} (hm : Outputs m front a)
    (hf : f a { w with output := w.output ++ front } = r) : (m >>= f) w = r := by
  change (m w).bind (fun r => f r.1 r.2) = _
  rw [hm w]
  exact hf

theorem lift {m : Except Fault α} {a : α} (h : m = .ok a) : Outputs (liftM m) [] a := by
  intro w
  rw [h, List.append_nil]
  rfl

theorem writeBytes (manyBytes : List UInt8) : Outputs (writeBytes manyBytes) manyBytes () := by
  intro w
  change Except.ok ((), w.bytes manyBytes) = _
  rw [BitWriter.bytes_eq]

theorem forM {ι : Type} {f : ι → Writing Unit} {bytes : ι → List UInt8} (l : List ι)
    (h : ∀ i ∈ l, Outputs (f i) (bytes i) ()) : Outputs (l.forM f) (l.flatMap bytes) () := by
  induction l with
  | nil => exact pure ()
  | cons i l ih =>
      exact (h i List.mem_cons_self).bind (ih fun j hj => h j (List.mem_cons_of_mem i hj))

end Outputs

/-- A marker with its length and what follows. -/
def segment (id : UInt8) (payload : List UInt8) : List UInt8 :=
  let length := payload.length + 2
  [0xFF, id, UInt8.ofNat (length / 256), UInt8.ofNat length] ++ payload

theorem addMarker_outputs (id : UInt8) {length : Nat} (h : length < 2 ^ 16) :
    Outputs (addMarker id length)
      [0xFF, id, UInt8.ofNat (length / 256), UInt8.ofNat length] () := by
  intro w
  have hhigh : (UInt16.ofNat length >>> 8).toUInt8 = UInt8.ofNat (length / 256) := by
    apply UInt8.toNat_inj.mp
    simp only [UInt16.toNat_toUInt8, UInt16.toNat_shiftRight, UInt16.toNat_ofNat',
      UInt8.toNat_ofNat', Nat.shiftRight_eq_div_pow]
    change length % 2 ^ 16 / 2 ^ 8 % 2 ^ 8 = _
    omega
  have hlow : (UInt16.ofNat length &&& 0xFF).toUInt8 = UInt8.ofNat length := by
    apply UInt8.toNat_inj.mp
    simp [Nat.and_two_pow_sub_one_eq_mod _ 8]
  change Except.ok ((), w.addMarker id (UInt16.ofNat length)) = _
  rw [BitWriter.addMarker, hhigh, hlow]
  simp [BitWriter.emit]

/-- A length of two bytes. -/
theorem length_bytes {length : Nat} (h : length < 2 ^ 16) :
    (UInt8.ofNat (length / 256)).toNat * 256 + (UInt8.ofNat length).toNat = length := by
  rw [UInt8.toNat_ofNat', UInt8.toNat_ofNat']
  omega

theorem decodeSegments_segment (fuel : Nat) (h : Header) (id : UInt8) {payload rest : List UInt8}
    (hsize : payload.length + 2 < 2 ^ 16) :
    decodeSegments (fuel + 1) h (segment id payload ++ rest) =
      if id = 0xDA then (do
        let scan ← scanHeader payload
        h.decodeData scan rest)
      else (do
        let h ← h.apply id payload
        decodeSegments fuel h rest) := by
  change decodeSegments (fuel + 1) h (0xFF :: id :: UInt8.ofNat ((payload.length + 2) / 256) ::
    UInt8.ofNat (payload.length + 2) :: (payload ++ rest)) = _
  have hlength : payload.length + 2 - 2 = payload.length := by omega
  rw [decodeSegments]
  simp only [length_bytes hsize, hlength, List.take_left, List.drop_left]
  rw [if_pos]
  rw [List.length_append]
  exact ⟨trivial, by omega, by omega⟩

/-- A table of quantization steps in front of others. -/
theorem quantTables_cons (id : UInt8) (hid : id.toNat < 16) {table rest : List UInt8}
    (hlength : table.length = 64) {tables : List (Nat × List UInt8)}
    (h : quantTables rest = some tables) :
    quantTables (id :: (table ++ rest)) = some ((id.toNat, table) :: tables) := by
  rw [quantTables, if_pos ⟨hid, by rw [List.length_append]; omega⟩, ← hlength, List.take_left,
    List.drop_left, h]
  rfl

theorem quantTables_nil : quantTables [] = some [] := by rw [quantTables]

/-- The definition of a code in front of others. -/
theorem codeTables_cons (id : UInt8) (d : CodeDefinition) {rest : List UInt8}
    {tables : List (Nat × CodeLists)} (h : codeTables rest = some tables) :
    codeTables (id :: (d.numCodes ++ d.values ++ rest)) =
      some ((id.toNat, d.toCodeLists) :: tables) := by
  have hsplit : d.numCodes ++ d.values ++ rest = d.numCodes ++ (d.values ++ rest) :=
    List.append_assoc _ _ _
  have hnumCodes : (d.numCodes ++ d.values ++ rest).take 16 = d.numCodes := by
    rw [hsplit, ← d.sixteen, List.take_left]
  have hvalues : (d.numCodes ++ d.values ++ rest).drop 16 = d.values ++ rest := by
    rw [hsplit, ← d.sixteen, List.drop_left]
  have hrest : (d.numCodes ++ d.values ++ rest).drop (16 + d.values.length) = rest := by
    rw [← List.drop_drop, hvalues, List.drop_left]
  rw [codeTables]
  simp only [hnumCodes, d.total, hvalues, hrest, List.take_left, h]
  rw [if_pos]
  · rfl
  · simp only [List.length_append, d.sixteen]
    omega

theorem codeTables_nil : codeTables [] = some [] := by rw [codeTables]

/-- The text of a comment ends in front of the first zero. -/
def commentText (memory : List UInt8) : List UInt8 := memory.takeWhile (· != 0)

theorem commentLength_eq {memory : List UInt8} (h : 0 ∈ memory) :
    commentLength memory = .ok (commentText memory).length := by
  induction memory with
  | nil => cases h
  | cons c rest ih =>
      rw [commentLength, commentText, List.takeWhile_cons]
      by_cases hc : c = 0
      · subst hc
        rfl
      · have hrest : 0 ∈ rest := by
          rcases List.mem_cons.mp h with hzero | hrest
          · exact absurd hzero.symm hc
          · exact hrest
        rw [if_neg hc, if_pos (by simpa using hc), ih hrest]
        rfl

theorem take_commentText (memory : List UInt8) :
    memory.take (commentText memory).length = commentText memory :=
  (List.prefix_iff_eq_take.mp (List.takeWhile_prefix _)).symm

theorem addMarker_segment {id : UInt8} {length : Nat} {payload : List UInt8} {m : Writing α}
    {a : α} (hlength : payload.length + 2 = length) (hsize : length < 2 ^ 16)
    (hm : Outputs m payload a) :
    Outputs (do addMarker id length; m) (segment id payload) a := by
  rw [segment, hlength]
  exact (addMarker_outputs id hsize).bind hm

namespace Arguments

variable (a : Arguments)

def comments : List (List UInt8) := a.comment.toList.map commentText

def numComponents : Nat := if a.isRGB then 3 else 1

def quantLuminance : Fin 64 → UInt8 := quantTable defaultQuantLuminance a.quality
def quantChrominance : Fin 64 → UInt8 := quantTable defaultQuantChrominance a.quality

/-- The payloads of the segments. -/
def quantPayload : List UInt8 :=
  0x00 :: (List.ofFn a.quantLuminance ++
    if a.isRGB then 0x01 :: List.ofFn a.quantChrominance else [])

def dimensions : List UInt8 :=
  [0x08, (a.height >>> 8).toUInt8, (a.height &&& 0xFF).toUInt8, (a.width >>> 8).toUInt8,
    (a.width &&& 0xFF).toUInt8]

def frameComponent (id : Nat) : List UInt8 :=
  [UInt8.ofNat id, if id = 1 ∧ (a.isRGB && a.downsample) then 0x22 else 0x11,
    if id = 1 then 0 else 1]

def framePayload : List UInt8 :=
  a.dimensions ++ UInt8.ofNat a.numComponents ::
    (List.range' 1 a.numComponents).flatMap a.frameComponent

def codePayload : List UInt8 :=
  0x00 :: (dcLuminanceCodesPerBitsize ++ dcLuminanceValues ++
    0x10 :: (acLuminanceCodesPerBitsize ++ acLuminanceValues ++
      if a.isRGB then
        0x01 :: (dcChrominanceCodesPerBitsize ++ dcChrominanceValues ++
          0x11 :: (acChrominanceCodesPerBitsize ++ acChrominanceValues))
      else []))

def scanPayload : List UInt8 :=
  UInt8.ofNat a.numComponents ::
    ((List.range' 1 a.numComponents).flatMap fun id =>
      [UInt8.ofNat id, if id = 1 then 0x00 else 0x11]) ++
    [0, 63, 0]

theorem quantPayload_length :
    a.quantPayload.length + 2 = 2 + (if a.isRGB then 2 else 1) * (1 + 8 * 8) := by
  rw [quantPayload]
  cases a.isRGB <;> simp

theorem framePayload_length : a.framePayload.length + 2 = 2 + 6 + 3 * a.numComponents := by
  rw [framePayload, numComponents]
  cases a.isRGB <;> rfl

theorem codePayload_length :
    a.codePayload.length + 2 = if a.isRGB then 2 + 208 + 208 else 2 + 208 := by
  rw [codePayload]
  cases a.isRGB <;> decide +kernel

theorem scanPayload_length : a.scanPayload.length + 2 = 2 + 1 + 2 * a.numComponents + 3 := by
  rw [scanPayload, numComponents]
  cases a.isRGB <;> rfl

end Arguments

theorem writeComment_outputs {a : Arguments}
    (h : ∀ memory ∈ a.comment, 0 ∈ memory ∧ (commentText memory).length + 2 < 2 ^ 16) :
    Outputs (writeComment a.comment) (a.comments.flatMap (segment 0xFE)) () := by
  rw [Arguments.comments]
  cases hcomment : a.comment with
  | none => exact Outputs.pure ()
  | some memory =>
      obtain ⟨hzero, hsize⟩ := h memory hcomment
      have htext : Outputs (writeBytes (memory.take (commentText memory).length))
          (commentText memory) () := by
        rw [take_commentText]
        exact Outputs.writeBytes _
      change Outputs _ (segment 0xFE (commentText memory) ++ []) ()
      rw [List.append_nil]
      exact (Outputs.lift (commentLength_eq hzero)).bind
        (addMarker_segment (Nat.add_comm _ 2) (by omega) htext)

theorem writeQuantization_outputs (a : Arguments) :
    Outputs (writeQuantization a.isRGB a.quantLuminance a.quantChrominance)
      (segment 0xDB a.quantPayload) () := by
  apply addMarker_segment a.quantPayload_length
  · cases a.isRGB <;> decide
  · rw [Arguments.quantPayload]
    have hluminance := Outputs.writeBytes (0x00 :: List.ofFn a.quantLuminance)
    cases a.isRGB with
    | false => exact hluminance.bind (Outputs.pure ())
    | true => exact hluminance.bind (Outputs.writeBytes _)

theorem writeFrame_outputs (a : Arguments) :
    Outputs (writeFrame a.width a.height a.numComponents (a.isRGB && a.downsample))
      (segment 0xC0 a.framePayload) () := by
  apply addMarker_segment a.framePayload_length
  · rw [Arguments.numComponents]
    cases a.isRGB <;> decide
  · exact (Outputs.writeBytes _).bind ((Outputs.writeBytes [_]).bind
      (Outputs.forM _ fun id _ => Outputs.writeBytes _))

theorem writeScanHeader_outputs (a : Arguments) :
    Outputs (writeScanHeader a.numComponents) (segment 0xDA a.scanPayload) () := by
  apply addMarker_segment a.scanPayload_length
  · rw [Arguments.numComponents]
    cases a.isRGB <;> decide
  · exact (Outputs.writeBytes [_]).bind ((Outputs.forM _ fun id _ => Outputs.writeBytes _).bind
      (Outputs.writeBytes _))

/-- The table of a definition. -/
def CodeDefinition.table (d : CodeDefinition) : HuffmanTable :=
  d.codewords.foldl storeCode fun _ => none

theorem generate_outputs (d : CodeDefinition) :
    Outputs (liftM (generateHuffmanTable d.numCodes d.values) : Writing HuffmanTable) [] d.table :=
  Outputs.lift d.generateHuffmanTable_eq

def Arguments.tables (a : Arguments) : HuffmanTables where
  luminanceDC := dcLuminance.table
  luminanceAC := acLuminance.table
  chrominanceDC := if a.isRGB then dcChrominance.table else fun _ => none
  chrominanceAC := if a.isRGB then acChrominance.table else fun _ => none

theorem writeHuffman_outputs (a : Arguments) :
    Outputs (writeHuffman a.isRGB) (segment 0xC4 a.codePayload) a.tables := by
  apply addMarker_segment a.codePayload_length
  · cases a.isRGB <;> decide
  · rw [Arguments.codePayload, Arguments.tables]
    have hdc := Outputs.writeBytes (0x00 :: (dcLuminanceCodesPerBitsize ++ dcLuminanceValues))
    have hac := Outputs.writeBytes (0x10 :: (acLuminanceCodesPerBitsize ++ acLuminanceValues))
    apply hdc.bind
    apply hac.bind
    apply (generate_outputs dcLuminance).bind
    change Outputs _ ([] ++ _) _
    apply (generate_outputs acLuminance).bind
    cases a.isRGB with
    | false => exact Outputs.pure _
    | true =>
        exact (Outputs.writeBytes (0x01 :: _)).bind ((Outputs.writeBytes _).bind
          ((generate_outputs dcChrominance).bind ((generate_outputs acChrominance).bind
            (Outputs.pure _))))

/-- Segments in front of the scan, one after another. -/
theorem decodeSegments_segments (fuel : Nat) {segments : List (UInt8 × List UInt8)}
    (hids : ∀ s ∈ segments, s.1 ≠ 0xDA ∧ s.2.length + 2 < 2 ^ 16) {h h' : Header}
    (happly : segments.foldlM (fun h s => h.apply s.1 s.2) h = some h') (rest : List UInt8) :
    decodeSegments (fuel + segments.length) h
      (segments.flatMap (fun s => segment s.1 s.2) ++ rest) = decodeSegments fuel h' rest := by
  induction segments generalizing h with
  | nil => cases happly; rfl
  | cons s segments ih =>
      obtain ⟨hid, hsize⟩ := hids s List.mem_cons_self
      rw [List.foldlM_cons] at happly
      obtain ⟨middle, hfirst, hothers⟩ := Option.bind_eq_some_iff.mp happly
      rw [List.flatMap_cons, List.append_assoc, List.length_cons, ← Nat.add_assoc,
        decodeSegments_segment _ _ _ hsize, if_neg hid, hfirst]
      exact ih (fun s hs => hids s (List.mem_cons_of_mem _ hs)) hothers

theorem high_low_bytes (n : UInt16) :
    (n >>> 8).toUInt8.toNat * 256 + (n &&& 0xFF).toUInt8.toNat = n.toNat := by
  have hlow : (n &&& 0xFF).toNat = n.toNat % 2 ^ 8 := by
    rw [UInt16.toNat_and]
    exact Nat.and_two_pow_sub_one_eq_mod _ 8
  have hn := n.toNat_lt
  simp only [UInt16.toNat_toUInt8, UInt16.toNat_shiftRight, Nat.shiftRight_eq_div_pow, hlow]
  change n.toNat / 2 ^ 8 % 2 ^ 8 * 256 + n.toNat % 2 ^ 8 % 2 ^ 8 = _
  omega

/-- The frame that a file for these arguments describes. -/
def Arguments.frame (a : Arguments) : Frame where
  height := a.height.toNat
  width := a.width.toNat
  components :=
    let sampling := if a.isRGB && a.downsample then 2 else 1
    ⟨1, sampling, sampling, 0⟩ :: if a.isRGB then [⟨2, 1, 1, 1⟩, ⟨3, 1, 1, 1⟩] else []

theorem frameHeader_framePayload (a : Arguments) : frameHeader a.framePayload = some a.frame := by
  have hcomponents : frameComponents ((List.range' 1 a.numComponents).flatMap a.frameComponent) =
      some a.frame.components := by
    unfold Arguments.numComponents Arguments.frameComponent Arguments.frame
    cases a.isRGB <;> cases a.downsample <;> rfl
  have hcount : a.frame.components.length = (UInt8.ofNat a.numComponents).toNat := by
    unfold Arguments.numComponents Arguments.frame
    cases a.isRGB <;> rfl
  change (frameComponents ((List.range' 1 a.numComponents).flatMap a.frameComponent)).bind _ = _
  rw [hcomponents, Option.bind_some, if_pos ⟨rfl, hcount⟩, high_low_bytes, high_low_bytes]
  rfl

theorem quantTables_quantPayload (a : Arguments) :
    quantTables a.quantPayload = some ((0, List.ofFn a.quantLuminance) ::
      if a.isRGB then [(1, List.ofFn a.quantChrominance)] else []) := by
  rw [Arguments.quantPayload]
  apply quantTables_cons 0 (by decide) (List.length_ofFn ..)
  cases a.isRGB with
  | false => exact quantTables_nil
  | true =>
      have hchrominance := quantTables_cons 1 (by decide)
        (List.length_ofFn (f := a.quantChrominance)) quantTables_nil
      rw [List.append_nil] at hchrominance
      exact hchrominance

theorem codeTables_codePayload (a : Arguments) :
    codeTables a.codePayload =
      some ((0, dcLuminance.toCodeLists) :: (16, acLuminance.toCodeLists) ::
        if a.isRGB then [(1, dcChrominance.toCodeLists), (17, acChrominance.toCodeLists)]
        else []) := by
  rw [Arguments.codePayload]
  apply codeTables_cons 0x00 dcLuminance
  apply codeTables_cons 0x10 acLuminance
  cases a.isRGB with
  | false => exact codeTables_nil
  | true =>
      apply codeTables_cons 0x01 dcChrominance
      have hac := codeTables_cons 0x11 acChrominance codeTables_nil
      rw [List.append_nil] at hac
      exact hac

theorem scanHeader_scanPayload (a : Arguments) :
    scanHeader a.scanPayload = some ((1, 0) :: if a.isRGB then [(2, 17), (3, 17)] else []) := by
  unfold Arguments.scanPayload Arguments.numComponents
  cases a.isRGB <;> rfl

namespace Arguments

variable (a : Arguments)

/-- The segments in front of the scan. -/
def segments : List (UInt8 × List UInt8) :=
  (0xE0, headerJfif.drop 6) :: (a.comments.map ((0xFE, ·)) ++
    [(0xDB, a.quantPayload), (0xC0, a.framePayload), (0xC4, a.codePayload)])

/-- What they define. -/
def header : Header where
  comments := a.comments
  quant := (0, List.ofFn a.quantLuminance) ::
    if a.isRGB then [(1, List.ofFn a.quantChrominance)] else []
  codes := (0, dcLuminance.toCodeLists) :: (16, acLuminance.toCodeLists) ::
    if a.isRGB then [(1, dcChrominance.toCodeLists), (17, acChrominance.toCodeLists)] else []
  frame := some a.frame

variable {a}

theorem apply_comments (h : Header) (comments : List (List UInt8)) :
    (comments.map fun text => ((0xFE : UInt8), text)).foldlM (fun h s => h.apply s.1 s.2) h =
      some { h with comments := h.comments ++ comments } := by
  induction comments generalizing h with
  | nil => simp
  | cons text comments ih =>
      have hfirst : h.apply 0xFE text = some { h with comments := h.comments ++ [text] } := rfl
      rw [List.map_cons, List.foldlM_cons, hfirst, Option.bind_eq_bind, Option.bind_some, ih,
        List.append_assoc]
      rfl

theorem apply_segments :
    a.segments.foldlM (fun h s => Header.apply h s.1 s.2) {} = some a.header := by
  have hjfif : Header.apply {} 0xE0 (headerJfif.drop 6) = some {} := rfl
  have hquant : ∀ h : Header, h.apply 0xDB a.quantPayload =
      (quantTables a.quantPayload).map fun t => { h with quant := t ++ h.quant } := fun _ => rfl
  have hframe : ∀ h : Header, h.apply 0xC0 a.framePayload =
      (frameHeader a.framePayload).map fun f => { h with frame := some f } := fun _ => rfl
  have hcodes : ∀ h : Header, h.apply 0xC4 a.codePayload =
      (codeTables a.codePayload).map fun t => { h with codes := t ++ h.codes } := fun _ => rfl
  rw [segments, List.foldlM_cons, hjfif, Option.bind_eq_bind, Option.bind_some, List.foldlM_append,
    apply_comments]
  simp only [List.foldlM_cons, List.foldlM_nil, hquant, hframe, hcodes, quantTables_quantPayload,
    frameHeader_framePayload, codeTables_codePayload, Option.bind_eq_bind, Option.bind_some,
    Option.map_some, List.append_nil, List.nil_append]
  rfl

theorem segments_small
    (h : ∀ memory ∈ a.comment, 0 ∈ memory ∧ (commentText memory).length + 2 < 2 ^ 16) :
    ∀ s ∈ a.segments, s.1 ≠ 0xDA ∧ s.2.length + 2 < 2 ^ 16 := by
  intro s hs
  simp only [segments, List.mem_cons, List.mem_append, List.mem_map, comments,
    Option.mem_toList, List.not_mem_nil, or_false] at hs
  rcases hs with rfl | ⟨text, ⟨memory, hmemory, rfl⟩, rfl⟩ | rfl | rfl | rfl
  · decide
  · exact ⟨(by decide : (0xFE : UInt8) ≠ 0xDA), (h memory hmemory).2⟩
  · refine ⟨(by decide : (0xDB : UInt8) ≠ 0xDA), ?_⟩
    change a.quantPayload.length + 2 < 2 ^ 16
    rw [quantPayload_length]
    cases a.isRGB <;> decide
  · refine ⟨(by decide : (0xC0 : UInt8) ≠ 0xDA), ?_⟩
    change a.framePayload.length + 2 < 2 ^ 16
    rw [framePayload_length, numComponents]
    cases a.isRGB <;> decide
  · refine ⟨(by decide : (0xC4 : UInt8) ≠ 0xDA), ?_⟩
    change a.codePayload.length + 2 < 2 ^ 16
    rw [codePayload_length]
    cases a.isRGB <;> decide

end Arguments

/-- The header of a file, from its first marker to that of the scan. -/
def Arguments.front (a : Arguments) : List UInt8 :=
  0xFF :: 0xD8 :: (a.segments.flatMap (fun s => segment s.1 s.2) ++ segment 0xDA a.scanPayload)

theorem Arguments.front_eq (a : Arguments) :
    headerJfif ++ a.comments.flatMap (segment 0xFE) ++ segment 0xDB a.quantPayload ++
      segment 0xC0 a.framePayload ++ segment 0xC4 a.codePayload ++ segment 0xDA a.scanPayload =
      a.front := by
  have hjfif : headerJfif = 0xFF :: 0xD8 :: segment 0xE0 (headerJfif.drop 6) := rfl
  rw [front, segments, List.flatMap_cons, List.flatMap_append, List.flatMap_map, hjfif]
  simp only [List.flatMap_cons, List.flatMap_nil, List.append_assoc, List.cons_append,
    List.append_nil]
  rfl

theorem length_le_flatMap_segment (segments : List (UInt8 × List UInt8)) :
    segments.length ≤ (segments.flatMap fun s => segment s.1 s.2).length := by
  rw [List.length_flatMap]
  calc
    segments.length = (segments.map fun _ => 1).sum := by simp
    _ ≤ _ := by
      apply List.sum_le_sum
      intro s _
      rw [segment, List.length_append]
      exact Nat.le_add_right_of_le (show 1 ≤ 4 by decide)

/-- Decoding starts with the segments and ends with the scan. -/
theorem Arguments.decodeFile_front (a : Arguments)
    (hcomment : ∀ memory ∈ a.comment, 0 ∈ memory ∧ (commentText memory).length + 2 < 2 ^ 16)
    (data : List UInt8) :
    decodeFile (a.front ++ data) =
      a.header.decodeData ((1, 0) :: if a.isRGB then [(2, 17), (3, 17)] else []) data := by
  obtain ⟨rest, hrest⟩ : ∃ rest, a.segments.flatMap (fun s => segment s.1 s.2) ++
      (segment 0xDA a.scanPayload ++ data) = rest := ⟨_, rfl⟩
  have hsize : a.scanPayload.length + 2 < 2 ^ 16 := by
    rw [scanPayload_length, numComponents]
    cases a.isRGB <;> decide
  obtain ⟨fuel, hfuel⟩ : ∃ fuel, rest.length = fuel + 1 + a.segments.length := by
    have hle := length_le_flatMap_segment a.segments
    have hpos : 0 < (segment 0xDA a.scanPayload).length := by simp [segment]
    rw [← hrest, List.length_append, List.length_append]
    exact ⟨_, (Nat.sub_add_cancel (n := _) (m := 1 + a.segments.length) (by omega)).symm.trans
      (Nat.add_assoc _ _ _).symm⟩
  have hsplit : a.front ++ data = 0xFF :: 0xD8 :: rest := by
    rw [front, ← hrest]
    simp only [List.cons_append, List.append_assoc]
  rw [hsplit, decodeFile, if_pos ⟨rfl, rfl⟩, hfuel, ← hrest,
    decodeSegments_segments _ (segments_small hcomment) apply_segments,
    decodeSegments_segment _ _ _ hsize, if_pos rfl, scanHeader_scanPayload]
  rfl

end RaspiOrbSlam.TooJpeg
