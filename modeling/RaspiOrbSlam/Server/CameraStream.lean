import RaspiOrbSlam.Foundation.Ascii
import RaspiOrbSlam.TooJpeg.FileAccuracy

/-!
# The stream of camera frames

A client of the camera gets one part after another, each with its length and a
JPEG file. What has been sent up to any time is a sequence of whole parts, and
the file of each part shows the frame that was in the buffer.
-/

namespace RaspiOrbSlam.Server

open Foundation TooJpeg

/-- What the camera answers to `getWidth` and `getHeight`. -/
structure CameraSize where
  width : UInt32
  height : UInt32

/-- `tempCameraBuffer` as the encoder reads it, and the blocks that it declares on the stack. -/
def createCameraData (camera : CameraSize) (tempCameraBuffer : List UInt8) (planes : Planes) :
    Except TooJpeg.Fault (List UInt8) := do
  let (_, out) ← writeJpeg
    { output := true
      pixels := some tempCameraBuffer
      width := camera.width.toUInt16
      height := camera.height.toUInt16
      invertRB := false
      isRGB := false
      quality := 100
      downsample := false
      comment := none } planes
  let content := ascii "--FRAME\r\n"
  let content := content ++ ascii ("Content-Length: " ++ toString out.length ++ "\r\n\r\n")
  let content := content ++ out
  return content ++ ascii "\r\n"

/-- What a turn of the loop in `acceptHandover` finds. -/
structure Turn where
  serverSock : Int16
  isOpen : Bool
  gShutdownFlag : Bool
  /-- The pixels as the encoder reads them during the turn. No lock keeps the camera thread from
  storing another frame meanwhile. -/
  tempCameraBuffer : List UInt8
  planes : Planes

/-- The condition of the loop. -/
def Turn.goesOn (turn : Turn) : Bool := 0 < turn.serverSock && turn.isOpen && !turn.gShutdownFlag

/-- `CameraStreamer::acceptHandover`: what it passes to `client.send` in these turns. The loop does
not look at what `send` answers. -/
def acceptHandover (camera : CameraSize) : (turns : List Turn) →
    Except TooJpeg.Fault (List (List UInt8))
  | [] => .ok []
  | turn :: turns =>
      if turn.goesOn then do
        let content ← createCameraData camera turn.tempCameraBuffer turn.planes
        let rest ← acceptHandover camera turns
        return content :: rest
      else .ok []

/-- A part as a client reads it: the boundary, the length, and as many bytes. -/
def part : Parser UInt8 Unit (List UInt8) := do
  Parser.expect () (ascii "--FRAME\r\nContent-Length: ")
  let length ← Parser.number () 13
  Parser.expect () (ascii "\n\r\n")
  let file ← Parser.take () length
  Parser.expect () (ascii "\r\n")
  return file

/-- The frame in the buffer as a picture. -/
def CameraSize.frame (camera : CameraSize) (tempCameraBuffer : List UInt8) : Picture where
  pixels := tempCameraBuffer
  width := camera.width.toUInt16.toNat
  height := camera.height.toUInt16.toNat
  invertRB := false
  isRGB := false

/-- The gray levels in tiles of eight times eight, shifted by 128; the last column and row are
repeated. -/
def tiles (p : Picture) : List (Fin 8 → Fin 8 → ℚ) :=
  (stepsTo p.height 8).flatMap fun y => (stepsTo p.width 8).map fun x =>
    fun r c => p.exactLuminance (x + c) (y + r)

/-- A decoder of the file computes the gray levels of the picture, up to a mean square of
26/64 in each tile. -/
def Shows (p : Picture) (file : List UInt8) : Prop :=
  ∃ decoded quant, decodeFile file = some decoded ∧ decoded.width = p.width ∧
    decoded.height = p.height ∧ decoded.quant = [quant] ∧
    List.Forall₂ (fun unit tile => ∃ block, unit = [[block]] ∧
      ∑ i, ∑ j, (inverseCosine (fun r c => dequantized quant block r c) i j - tile i j) ^ 2 ≤ 26)
      decoded.units (tiles p)

/-- The bytes of a part. -/
def partBytes (file : List UInt8) : List UInt8 :=
  ascii "--FRAME\r\n" ++ ascii ("Content-Length: " ++ toString file.length ++ "\r\n\r\n") ++ file ++
    ascii "\r\n"

theorem part_partBytes (file : List UInt8) : Parser.Yields part (partBytes file) file := by
  have hlength : Parser.Yields (Parser.number () 13) (ascii (toString file.length) ++ [13])
      file.length := Parser.Yields.number () (Or.inr (by decide)) file.length
  have hread := (Parser.Yields.expect () (ascii "--FRAME\r\nContent-Length: ")).bind
    (f := fun _ => do
      let length ← Parser.number () 13
      Parser.expect () (ascii "\n\r\n")
      let file ← Parser.take () length
      Parser.expect () (ascii "\r\n")
      return file)
    (hlength.bind ((Parser.Yields.expect () (ascii "\n\r\n")).bind
      ((Parser.Yields.take () file).bind ((Parser.Yields.expect () (ascii "\r\n")).bind
        (Parser.Yields.pure file)))))
  have hbytes : partBytes file = ascii "--FRAME\r\nContent-Length: " ++
      ((ascii (toString file.length) ++ [13]) ++ (ascii "\n\r\n" ++
        (file ++ (ascii "\r\n" ++ [])))) := by
    have hfront : ascii "--FRAME\r\nContent-Length: " =
        ascii "--FRAME\r\n" ++ ascii "Content-Length: " := rfl
    have hend : ascii "\r\n\r\n" = [13] ++ ascii "\n\r\n" := rfl
    rw [partBytes, ascii_append, ascii_append, hfront, hend]
    simp only [List.append_assoc, List.append_nil]
  rw [hbytes]
  exact hread

/-- At the highest quality every step is one. -/
theorem quantTable_highest (table : Fin 64 → Nat) (i : Fin 64) : quantTable table 100 i = 1 := by
  have hfactor : qualityFactor 100 = 0 := rfl
  rw [quantTable, hfactor, Nat.mul_zero]
  rfl

theorem Reconstructs.highest {quant : List UInt8} (hquant : ∀ k < 64, quant.getD k 0 = 1)
    {block : List Int} {v : Fin 8 → Fin 8 → ℚ} (h : Reconstructs quant block v) :
    ∑ i, ∑ j, (inverseCosine (fun r c => dequantized quant block r c) i j - v i j) ^ 2 ≤ 26 := by
  apply h.samples.trans
  have hstep : ∀ r c, tolerance (quant.getD (place r c) 0) = 6302 / 10000 := by
    intro r c
    have hone : (1 : UInt8).toNat = 1 := rfl
    rw [hquant _ (place r c).isLt, tolerance, hone]
    norm_num
  simp only [hstep, Finset.sum_const, Finset.card_univ, Fintype.card_fin]
  norm_num

/-- The arguments of the encoder for a frame. -/
def cameraArguments (camera : CameraSize) (tempCameraBuffer : List UInt8) : Arguments :=
  ⟨true, some tempCameraBuffer, camera.width.toUInt16, camera.height.toUInt16, false, false, 100,
    false, none⟩

theorem scanSamples_camera (camera : CameraSize) (tempCameraBuffer : List UInt8) :
    ((cameraArguments camera tempCameraBuffer).setup tempCameraBuffer).scanSamples =
      (tiles (camera.frame tempCameraBuffer)).map fun tile => [[tile]] := by
  have hsize : ((cameraArguments camera tempCameraBuffer).setup tempCameraBuffer).mcuSize = 8 := rfl
  have hsteps : stepsTo 8 8 = [0] := rfl
  have hunit : ∀ x y, ((cameraArguments camera tempCameraBuffer).setup
      tempCameraBuffer).unitSamples x y =
      [[fun r c : Fin 8 => (camera.frame tempCameraBuffer).exactLuminance (x + c) (y + r)]] := by
    intro x y
    rw [ScanSetup.unitSamples, hsize, hsteps]
    rfl
  rw [tiles, List.map_flatMap, ScanSetup.scanSamples, hsize]
  simp only [List.map_map, hunit]
  rfl

/-- A frame becomes a part whose file shows it. -/
theorem createCameraData_shows (camera : CameraSize) {tempCameraBuffer : List UInt8}
    (h : (camera.frame tempCameraBuffer).Readable) (planes : Planes) :
    ∃ file, createCameraData camera tempCameraBuffer planes = .ok (partBytes file) ∧
      Shows (camera.frame tempCameraBuffer) file := by
  have hvalid : (cameraArguments camera tempCameraBuffer).Valid tempCameraBuffer :=
    ⟨rfl, rfl, h, fun _ hm => nomatch hm⟩
  obtain ⟨file, hwrite, hdecode⟩ := writeJpeg_decodes hvalid planes
  refine ⟨file, ?_, _, List.ofFn (cameraArguments camera tempCameraBuffer).quantLuminance, hdecode,
    rfl, rfl, rfl, ?_⟩
  · change (writeJpeg (cameraArguments camera tempCameraBuffer) planes).bind _ = _
    rw [hwrite]
    rfl
  · have hunits := decoded_reconstructs (cameraArguments camera tempCameraBuffer) tempCameraBuffer
    rw [scanSamples_camera, List.forall₂_map_right_iff] at hunits
    apply hunits.imp
    intro unit tile hunit
    obtain ⟨blocks, target, hblocks⟩ : ∃ block, unit = [[block]] ∧
        Reconstructs (List.ofFn (cameraArguments camera tempCameraBuffer).quantLuminance) block
          tile := by
      cases hunit with
      | cons hcomponent hothers =>
          cases hothers
          cases hcomponent with
          | cons hblock hrest =>
              cases hrest
              exact ⟨_, rfl, hblock⟩
    refine ⟨blocks, target, Reconstructs.highest ?_ hblocks⟩
    intro k hk
    rw [List.getD_eq_getElem _ _ (by simpa using hk), List.getElem_ofFn]
    exact quantTable_highest _ _

/-- Whatever the turns find, the stream consists of whole parts, one for each turn up to the first
one that ends the loop, and the file of each part shows the frame of its turn. -/
theorem acceptHandover_stream (camera : CameraSize) (turns : List Turn)
    (h : ∀ turn ∈ turns, (camera.frame turn.tempCameraBuffer).Readable) :
    ∃ contents files, acceptHandover camera turns = .ok contents ∧
      Parser.Yields (times part contents.length) contents.flatten files ∧
      List.Forall₂ (fun turn file => Shows (camera.frame turn.tempCameraBuffer) file)
        (turns.takeWhile Turn.goesOn) files := by
  induction turns with
  | nil => exact ⟨[], [], rfl, Parser.Yields.pure [], .nil⟩
  | cons turn turns ih =>
      rw [acceptHandover, List.takeWhile_cons]
      by_cases hgoes : turn.goesOn = true
      · obtain ⟨contents, files, hsend, hread, hshow⟩ :=
          ih fun t ht => h t (List.mem_cons_of_mem _ ht)
        obtain ⟨file, hcreate, hfile⟩ :=
          createCameraData_shows camera (h turn List.mem_cons_self) turn.planes
        refine ⟨partBytes file :: contents, file :: files, ?_, ?_, ?_⟩
        · rw [if_pos hgoes, hcreate, hsend]
          rfl
        · have hall := hread.map (List.cons file)
          rw [← bind_pure_comp] at hall
          exact (part_partBytes file).bind hall
        · rw [if_pos hgoes]
          exact .cons hfile hshow
      · rw [if_neg hgoes, if_neg hgoes]
        exact ⟨[], [], rfl, Parser.Yields.pure [], .nil⟩

/-- Two frames of two pixels, and a turn that finds the shutdown flag set. -/
theorem acceptHandover_stream_two_frames :
    let camera : CameraSize := ⟨2, 1⟩
    let planes : Planes := ⟨fun _ => 0, fun _ => 0, fun _ => 0⟩
    let turns : List Turn := [⟨5, true, false, [100, 200], planes⟩,
      ⟨5, true, false, [0, 255], planes⟩, ⟨5, true, true, [7, 7], planes⟩]
    ∃ contents files, acceptHandover camera turns = .ok contents ∧
      Parser.Yields (times part contents.length) contents.flatten files ∧
      List.Forall₂ (fun turn file => Shows (camera.frame turn.tempCameraBuffer) file)
        (turns.take 2) files := by
  intro camera planes turns
  have hreadable : ∀ turn ∈ turns, (camera.frame turn.tempCameraBuffer).Readable := by
    intro turn hturn
    have hlength : turn.tempCameraBuffer.length = 2 := by
      simp only [turns, List.mem_cons, List.not_mem_nil, or_false] at hturn
      rcases hturn with rfl | rfl | rfl <;> rfl
    have hpositive : 0 < 2 ∧ 0 < 1 ∧ 3 * (2 * 1) + 3 < 2 ^ 31 := by decide
    exact ⟨hpositive.1, hpositive.2.1, hlength.ge, hpositive.2.2⟩
  exact acceptHandover_stream camera turns hreadable

end RaspiOrbSlam.Server
