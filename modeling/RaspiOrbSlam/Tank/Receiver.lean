import RaspiOrbSlam.Foundation.Parser
import RaspiOrbSlam.Tank.Serial
import Mathlib.Tactic.FinCases

/-!
# Reading the serial link

A receiver of the link that knows the format of the frames: it accepts a frame
exactly if some command is sent as this frame, so that it gets back every command
and does not take a frame with one wrong byte for another.
-/

namespace RaspiOrbSlam.Tank

open Foundation

/-- A command that `sendCommandRaw` does not refuse. -/
structure Command where
  opcode : TankOpcode
  args : List UInt8
  short : args.length ≤ 5
  deriving DecidableEq

namespace Command

def frame (c : Command) : Frame := commandFrame c.opcode c.args

def stop : Command := ⟨.stop, [], by decide⟩

def move (left right : UInt8) : Command := ⟨.move, [left, right], Nat.le_add_left 2 3⟩

def ledSet (id r g b : UInt8) : Command := ⟨.ledSet, [id, r, g, b], Nat.le_succ 4⟩

end Command

def TankOpcode.ofByte? (b : UInt8) : Option TankOpcode :=
  [stop, move, ledSet, ledClr, rainbow, ping].find? fun opc => opc.toByte = b

theorem argument_lt (k : Fin 5) : 3 + k.val < 10 := by omega

/-- The five bytes for the arguments. -/
def argumentArea (frame : Frame) : List UInt8 :=
  List.ofFn fun k : Fin 5 => frame.get ⟨3 + k, argument_lt k⟩

/-- The command in a frame; behind the last argument the frame must be zero. -/
def decodeFrame (frame : Frame) : Option Command :=
  if Sound frame then do
    let opcode ← TankOpcode.ofByte? (opcodeOf frame)
    if h : countOf frame ≤ 5 then
      if (argumentArea frame).drop (countOf frame) = List.replicate (5 - countOf frame) 0 then
        some ⟨opcode, (argumentArea frame).take (countOf frame), by
          rw [List.length_take]
          exact (Nat.min_le_left _ _).trans h⟩
      else none
    else none
  else none

theorem TankOpcode.ofByte?_eq_some_iff {b : UInt8} {opc : TankOpcode} :
    ofByte? b = some opc ↔ opc.toByte = b := by
  constructor
  · intro h
    simpa using List.find?_some h
  · rintro rfl
    cases opc <;> rfl

theorem sound_commandFrame (opc : TankOpcode) (args : List UInt8) :
    Sound (commandFrame opc args) := by
  refine ⟨?_, ?_, ?_, sum_commandFrame opc args⟩
  · rw [commandFrame_getElem opc args (by decide), payload, copyAt_get _ _ _ _ (by decide)]
    rfl
  · rw [commandFrame_getElem opc args (by decide), payload, copyAt_get _ _ _ _ (by decide)]
    rfl
  · rw [commandFrame_eq, Vector.getElem_set_self]

theorem argumentArea_commandFrame (opc : TankOpcode) {args : List UInt8} (h : args.length ≤ 5) :
    argumentArea (commandFrame opc args) = args ++ List.replicate (5 - args.length) 0 := by
  have harg : ∀ k : Fin 5, (commandFrame opc args).get ⟨3 + k, argument_lt k⟩ = args.getD k 0 := by
    intro k
    change (commandFrame opc args)[3 + k.val] = _
    rw [commandFrame_getElem opc args (by omega), payload_arg]
  rw [argumentArea, funext harg]
  rcases args with _ | ⟨a, _ | ⟨b, _ | ⟨c, _ | ⟨d, _ | ⟨e, _ | ⟨f, rest⟩⟩⟩⟩⟩⟩
  all_goals first | rfl | (simp only [List.length_cons] at h; omega)

theorem countOf_commandFrame (opc : TankOpcode) {args : List UInt8} (h : args.length ≤ 5) :
    countOf (commandFrame opc args) = args.length := by
  rw [countOf, commandFrame_header, (header_halves opc h).2, UInt8.toNat_ofNat']
  omega

/-- Every command is read back from its frame. -/
theorem decodeFrame_frame (c : Command) : decodeFrame c.frame = some c := by
  obtain ⟨opcode, args, short⟩ := c
  have hcount := countOf_commandFrame opcode short
  have harea := argumentArea_commandFrame opcode short
  have hopcode : TankOpcode.ofByte? (opcodeOf (commandFrame opcode args)) = some opcode :=
    TankOpcode.ofByte?_eq_some_iff.mpr (opcodeOf_commandFrame opcode short).symm
  change decodeFrame (commandFrame opcode args) = _
  rw [decodeFrame, if_pos (sound_commandFrame opcode args), hopcode]
  simp only [hcount, harea, List.drop_left, List.take_left, Option.bind_eq_bind, Option.bind_some,
    if_true, short, dite_true]

theorem byte_halves (b : UInt8) :
    b = (b &&& (0x0F : UInt8)) ||| UInt8.ofNat ((b >>> 4).toNat <<< 4) := by
  have hall : ∀ n : Fin 256, UInt8.ofNat n =
      (UInt8.ofNat n &&& (0x0F : UInt8)) ||| UInt8.ofNat ((UInt8.ofNat n >>> 4).toNat <<< 4) := by
    decide +kernel
  have hb := hall ⟨b.toNat, b.toNat_lt⟩
  rwa [UInt8.ofNat_toNat] at hb

theorem frame_eq_commandFrame {frame : Frame} {opcode : TankOpcode} (hsound : Sound frame)
    (hopcode : opcode.toByte = opcodeOf frame) (hcount : countOf frame ≤ 5)
    (hpadding : (argumentArea frame).drop (countOf frame) =
      List.replicate (5 - countOf frame) 0) :
    frame = commandFrame opcode ((argumentArea frame).take (countOf frame)) := by
  have hlength : ((argumentArea frame).take (countOf frame)).length = countOf frame := by
    rw [List.length_take]
    exact Nat.min_eq_left hcount
  generalize hargs : (argumentArea frame).take (countOf frame) = args at hlength
  have hshort : args.length ≤ 5 := by omega
  obtain ⟨h0, h1, h9, hsum⟩ := hsound
  obtain ⟨h0', h1', h9', hsum'⟩ := sound_commandFrame opcode args
  have hheader : frame[2] = (commandFrame opcode args)[2] := by
    rw [commandFrame_header, hopcode, hlength]
    exact byte_halves frame[2]
  have harea : argumentArea frame = argumentArea (commandFrame opcode args) := by
    rw [argumentArea_commandFrame opcode hshort, hlength, ← hpadding, ← hargs,
      List.take_append_drop]
  have hargument := congrFun (List.ofFn_injective harea)
  have hbefore : ∀ i : Fin 10, i ≠ 8 → frame[i] = (commandFrame opcode args)[i] := by
    intro i hi
    fin_cases i
    · exact h0.trans h0'.symm
    · exact h1.trans h1'.symm
    · exact hheader
    · exact hargument 0
    · exact hargument 1
    · exact hargument 2
    · exact hargument 3
    · exact hargument 4
    · exact absurd rfl hi
    · exact h9.trans h9'.symm
  have hchecksum : frame[8] = (commandFrame opcode args)[8] := by
    by_contra hne
    obtain ⟨j, -, hj, hdiff⟩ := exists_second_difference (f := fun i : Fin 10 => frame[i])
      (g := fun i : Fin 10 => (commandFrame opcode args)[i]) (i := 8) (hsum.trans hsum'.symm)
      (by decide) hne
    exact hdiff (hbefore j hj)
  apply Vector.ext
  intro k hk
  by_cases hk8 : k = 8
  · subst hk8
    exact hchecksum
  · exact hbefore ⟨k, hk⟩ (fun h => hk8 (congrArg Fin.val h))

/-- A frame that is accepted is the frame of its command. -/
theorem frame_of_decodeFrame {frame : Frame} {c : Command} (h : decodeFrame frame = some c) :
    frame = c.frame := by
  rw [decodeFrame] at h
  split at h
  case isFalse => cases h
  case isTrue hsound =>
    obtain ⟨opcode, hopcode, hrest⟩ := Option.bind_eq_some_iff.mp h
    rw [TankOpcode.ofByte?_eq_some_iff] at hopcode
    split at hrest
    case isFalse => cases hrest
    case isTrue hcount =>
      split at hrest
      case isFalse => cases hrest
      case isTrue hpadding =>
        cases hrest
        exact frame_eq_commandFrame hsound hopcode hcount hpadding

/-- The receiver accepts exactly the frames of the commands. -/
theorem decodeFrame_eq_some_iff {frame : Frame} {c : Command} :
    decodeFrame frame = some c ↔ frame = c.frame := by
  constructor
  · exact frame_of_decodeFrame
  · rintro rfl
    exact decodeFrame_frame c

/-- No frame with one wrong byte is accepted. -/
theorem decodeFrame_of_corrupted (c : Command) (i : Fin 10) {b : UInt8}
    (hb : c.frame.set i b i.isLt ≠ c.frame) : decodeFrame (c.frame.set i b i.isLt) = none := by
  have hwrong : b ≠ c.frame[i] := by
    rintro rfl
    exact hb (Vector.set_getElem_self i.isLt)
  by_contra hsome
  obtain ⟨c', hc'⟩ := Option.ne_none_iff_exists'.mp hsome
  have hframe := frame_of_decodeFrame hc'
  have hget : ∀ j : Fin 10, c'.frame[j] = if j = i then b else c.frame[j] := by
    intro j
    rw [← hframe]
    change (c.frame.set i b i.isLt)[j.val] = _
    rw [Vector.getElem_set]
    simp only [Fin.ext_iff, eq_comm]
    rfl
  by_cases hi : i ∈ summed
  · have hsum := (sum_commandFrame c.opcode c.args).trans
      (sum_commandFrame c'.opcode c'.args).symm
    have hne : c.frame[i] ≠ c'.frame[i] := by
      rw [hget, if_pos rfl]
      exact hwrong.symm
    obtain ⟨j, -, hji, hj⟩ := exists_second_difference hsum hi hne
    apply hj
    change c.frame[j] = c'.frame[j]
    rw [hget, if_neg hji]
  · obtain ⟨h0, h1, h9, -⟩ := sound_commandFrame c.opcode c.args
    obtain ⟨h0', h1', h9', -⟩ := sound_commandFrame c'.opcode c'.args
    have hplaces : i = 0 ∨ i = 1 ∨ i = 9 :=
      (by decide : ∀ i : Fin 10, i ∉ summed → i = 0 ∨ i = 1 ∨ i = 9) i hi
    have hsame : c'.frame[i] = c.frame[i] := by
      rcases hplaces with rfl | rfl | rfl
      · exact h0'.trans h0.symm
      · exact h1'.trans h1.symm
      · exact h9'.trans h9.symm
    rw [hget, if_pos rfl] at hsame
    exact hwrong hsame

/-- The frame of `stop` with a zero for its checksum. -/
theorem decodeFrame_of_corrupted_stop :
    let i : Fin 10 := 8
    decodeFrame (Command.stop.frame.set i 0 i.isLt) = none :=
  decodeFrame_of_corrupted Command.stop 8 (by decide)

/-- The next ten bytes of the link as a frame. -/
def readFrame : Parser UInt8 Unit Command := fun input =>
  if h : 10 ≤ input.length then
    match decodeFrame ⟨(input.take 10).toArray, by simpa using h⟩ with
    | some c => .ok (c, input.drop 10)
    | none => .error ()
  else .error ()

theorem readFrame_frame (c : Command) : Parser.Yields readFrame c.frame.toList c := by
  intro rest
  have hlength : 10 ≤ (c.frame.toList ++ rest).length := by simp
  have htake : (c.frame.toList ++ rest).take 10 = c.frame.toList :=
    List.take_left' c.frame.length_toList
  have hdrop : (c.frame.toList ++ rest).drop 10 = rest :=
    List.drop_left' c.frame.length_toList
  have hframe : (⟨((c.frame.toList ++ rest).take 10).toArray, by simp⟩ : Frame) = c.frame := by
    apply Vector.toList_inj.mp
    simp [htake]
  rw [readFrame, dif_pos hlength, hframe, decodeFrame_frame, hdrop]

end RaspiOrbSlam.Tank
