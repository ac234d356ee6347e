import RaspiOrbSlam.ControlPage.Commands
import RaspiOrbSlam.Server.ClientHandler
import Mathlib.Tactic.Linarith

/-!
# The page's messages at the server

A message holds each speed modulo 256, and the server reads the byte back as a
signed number. Axis values fit; of the keys only the doubled sum of `S` with `A`
or `D` does not.
-/

namespace RaspiOrbSlam.ControlPage

open Foundation Protocol Server

variable {w : Nat} (pf : Platform w)

theorem length_message_lt (pf : Platform w) (left right : Int) :
    (message left right).length < 2 ^ w :=
  calc
    4 < 2 ^ 32 := by decide
    _ ≤ 2 ^ w := Nat.pow_le_pow_right (by decide) pf.le_width

/-- The message as the websocket delivers it. -/
def delivered (left right : Int) : ByteVector w :=
  ⟨message left right, length_message_lt pf left right⟩

/-- The server hands a packet with these very speeds to `handlePacket`. -/
def Arrives (left right : Int) : Prop :=
  ∃ pkt : MovePacket,
    onBinaryMessage pf (delivered pf left right) = .ok (.handlePacket (.move pkt)) ∧
    pkt.mLeftSpeed.toInt = left ∧ pkt.mRightSpeed.toInt = right

/-- The numbers of an `int8_t`. -/
def InByte (n : Int) : Prop := -128 ≤ n ∧ n ≤ 127

theorem toUint8_toInt8 (n : Int) : (toUint8 n).toInt8.toInt = n.bmod 256 := by
  have hnat : ((n % 256).toNat : Int) = n % 256 := Int.toNat_of_nonneg (by omega)
  change (BitVec.ofNat 8 (n % 256).toNat).toInt = _
  rw [BitVec.toInt_ofNat', hnat]
  exact Int.emod_bmod ..

theorem bmod_eq_iff (n : Int) : n.bmod 256 = n ↔ InByte n := by
  rw [InByte, Int.bmod_def]
  split <;> omega

/-- The server reads the two bytes behind the opcode. -/
theorem onBinaryMessage_delivered (left right : Int) :
    onBinaryMessage pf (delivered pf left right) =
      .ok (.handlePacket (.move ⟨(toUint8 left).toInt8, (toUint8 right).toInt8⟩)) := by
  have hbytes : (delivered pf left right).bytes =
      PacketOpcode.move.toByte :: [toUint8 left, toUint8 right, 0] := rfl
  rw [onBinaryMessage_cons pf hbytes, if_pos rfl]
  rfl

theorem arrives_iff (left right : Int) : Arrives pf left right ↔ InByte left ∧ InByte right := by
  rw [Arrives, onBinaryMessage_delivered, ← bmod_eq_iff, ← bmod_eq_iff, ← toUint8_toInt8,
    ← toUint8_toInt8]
  constructor
  · rintro ⟨pkt, hpkt, hleft, hright⟩
    cases hpkt
    exact ⟨hleft, hright⟩
  · rintro ⟨hleft, hright⟩
    exact ⟨_, rfl, hleft, hright⟩

/-- `f` doubles a fast reverse turn. -/
def Overdriven (keys : Key → Bool) : Prop :=
  keys .f = true ∧ keys .S = true ∧ keys .W = false ∧ (keys .A = true ∨ keys .D = true)

theorem speeds_inByte_iff (keys : Key → Bool) :
    InByte (speeds keys).1 ∧ InByte (speeds keys).2 ↔ ¬Overdriven keys := by
  have hall : ∀ a s d w A S D W f : Bool,
      let base := if A || S || D || W then drive 60 A S D W else drive 30 a s d w
      let sum := if f then (base.1 * 2, base.2 * 2) else base
      (-128 ≤ sum.1 ∧ sum.1 ≤ 127) ∧ -128 ≤ sum.2 ∧ sum.2 ≤ 127 ↔
        ¬(f = true ∧ S = true ∧ W = false ∧ (A = true ∨ D = true)) := by
    decide +kernel
  rw [speeds_eq]
  exact hall _ _ _ _ _ _ _ _ _

theorem axisSpeed_bounds (x : Axis) : -100 ≤ axisSpeed x ∧ axisSpeed x ≤ 100 := by
  obtain ⟨x, hlow, hhigh⟩ := x
  have hle : ⌊x * 100 + 1 / 2⌋ ≤ 100 := by
    apply Int.le_of_lt_add_one
    apply Int.floor_lt.mpr
    push_cast
    linarith
  have hge : -100 ≤ ⌊x * 100 + 1 / 2⌋ := by
    apply Int.le_floor.mpr
    push_cast
    linarith
  change -100 ≤ -⌊x * 100 + 1 / 2⌋ ∧ -⌊x * 100 + 1 / 2⌋ ≤ 100
  omega

/-- Every message built so far arrives as it was meant. -/
def AllArrive (p : Page) : Prop := ∀ m ∈ p.sent, Arrives pf m.1 m.2

/-- The axis values in use fit, and the mask is that of the keys. -/
structure Consistent (p : Page) : Prop where
  mask : p.MaskCurrent
  left : InByte p.lastLeft
  right : InByte p.lastRight

/-- The event does not lead to a message whose doubled speeds leave the byte. -/
def StaysInByte (p : Page) : Event → Prop
  | .key (.keydown key) => key ≠ .f → p.keys key = false → ¬Overdriven (record p.keys key true)
  | .key (.keyup key) => key ≠ .f → p.keys key = true → ¬Overdriven (record p.keys key false)
  | _ => True

theorem inByte_axisSpeed (x : Axis) : InByte (axisSpeed x) := by
  obtain ⟨hlow, hhigh⟩ := axisSpeed_bounds x
  exact ⟨by omega, by omega⟩

/-- One message more, sent by the page in some state with the same variables. -/
theorem allArrive_sendData_iff (left right : Int) (p : Page) :
    AllArrive pf (sendData left right p) ↔
      AllArrive pf p ∧ InByte left ∧ InByte right := by
  rw [← arrives_iff pf]
  constructor
  · intro h
    exact ⟨fun m hm => h m (List.mem_append_left _ hm),
      h (left, right) (List.mem_append_right _ (List.mem_singleton.mpr rfl))⟩
  · rintro ⟨h, hnew⟩ m hm
    rcases List.mem_append.mp hm with hm | hm
    · exact h m hm
    · rw [List.mem_singleton.mp hm]
      exact hnew

/-- What a poll keeps: its state is consistent, and it adds only messages that arrive. -/
structure PollKeeps (p p' : Page) : Prop where
  consistent : Consistent p → Consistent p'
  arrive : ∀ {w : Nat} (pf : Platform w), Consistent p → (AllArrive pf p' ↔ AllArrive pf p)

theorem PollKeeps.refl (p : Page) : PollKeeps p p := ⟨id, fun _ _ => Iff.rfl⟩

theorem PollKeeps.trans {p p' p'' : Page} (h : PollKeeps p p') (h' : PollKeeps p' p'') :
    PollKeeps p p'' where
  consistent := h'.consistent ∘ h.consistent
  arrive pf hp := (h'.arrive pf (h.consistent hp)).trans (h.arrive pf hp)

theorem pollKeeps_readAxis (p : Page) (i : Nat) (x : Axis) : PollKeeps p (readAxis p i x) := by
  have hx := inByte_axisSpeed x
  rw [readAxis]
  split
  · dsimp only
    split
    · refine ⟨fun hp => ⟨hp.mask, hx, hp.right⟩, fun pf hp => ?_⟩
      rw [allArrive_sendData_iff]
      exact and_iff_left ⟨hx, hp.right⟩
    · exact PollKeeps.refl p
  · split
    · dsimp only
      split
      · refine ⟨fun hp => ⟨hp.mask, hp.left, hx⟩, fun pf hp => ?_⟩
        rw [allArrive_sendData_iff]
        exact and_iff_left ⟨hp.left, hx⟩
      · exact PollKeeps.refl p
    · exact PollKeeps.refl p

theorem pollKeeps_readAxes (p : Page) (i : Nat) (axes : List Axis) :
    PollKeeps p (readAxes p i axes) := by
  induction axes generalizing p i with
  | nil => exact PollKeeps.refl p
  | cons x rest ih => exact (pollKeeps_readAxis p i x).trans (ih _ _)

theorem pollKeeps_updateStatus (p : Page) (controllers : List (List Axis)) :
    PollKeeps p (updateStatus p controllers) := by
  induction controllers generalizing p with
  | nil => exact PollKeeps.refl p
  | cons axes rest ih => exact (pollKeeps_readAxes p 0 axes).trans (ih _)

/-- A key event sends the speeds of the keys when the mask has changed. -/
theorem allArrive_onKey_iff {p : Page} (hmask : p.MaskCurrent) (key : Key) (down : Bool) :
    AllArrive pf (p.onKey key down) ↔
      AllArrive pf p ∧ (key ≠ .f → p.keys key ≠ down → ¬Overdriven (record p.keys key down)) := by
  by_cases hsame : key = .f ∨ p.keys key = down
  · rw [onKey_of_same hmask hsame]
    refine (and_iff_left ?_).symm
    intro hf hkey
    exact (hsame.elim hf hkey).elim
  · rw [onKey_of_changed hmask hsame, allArrive_sendData_iff, speeds_inByte_iff]
    obtain ⟨hf, hkey⟩ := not_or.mp hsame
    exact and_congr_right fun _ => ⟨fun h _ _ => h, fun h => h hf hkey⟩

theorem consistent_onKey {p : Page} (hp : Consistent p) (key : Key) (down : Bool) :
    InByte (p.onKey key down).lastLeft ∧ InByte (p.onKey key down).lastRight := by
  by_cases hsame : key = .f ∨ p.keys key = down
  · rw [onKey_of_same hp.mask hsame]
    exact ⟨hp.left, hp.right⟩
  · rw [onKey_of_changed hp.mask hsame]
    exact ⟨hp.left, hp.right⟩

theorem consistent_onEvent {p : Page} (hp : Consistent p) (e : Event) :
    Consistent (p.onEvent e) := by
  cases e with
  | key e =>
      have hmask := maskCurrent_onKeyEvent hp.mask e
      cases e with
      | keydown key =>
          obtain ⟨hleft, hright⟩ := consistent_onKey hp key true
          exact ⟨hmask, hleft, hright⟩
      | keyup key =>
          obtain ⟨hleft, hright⟩ := consistent_onKey hp key false
          exact ⟨hmask, hleft, hright⟩
      | timer => exact ⟨hmask, hp.left, hp.right⟩
  | poll controllers => exact (pollKeeps_updateStatus p controllers).consistent hp

/-- One event keeps all messages in the byte exactly if it does not overdrive. -/
theorem allArrive_onEvent_iff {p : Page} (hp : Consistent p) (e : Event) :
    AllArrive pf (p.onEvent e) ↔ AllArrive pf p ∧ StaysInByte p e := by
  cases e with
  | key e =>
      cases e with
      | keydown key =>
          apply (allArrive_onKey_iff pf hp.mask key true).trans
          rw [StaysInByte, ne_eq (p.keys key), Bool.not_eq_true]
      | keyup key =>
          apply (allArrive_onKey_iff pf hp.mask key false).trans
          rw [StaysInByte, ne_eq (p.keys key), Bool.not_eq_false]
      | timer => exact (and_iff_left trivial).symm
  | poll controllers =>
      apply ((pollKeeps_updateStatus p controllers).arrive pf hp).trans
      exact (and_iff_left trivial).symm

/-- Every message of a run arrives with its speeds exactly if no event of the run
leads to doubled speeds outside the byte. -/
theorem messages_arrive_iff (events : List Event) :
    (∀ m ∈ (after Page.onEvent Page.loaded events).sent, Arrives pf m.1 m.2) ↔
      StepsMeet Page.onEvent StaysInByte Page.loaded events := by
  have hloaded : Consistent Page.loaded :=
    ⟨maskCurrent_loaded, ⟨by decide, by decide⟩, ⟨by decide, by decide⟩⟩
  have hnone : AllArrive pf Page.loaded := fun m hm => nomatch hm
  refine (holdsAtEnd_iff (fun p e hp => consistent_onEvent hp e)
    (fun p e hp => allArrive_onEvent_iff pf hp e) hloaded events).trans ?_
  exact and_iff_right hnone

/-- With `f`, `S` and `D` down the page computes `(-240, -120)`; the server drives
the left track forward. -/
theorem reverse_turn_arrives_forward :
    let events : List Event := [.key (.keydown .f), .key (.keydown .S), .key (.keydown .D)]
    (after Page.onEvent Page.loaded events).sent = [(-120, -120), (-240, -120)] ∧
      onBinaryMessage armhf (delivered armhf (-240) (-120)) =
        .ok (.handlePacket (.move ⟨16, -120⟩)) ∧
      ¬Arrives armhf (-240) (-120) := by
  intro events
  refine ⟨by decide, onBinaryMessage_delivered armhf (-240) (-120), ?_⟩
  rw [arrives_iff]
  rintro ⟨⟨hlow, _⟩, _⟩
  omega

end RaspiOrbSlam.ControlPage
