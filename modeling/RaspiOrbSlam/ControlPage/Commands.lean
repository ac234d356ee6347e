import RaspiOrbSlam.ControlPage.Page

/-!
# The last command and the keys

`sendUpdate` sends when the mask has changed. The speeds also depend on the key
`f`, which is not in the mask, and the timer clears the keys without sending.
-/

namespace RaspiOrbSlam.ControlPage

open Foundation

/-- The sum of the contributions of four keys, each worth `unit`. -/
def drive (unit : Int) (a s d w : Bool) : Int × Int :=
  (unit * (w.toInt - s.toInt - d.toInt), unit * (w.toInt - s.toInt - a.toInt))

/-- One of the keys with a capital letter is down. -/
def fast (keys : Key → Bool) : Bool := keys .A || keys .S || keys .D || keys .W

/-- The speeds before `f` doubles them. -/
def baseSpeeds (keys : Key → Bool) : Int × Int :=
  if fast keys then drive 60 (keys .A) (keys .S) (keys .D) (keys .W)
  else drive 30 (keys .a) (keys .s) (keys .d) (keys .w)

theorem mask_and_eq_zero_iff (keys : Key → Bool) : mask keys &&& 0xf0 = 0 ↔ fast keys = false := by
  have hall : ∀ a s d w A S D W : Bool,
      ((if a then 1 else 0) + (if s then 2 else 0) + (if d then 4 else 0) + (if w then 8 else 0) +
        (if A then 16 else 0) + (if S then 32 else 0) + (if D then 64 else 0) +
        (if W then 128 else 0)) &&& 0xf0 = 0 ↔ (A || S || D || W) = false := by
    decide +kernel
  exact hall _ _ _ _ _ _ _ _

theorem addIf_eq (down : Bool) (left right : Int) (sum : Int × Int) :
    addIf down left right sum = (sum.1 + left * down.toInt, sum.2 + right * down.toInt) := by
  cases down <;> simp [addIf]

theorem speeds_eq (keys : Key → Bool) :
    speeds keys =
      if keys .f then ((baseSpeeds keys).1 * 2, (baseSpeeds keys).2 * 2) else baseSpeeds keys := by
  simp only [speeds, mask_and_eq_zero_iff, baseSpeeds, addIf_eq, drive]
  cases hfast : fast keys with
  | true =>
      simp only [Bool.true_eq_false, if_false, if_true]
      congr 2 <;> ring_nf
  | false =>
      obtain ⟨⟨⟨hA, hS⟩, hD⟩, hW⟩ : ((keys .A = false ∧ keys .S = false) ∧ keys .D = false) ∧
          keys .W = false := by simpa [fast] using hfast
      simp only [hA, hS, hD, hW, if_true, Bool.false_eq_true, if_false, Bool.toInt_false]
      congr 2 <;> ring_nf

/-- `f` doubles. -/
theorem speeds_record_f (keys : Key → Bool) (down : Bool) :
    speeds (record keys .f down) =
      if down then ((baseSpeeds keys).1 * 2, (baseSpeeds keys).2 * 2) else baseSpeeds keys := by
  rw [speeds_eq]
  rfl

/-- The contributions of four keys cancel out. -/
def Balanced (a s d w : Bool) : Prop := a = d ∧ if a then w = true ∧ s = false else w = s

/-- The keys that count cancel out: the capital letters if one of them is down,
else the small ones. -/
def Idle (keys : Key → Bool) : Prop :=
  if fast keys then Balanced (keys .A) (keys .S) (keys .D) (keys .W)
  else Balanced (keys .a) (keys .s) (keys .d) (keys .w)

theorem drive_eq_zero_iff {unit : Int} (hunit : unit ≠ 0) (a s d w : Bool) :
    drive unit a s d w = (0, 0) ↔ Balanced a s d w := by
  have hzero (n : Int) : unit * n = 0 ↔ n = 0 := by simp [hunit]
  rw [drive, Prod.mk.injEq, hzero, hzero, Balanced]
  revert a s d w
  decide

theorem baseSpeeds_eq_zero_iff (keys : Key → Bool) : baseSpeeds keys = (0, 0) ↔ Idle keys := by
  rw [baseSpeeds, Idle]
  split
  · exact drive_eq_zero_iff (by decide) _ _ _ _
  · exact drive_eq_zero_iff (by decide) _ _ _ _

theorem mask_record_iff (keys : Key → Bool) (k : Key) (down : Bool) :
    mask (record keys k down) = mask keys ↔ k = .f ∨ keys k = down := by
  cases k <;> cases down <;> simp [mask, record]

theorem record_of_eq {keys : Key → Bool} {k : Key} {down : Bool} (h : keys k = down) :
    record keys k down = keys := by
  ext k'
  by_cases hk : k' = k
  · rw [record, if_pos hk, hk, h]
  · rw [record, if_neg hk]

/-- The remembered mask is that of the keys. -/
def Page.MaskCurrent (p : Page) : Prop := p.lastState = mask p.keys

theorem maskCurrent_loaded : Page.loaded.MaskCurrent := by
  unfold Page.MaskCurrent
  decide

/-- A key event that leaves the mask as it is only records the key. -/
theorem onKey_of_same {p : Page} (hmask : p.MaskCurrent) {key : Key} {down : Bool}
    (h : key = .f ∨ p.keys key = down) :
    p.onKey key down = { p with keys := record p.keys key down } := by
  have hsame := (mask_record_iff p.keys key down).mpr h
  exact if_pos (hmask.trans hsame.symm)

/-- A key event that changes the mask sends the speeds of the keys. -/
theorem onKey_of_changed {p : Page} (hmask : p.MaskCurrent) {key : Key} {down : Bool}
    (h : ¬(key = .f ∨ p.keys key = down)) :
    p.onKey key down =
      sendData (speeds (record p.keys key down)).1 (speeds (record p.keys key down)).2
        { p with
          keys := record p.keys key down
          lastState := mask (record p.keys key down) } := by
  refine if_neg fun hsame => h ?_
  exact (mask_record_iff p.keys key down).mp (hmask.symm.trans hsame).symm

theorem maskCurrent_onKeyEvent {p : Page} (hmask : p.MaskCurrent) (e : KeyEvent) :
    (p.onKeyEvent e).MaskCurrent := by
  have hkey (key : Key) (down : Bool) : (p.onKey key down).MaskCurrent := by
    by_cases hsame : key = .f ∨ p.keys key = down
    · rw [onKey_of_same hmask hsame]
      exact hmask.trans ((mask_record_iff p.keys key down).mpr hsame).symm
    · rw [onKey_of_changed hmask hsame]
      rfl
  cases e with
  | keydown key => exact hkey key true
  | keyup key => exact hkey key false
  | timer => rfl

/-- Changing `f` leaves the speeds as they are only if they are zero. -/
theorem speeds_record_f_iff (keys : Key → Bool) (down : Bool) :
    speeds (record keys .f down) = speeds keys ↔ (keys .f ≠ down → Idle keys) := by
  have hdouble : ((baseSpeeds keys).1 * 2, (baseSpeeds keys).2 * 2) = baseSpeeds keys ↔
      baseSpeeds keys = (0, 0) := by
    simp only [Prod.ext_iff]
    omega
  rw [speeds_record_f, speeds_eq, ← baseSpeeds_eq_zero_iff, ← hdouble]
  cases keys .f <;> cases down <;> simp [eq_comm]

/-- The last pair of speeds passed to `sendData`. -/
def Page.lastSpeeds (p : Page) : Int × Int := p.sent.getLast?.getD (0, 0)

/-- The last command is the one of the keys that are recorded as down. -/
def Page.Follows (p : Page) : Prop := p.lastSpeeds = speeds p.keys

/-- The event does not change the speeds behind the back of `sendUpdate`: `f`
changes only while the other keys cancel out, and so does the timer tick. -/
def ChangesOpenly (p : Page) : KeyEvent → Prop
  | .keydown key => key = .f → p.keys .f = false → Idle p.keys
  | .keyup key => key = .f → p.keys .f = true → Idle p.keys
  | .timer => Idle p.keys

/-- A key event keeps up with the keys unless `sendUpdate` misses a change of `f`. -/
theorem follows_onKey_iff {p : Page} (hmask : p.MaskCurrent) (h : p.Follows)
    (key : Key) (down : Bool) :
    (p.onKey key down).Follows ↔ (key = .f → p.keys .f ≠ down → Idle p.keys) := by
  by_cases hsame : key = .f ∨ p.keys key = down
  · rw [onKey_of_same hmask hsame]
    change p.lastSpeeds = speeds (record p.keys key down) ↔ _
    rw [h]
    rcases hsame with rfl | hkey
    · rw [eq_comm, speeds_record_f_iff]
      exact ⟨fun hidle _ => hidle, fun hidle => hidle rfl⟩
    · rw [record_of_eq hkey]
      refine ⟨?_, fun _ => rfl⟩
      rintro - rfl hne
      exact absurd hkey hne
  · rw [onKey_of_changed hmask hsame]
    refine ⟨fun _ hf => absurd (Or.inl hf) hsame, ?_⟩
    intro _
    simp [Page.Follows, Page.lastSpeeds, sendData]

/-- The timer keeps up with the keys if they asked for no speed. -/
theorem follows_timer_iff {p : Page} (h : p.Follows) :
    (p.onKeyEvent .timer).Follows ↔ Idle p.keys := by
  have hzero : speeds (fun _ => false) = (0, 0) := by decide
  have hspeeds : speeds p.keys = (0, 0) ↔ baseSpeeds p.keys = (0, 0) := by
    rw [speeds_eq]
    split
    · simp only [Prod.ext_iff]
      omega
    · rfl
  change p.lastSpeeds = speeds (fun _ => false) ↔ _
  rw [hzero, h, hspeeds, baseSpeeds_eq_zero_iff]

/-- The last command is the one of the keys after every event of a run exactly
if no event of the run changes the speeds behind the back of `sendUpdate`. -/
theorem commands_follow_keys_iff (events : List KeyEvent) :
    (∀ first, first <+: events → (after Page.onKeyEvent Page.loaded first).Follows) ↔
      StepsMeet Page.onKeyEvent ChangesOpenly Page.loaded events := by
  have hmask : ∀ (p : Page) (e : KeyEvent), p.MaskCurrent → (p.onKeyEvent e).MaskCurrent :=
    fun _ e hp => maskCurrent_onKeyEvent hp e
  have hloaded : Page.loaded.Follows := by
    unfold Page.Follows
    decide
  refine holdsThroughout_iff hmask ?_ maskCurrent_loaded hloaded events
  intro p e hmask h
  cases e with
  | keydown key =>
      apply (follows_onKey_iff hmask h key true).trans
      rw [ChangesOpenly, ne_eq, Bool.not_eq_true]
  | keyup key =>
      apply (follows_onKey_iff hmask h key false).trans
      rw [ChangesOpenly, ne_eq, Bool.not_eq_false]
  | timer => exact follows_timer_iff h

/-- After the timer has cleared the keys their release sends nothing: the tank
drives on. Neither does `f`, although it doubles the speeds. -/
theorem commands_miss_timer_and_f :
    let released := after Page.onKeyEvent Page.loaded [.keydown .w, .timer, .keyup .w]
    let doubled := after Page.onKeyEvent Page.loaded [.keydown .w, .keydown .f]
    (released.lastSpeeds = (30, 30) ∧ speeds released.keys = (0, 0) ∧
        (∀ k, released.keys k = false) ∧ ¬released.Follows) ∧
      doubled.lastSpeeds = (30, 30) ∧ speeds doubled.keys = (60, 60) ∧ ¬doubled.Follows := by
  intro released doubled
  refine ⟨⟨by decide, by decide, ?_, ?_⟩, by decide, by decide, ?_⟩
  · intro k
    cases k <;> rfl
  · unfold Page.Follows
    decide
  · unfold Page.Follows
    decide

end RaspiOrbSlam.ControlPage
