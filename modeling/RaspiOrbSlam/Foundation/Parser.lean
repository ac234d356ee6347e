import Mathlib.Data.List.Basic
import Mathlib.Control.Basic

/-!
# Parsers on a list of symbols

A parser takes a value off the front of its input and returns what is left, or
fails. `Yields` says which input a value comes from, whatever follows it;
`FixedSize` says that only the length of the input decides between success and
the end-of-input failure. Both are closed under sequencing and repetition.
-/

namespace RaspiOrbSlam.Foundation

universe u v

/-- The same action `n` times in a row. -/
def times {m : Type u → Type v} [Monad m] {α : Type u} (p : m α) : Nat → m (List α)
  | 0 => pure []
  | n + 1 => do
      let a ← p
      let as ← times p n
      return a :: as

/-- A parser returns a value together with the unread rest of its input. -/
abbrev Parser (β ε : Type u) := StateT (List β) (Except ε)

namespace Parser

variable {β ε α γ : Type u}

theorem bind_ok {p : Parser β ε α} {f : α → Parser β ε γ} {input rest : List β} {a : α}
    (h : p input = .ok (a, rest)) : (p >>= f) input = f a rest := by
  change (p input).bind (fun r => f r.1 r.2) = _
  rw [h]
  rfl

theorem bind_error {p : Parser β ε α} {f : α → Parser β ε γ} {input : List β} {e : ε}
    (h : p input = .error e) : (p >>= f) input = .error e := by
  change (p input).bind (fun r => f r.1 r.2) = _
  rw [h]
  rfl

/-- One symbol, or the given failure at the end of the input. -/
def item (eof : ε) : Parser β ε β
  | [] => .error eof
  | b :: rest => .ok (b, rest)

/-- The next `n` symbols, or the given failure when fewer are left. -/
def take (eof : ε) (n : Nat) : Parser β ε (List β) := fun input =>
  if n ≤ input.length then .ok (input.take n, input.drop n) else .error eof

/-- In front of any input, `p` reads exactly `bs` and returns `a`. -/
def Yields (p : Parser β ε α) (bs : List β) (a : α) : Prop :=
  ∀ rest, p (bs ++ rest) = .ok (a, rest)

theorem Yields.pure (a : α) : Yields (pure a : Parser β ε α) [] a :=
  fun _ => rfl

theorem Yields.bind {p : Parser β ε α} {f : α → Parser β ε γ} {bs cs : List β} {a : α} {c : γ}
    (hp : Yields p bs a) (hf : Yields (f a) cs c) : Yields (p >>= f) (bs ++ cs) c := by
  intro rest
  rw [List.append_assoc, bind_ok (hp (cs ++ rest))]
  exact hf rest

/-- A parser followed by a pure function of its value. -/
theorem Yields.map {p : Parser β ε α} {bs : List β} {a : α} (g : α → γ)
    (hp : Yields p bs a) : Yields (g <$> p) bs (g a) := by
  intro rest
  rw [← bind_pure_comp, bind_ok (hp rest)]
  rfl

theorem Yields.item (eof : ε) (b : β) : Yields (item eof) [b] b :=
  fun _ => rfl

theorem Yields.take (eof : ε) (bs : List β) : Yields (take eof bs.length) bs bs := by
  intro rest
  simp [Parser.take]

/-- Reading encodings one after another gives the decoded values in order. -/
theorem Yields.times {δ : Type u} {p : Parser β ε α} {enc : δ → List β} {dec : δ → α}
    (as : List δ) (h : ∀ a ∈ as, Yields p (enc a) (dec a)) :
    Yields (times p as.length) (as.flatMap enc) (as.map dec) := by
  induction as with
  | nil => exact Yields.pure []
  | cons a rest ih =>
      have head := h a (by simp)
      have tail := ih fun b hb => h b (by simp [hb])
      rw [List.flatMap_cons]
      apply head.bind
      simpa only [bind_pure_comp, List.map_cons] using tail.map (List.cons (dec a))

/-- Whether `p` succeeds depends only on `k` symbols being left. -/
structure FixedSize (p : Parser β ε α) (k : Nat) (eof : ε) : Prop where
  reads : ∀ input, k ≤ input.length → ∃ a, p input = .ok (a, input.drop k)
  stops : ∀ input, input.length < k → p input = .error eof

theorem FixedSize.pure (a : α) (eof : ε) : FixedSize (pure a : Parser β ε α) 0 eof where
  reads _ _ := ⟨a, rfl⟩
  stops _ h := absurd h (Nat.not_lt_zero _)

theorem FixedSize.item (eof : ε) : FixedSize (item eof : Parser β ε β) 1 eof where
  reads
    | [], h => by simp at h
    | b :: _, _ => ⟨b, rfl⟩
  stops
    | [], _ => rfl
    | _ :: _, h => by simp at h

theorem FixedSize.bind {p : Parser β ε α} {f : α → Parser β ε γ} {j k : Nat} {eof : ε}
    (hp : FixedSize p j eof) (hf : ∀ a, FixedSize (f a) k eof) :
    FixedSize (p >>= f) (j + k) eof where
  reads input h := by
    obtain ⟨a, ha⟩ := hp.reads input (by omega)
    obtain ⟨c, hc⟩ := (hf a).reads (input.drop j) (by simp; omega)
    exact ⟨c, by rw [bind_ok ha, hc, List.drop_drop]⟩
  stops input h := by
    by_cases hj : j ≤ input.length
    · obtain ⟨a, ha⟩ := hp.reads input hj
      rw [bind_ok ha]
      exact (hf a).stops (input.drop j) (by simp; omega)
    · exact bind_error (hp.stops input (by omega))

theorem FixedSize.map {p : Parser β ε α} {k : Nat} {eof : ε} (g : α → γ)
    (hp : FixedSize p k eof) : FixedSize (g <$> p) k eof := by
  rw [← bind_pure_comp]
  exact hp.bind fun a => FixedSize.pure (g a) eof

theorem FixedSize.times {p : Parser β ε α} {k : Nat} {eof : ε} (hp : FixedSize p k eof)
    (n : Nat) : FixedSize (times p n) (n * k) eof := by
  induction n with
  | zero => simpa [Foundation.times] using FixedSize.pure (β := β) ([] : List α) eof
  | succ n ih =>
      have hsize : (n + 1) * k = k + n * k := by rw [Nat.succ_mul, Nat.add_comm]
      rw [hsize]
      apply hp.bind
      intro a
      simpa only [bind_pure_comp] using ih.map (List.cons a)

end Parser

end RaspiOrbSlam.Foundation
