import RaspiOrbSlam.Protocol.VectorStream

/-!
# Stream operations as parsers

`Simulates f p` states that a stream operation `f` has the outcome of the
parser `p` on the unread bytes, for every position and every shadow offset, and
leaves the stream on the first byte that `p` did not take. Sequencing, byte
reads, block copies and the change of shadow offset around a nested object all
preserve it.
-/

namespace RaspiOrbSlam.Protocol

open Foundation

variable {w : Nat} {α γ : Type}

/-- Parsers of the wire format fail with the faults of the program. -/
abbrev WireParser := Parser UInt8 Fault

/-- The outcome of `f` is the outcome of `p` on the unread bytes. -/
def Simulates (f : StreamM w α) (p : WireParser α) : Prop :=
  ∀ vs : VectorStream w,
    (∃ a k, k ≤ vs.remaining.length ∧
      p vs.remaining = .ok (a, vs.remaining.drop k) ∧ f vs = .ok (a, vs.skip k)) ∨
    ∃ e, p vs.remaining = .error e ∧ f vs = .error e

namespace StreamM

theorem bind_ok {f : StreamM w α} {g : α → StreamM w γ} {vs vs' : VectorStream w} {a : α}
    (h : f vs = .ok (a, vs')) : (f >>= g) vs = g a vs' := by
  change (f vs).bind (fun r => g r.1 r.2) = _
  rw [h]
  rfl

theorem bind_error {f : StreamM w α} {g : α → StreamM w γ} {vs : VectorStream w} {e : Fault}
    (h : f vs = .error e) : (f >>= g) vs = .error e := by
  change (f vs).bind (fun r => g r.1 r.2) = _
  rw [h]
  rfl

/-- A decode between two changes of the shadow offset, from behind the first of them. -/
theorem shadowed_eq (f : StreamM w α) (vs : VectorStream w) :
    (do
      let pos ← VectorStream.position
      let old ← VectorStream.setShadowOffset pos
      let a ← f
      let _ ← VectorStream.setShadowOffset old
      return a : StreamM w α) vs =
    (do
      let a ← f
      let _ ← VectorStream.setShadowOffset vs.mShadowOffset
      return a : StreamM w α) vs.nested := rfl

theorem shadowed_ok {f : StreamM w α} {vs : VectorStream w} {a : α} {k : Nat}
    (h : f vs.nested = .ok (a, vs.nested.skip k)) :
    (do
      let a ← f
      let _ ← VectorStream.setShadowOffset vs.mShadowOffset
      return a : StreamM w α) vs.nested = .ok (a, vs.skip k) := by
  rw [bind_ok h, bind_ok (vs.setShadowOffset_nested k)]
  rfl

end StreamM

namespace Simulates

theorem pure (a : α) : Simulates (pure a : StreamM w α) (pure a) := by
  intro vs
  exact Or.inl ⟨a, 0, Nat.zero_le _, by simp; rfl, by simp; rfl⟩

theorem throw (e : Fault) :
    Simulates (throw e : StreamM w α) (throw e) :=
  fun _ => Or.inr ⟨e, rfl, rfl⟩

theorem throw_bind (e : Fault) {g : α → StreamM w γ} {δ : Type} {q : δ → WireParser γ} :
    Simulates (MonadExcept.throw e >>= g) (MonadExcept.throw e >>= q) :=
  fun _ => Or.inr ⟨e, rfl, rfl⟩

/-- Sequencing, when only the values that `p` returns are passed on. -/
theorem bind_of {f : StreamM w α} {p : WireParser α} {g : α → StreamM w γ}
    {q : α → WireParser γ} (hf : Simulates f p)
    (hg : ∀ input a rest, p input = .ok (a, rest) → Simulates (g a) (q a)) :
    Simulates (f >>= g) (p >>= q) := by
  intro vs
  rcases hf vs with ⟨a, k, hk, hp, hf⟩ | ⟨e, hp, hf⟩
  · have hrem := vs.skip_remaining hk
    have hgv := hg _ _ _ hp (vs.skip k)
    rw [hrem] at hgv
    rw [Parser.bind_ok hp, StreamM.bind_ok hf]
    rcases hgv with ⟨c, j, hj, hq, hg⟩ | ⟨e, hq, hg⟩
    · refine Or.inl ⟨c, k + j, ?_, ?_, ?_⟩
      · rw [List.length_drop] at hj
        omega
      · rw [hq, List.drop_drop]
      · rw [hg, VectorStream.skip_skip]
    · exact Or.inr ⟨e, hq, hg⟩
  · exact Or.inr ⟨e, Parser.bind_error hp, StreamM.bind_error hf⟩

theorem bind {f : StreamM w α} {p : WireParser α} {g : α → StreamM w γ}
    {q : α → WireParser γ} (hf : Simulates f p) (hg : ∀ a, Simulates (g a) (q a)) :
    Simulates (f >>= g) (p >>= q) :=
  hf.bind_of fun _ a _ _ => hg a

theorem map {f : StreamM w α} {p : WireParser α} (g : α → γ) (hf : Simulates f p) :
    Simulates (g <$> f) (g <$> p) := by
  rw [← bind_pure_comp, ← bind_pure_comp]
  exact hf.bind fun a => pure (g a)

theorem times {f : StreamM w α} {p : WireParser α} (hf : Simulates f p) (n : Nat) :
    Simulates (times f n) (times p n) := by
  induction n with
  | zero => exact pure []
  | succ n ih => exact hf.bind fun a => ih.bind fun as => pure (a :: as)

theorem ite {c : Prop} [Decidable c] {f g : StreamM w α} {p q : WireParser α}
    (hf : c → Simulates f p) (hg : ¬c → Simulates g q) :
    Simulates (if c then f else g) (if c then p else q) := by
  by_cases h : c
  · simpa only [if_pos h] using hf h
  · simpa only [if_neg h] using hg h

/-- Reading a byte is taking the first unread byte. -/
theorem get : Simulates (VectorStream.get (w := w)) (Parser.item .outOfBounds) := by
  intro vs
  have hget : vs.at? vs.mPosition = vs.remaining[0]? := by
    simp [VectorStream.at?, VectorStream.remaining, VectorStream.index]
  cases hrem : vs.remaining with
  | nil =>
      refine Or.inr ⟨.outOfBounds, rfl, ?_⟩
      simp [VectorStream.get, hget, hrem]
  | cons b rest =>
      refine Or.inl ⟨b, 1, by simp, rfl, ?_⟩
      simp [VectorStream.get, hget, hrem, VectorStream.skip]

/-- `curr`, `std::copy` and `advance` together take a block of bytes. -/
theorem block (n : Nat) :
    Simulates (do
        let first ← VectorStream.curr (w := w)
        let bytes ← VectorStream.copy first n
        VectorStream.advance (BitVec.ofNat w n)
        return bytes)
      (Parser.take .outOfBounds n) := by
  intro vs
  have hlen : vs.remaining.length = vs.mData.bytes.length - vs.index := by
    simp [VectorStream.remaining]
  rw [StreamM.bind_ok (show VectorStream.curr vs = .ok (vs.index, vs) from rfl)]
  by_cases hn : n ≤ vs.remaining.length
  · refine Or.inl ⟨vs.remaining.take n, n, hn, if_pos hn, ?_⟩
    have hcopy : VectorStream.copy vs.index n vs = .ok (vs.remaining.take n, vs) :=
      if_pos (hlen ▸ hn)
    rw [StreamM.bind_ok hcopy]
    rfl
  · refine Or.inr ⟨.outOfBounds, if_neg hn, ?_⟩
    exact StreamM.bind_error (if_neg (hlen ▸ hn))

/-- A decode between two changes of the shadow offset that restore it. -/
theorem shadowed {f : StreamM w α} {p : WireParser α} (hf : Simulates f p) :
    Simulates (do
        let pos ← VectorStream.position
        let old ← VectorStream.setShadowOffset pos
        let a ← f
        let _ ← VectorStream.setShadowOffset old
        return a) p := by
  intro vs
  rw [StreamM.shadowed_eq, ← vs.nested_remaining]
  rcases hf vs.nested with ⟨a, k, hk, hp, hf⟩ | ⟨e, hp, hf⟩
  · exact Or.inl ⟨a, k, hk, hp, StreamM.shadowed_ok hf⟩
  · exact Or.inr ⟨e, hp, StreamM.bind_error hf⟩

/-- What a parser yields in front of any bytes, the stream operation yields. -/
theorem of_yields {f : StreamM w α} {p : WireParser α} (hf : Simulates f p)
    {bs rest : List UInt8} {a : α} (hp : Parser.Yields p bs a) {vs : VectorStream w}
    (hvs : vs.remaining = bs ++ rest) : f vs = .ok (a, vs.skip bs.length) := by
  have hyield := hp rest
  rw [← hvs] at hyield
  rcases hf vs with ⟨a', k, hk, hp', hf'⟩ | ⟨e, hp', _⟩
  · rw [hyield] at hp'
    obtain ⟨rfl, hrest⟩ := Prod.mk.inj (Except.ok.inj hp')
    have hlen := congrArg List.length hrest
    simp only [List.length_drop, hvs, List.length_append] at hk hlen
    rw [hf', show k = bs.length by omega]
  · rw [hyield] at hp'
    cases hp'

end Simulates

end RaspiOrbSlam.Protocol
