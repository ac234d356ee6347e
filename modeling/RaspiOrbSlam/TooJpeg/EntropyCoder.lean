import RaspiOrbSlam.TooJpeg.Codewords
import RaspiOrbSlam.TooJpeg.Huffman
import Mathlib.Data.List.Induction

/-! # Entropy coding of a block

The first coefficient is written as the difference to the previous block's, the
others as pairs of a run of zeros and a value. Runs of sixteen zeros have a code
of their own, and so has the end of the block when zeros follow. -/

namespace RaspiOrbSlam.TooJpeg

open Foundation

/-- Codes go to the writer; a fault ends the encoding. -/
abbrev Writing := StateT BitWriter (Except Fault)

/-- `writer << code`. -/
def send (code : BitCode) : Writing Unit := modify fun w => w.put code

/-- An element of an array of codes. -/
def entry {ι : Type} (table : ι → Option BitCode) (i : ι) : Writing BitCode :=
  match table i with
  | some code => pure code
  | none => throw .uninitialised

/-- The loop `while (quantized[i] == 0)`, which ends with the offset and the index of the
next value that is not zero. -/
def skipZeros (huffmanAC : HuffmanTable) (quantized : Nat → Int16) (offset i : Nat) :
    Writing { found : Nat × Nat // i ≤ found.2 } :=
  if i < 64 then
    if quantized i = 0 then
      if 0xF0 < offset + 0x10 then do
        send (← entry huffmanAC 0xF0)
        let found ← skipZeros huffmanAC quantized 0 (i + 1)
        return ⟨found.1, Nat.le_of_succ_le found.2⟩
      else do
        let found ← skipZeros huffmanAC quantized (offset + 0x10) (i + 1)
        return ⟨found.1, Nat.le_of_succ_le found.2⟩
    else return ⟨(offset, i), le_rfl⟩
  else throw .outOfBounds
termination_by 64 - i

/-- The loop over the coefficients up to the last one that is not zero. -/
def encodeACs (huffmanAC : HuffmanTable) (codewords : Codewords) (quantized : Nat → Int16)
    (posNonZero i : Nat) : Writing Unit :=
  if i ≤ posNonZero then do
    let ⟨(offset, next), reached⟩ ← skipZeros huffmanAC quantized 0 i
    let encoded ← entry codewords (quantized next).toInt
    send (← entry huffmanAC (offset + encoded.numBits.toNat))
    send encoded
    encodeACs huffmanAC codewords quantized posNonZero (next + 1)
  else return ()
termination_by posNonZero + 1 - i
decreasing_by
  change i ≤ next at reached
  omega

/-- The difference of the first coefficient to the previous block's. -/
def encodeDC (diff : Int32) (huffmanDC : HuffmanTable) (codewords : Codewords) : Writing Unit :=
  if diff = 0 then do
    send (← entry huffmanDC 0x00)
  else do
    let bits ← entry codewords diff.toInt
    send (← entry huffmanDC bits.numBits.toNat)
    send bits

/-- The end of the block, when there are trailing zeros. -/
def encodeEnd (huffmanAC : HuffmanTable) (posNonZero : Nat) : Writing Unit :=
  if posNonZero < 8 * 8 - 1 then do
    send (← entry huffmanAC 0x00)
  else return ()

/-- `encodeBlock` from the quantized coefficients on. -/
def encodeCoefficients (DC : Int32) (quantized : Nat → Int16) (posNonZero : Nat) (lastDC : Int16)
    (huffmanDC huffmanAC : HuffmanTable) (codewords : Codewords) : Writing Int16 := do
  encodeDC (DC - lastDC.toInt32) huffmanDC codewords
  encodeACs huffmanAC codewords quantized posNonZero 1
  encodeEnd huffmanAC posNonZero
  return DC.toInt16

/-- From any writer on, `m` sends exactly these codes and returns `a`. -/
def Writes {α : Type} (m : Writing α) (codes : List BitCode) (a : α) : Prop :=
  ∀ w : BitWriter, m w = .ok (a, w.putAll codes)

namespace Writes

variable {α β : Type}

theorem pure (a : α) : Writes (pure a) [] a := fun _ => rfl

theorem send (code : BitCode) : Writes (send code) [code] () := fun _ => rfl

theorem bind {m : Writing α} {f : α → Writing β} {front back : List BitCode} {a : α} {b : β}
    (hm : Writes m front a) (hf : Writes (f a) back b) : Writes (m >>= f) (front ++ back) b := by
  intro w
  change (m w).bind (fun r => f r.1 r.2) = _
  rw [hm w, BitWriter.putAll_append]
  exact hf (w.putAll front)

/-- A pure function of the result. -/
theorem bindPure {m : Writing α} {codes : List BitCode} {a : α} (hm : Writes m codes a)
    (g : α → β) : Writes (do return g (← m)) codes (g a) := by
  intro w
  change (m w).bind (fun r => _) = _
  rw [hm w]
  rfl

theorem entry {ι : Type} {table : ι → Option BitCode} {i : ι} {code : BitCode}
    (h : table i = some code) : Writes (entry table i) [] code := by
  intro w
  rw [TooJpeg.entry, h]
  rfl

/-- A code out of a table. -/
theorem sendEntry {ι : Type} {table : ι → Option BitCode} {i : ι} {code : BitCode}
    (h : table i = some code) : Writes (do TooJpeg.send (← TooJpeg.entry table i)) [code] () :=
  (entry h).bind (send code)

/-- One more turn of a loop. -/
theorem foldlM_concat {ι : Type} {f : α → ι → Writing α} {l : List ι} {i : ι}
    {front back : List BitCode} {a b c : α} (hfront : Writes (l.foldlM f a) front b)
    (hback : Writes (f b i) back c) :
    Writes ((l ++ [i]).foldlM f a) (front ++ back) c := by
  have hlast : Writes ([i].foldlM f b) (back ++ []) c := hback.bind (pure c)
  rw [List.append_nil] at hlast
  rw [List.foldlM_append]
  exact hfront.bind hlast

/-- A loop keeps what each of its turns keeps; `P` speaks about the elements that are done, the
codes sent so far and the variables. -/
theorem foldlM {ι : Type} {f : α → ι → Writing α} {P : List ι → List BitCode → α → Prop}
    {l : List ι} (hstep : ∀ done i rest, done ++ i :: rest = l → ∀ codes a, P done codes a →
      ∃ more a', Writes (f a i) more a' ∧ P (done ++ [i]) (codes ++ more) a')
    {a : α} (hstart : P [] [] a) :
    ∃ codes a', Writes (l.foldlM f a) codes a' ∧ P l codes a' := by
  induction l using List.reverseRecOn with
  | nil => exact ⟨[], a, pure a, hstart⟩
  | append_singleton l i ih =>
      obtain ⟨codes, b, hb, hP⟩ := ih fun done j rest hrest =>
        hstep done j (rest ++ [i]) (by rw [← hrest, List.append_assoc]; rfl)
      obtain ⟨more, c, hc, hQ⟩ := hstep l i [] rfl codes b hP
      exact ⟨codes ++ more, c, foldlM_concat hb hc, hQ⟩

/-- A loop that counts up. -/
theorem foldlM_range {f : α → Nat → Writing α} {P : Nat → List BitCode → α → Prop} {n : Nat}
    (hstep : ∀ i < n, ∀ codes a, P i codes a →
      ∃ more a', Writes (f a i) more a' ∧ P (i + 1) (codes ++ more) a')
    {a : α} (hstart : P 0 [] a) :
    ∃ codes a', Writes ((List.range n).foldlM f a) codes a' ∧ P n codes a' := by
  induction n with
  | zero => exact ⟨[], a, pure a, hstart⟩
  | succ n ih =>
      obtain ⟨codes, b, hb, hP⟩ := ih fun i hi => hstep i (by omega)
      obtain ⟨more, c, hc, hQ⟩ := hstep n (by omega) codes b hP
      rw [List.range_succ]
      exact ⟨codes ++ more, c, foldlM_concat hb hc, hQ⟩

end Writes

end RaspiOrbSlam.TooJpeg
