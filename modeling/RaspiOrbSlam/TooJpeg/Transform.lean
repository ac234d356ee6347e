import RaspiOrbSlam.Foundation.Lanes
import RaspiOrbSlam.Foundation.LinearProgram
import RaspiOrbSlam.TooJpeg.EntropyCoder
import Mathlib.Tactic.FinCases

/-! # The forward transform of a block

The fast cosine transform of eight values, of the rows and columns of a block in
place, and the quantization behind it. The operations of the transform are taken
from the type of the values: single precision numbers in the encoder, linear
programs where its results are bounded. -/

namespace RaspiOrbSlam.TooJpeg

open Foundation Foundation.Binary32

def sqrtHalfSqrt : Constant := .ofMantissa 1.306562965 .positive 10960245 23 (by decide) rfl
def invSqrt : Constant := .ofMantissa 0.707106781 .positive 11863283 24 (by decide) rfl
def halfSqrtSqrt : Constant := .ofMantissa 0.382683432 .positive 12840725 25 (by decide) rfl
def invSqrtSqrt : Constant := .ofMantissa 0.541196100 .positive 9079764 24 (by decide) rfl

/-- The fast transform of the eight values `block`. -/
def cosine {α : Type} [Add α] [Sub α] (mul : α → Constant → α) (block : Fin 8 → α) :
    Fin 8 → α :=
  let add07 := block 0 + block 7
  let sub07 := block 0 - block 7
  let add16 := block 1 + block 6
  let sub16 := block 1 - block 6
  let add25 := block 2 + block 5
  let sub25 := block 2 - block 5
  let add34 := block 3 + block 4
  let sub34 := block 3 - block 4
  let add0347 := add07 + add34
  let sub07_34 := add07 - add34
  let add1256 := add16 + add25
  let sub16_25 := add16 - add25
  let z1 := mul (sub16_25 + sub07_34) invSqrt
  let sub23_45 := sub25 + sub34
  let sub12_56 := sub16 + sub25
  let sub01_67 := sub16 + sub07
  let z5 := mul (sub23_45 - sub01_67) halfSqrtSqrt
  let z2 := mul sub23_45 invSqrtSqrt + z5
  let z3 := mul sub12_56 invSqrt
  let z4 := mul sub01_67 sqrtHalfSqrt + z5
  let z6 := sub07 + z3
  let z7 := sub07 - z3
  fun
    | 0 => add0347 + add1256
    | 1 => z6 + z4
    | 2 => sub07_34 + z1
    | 3 => z7 - z2
    | 4 => add0347 - add1256
    | 5 => z7 + z2
    | 6 => sub07_34 - z1
    | 7 => z6 - z4

/-- `DCT(block + first, stride)`: the values at `block[first + k * stride]`, in place. -/
def dct (block : Nat → Float32) (first stride : Nat) : Nat → Float32 :=
  let values := cosine (fun v c => v * c.float) fun k => block (first + k * stride)
  (List.finRange 8).foldl
    (fun block (k : Fin 8) => Function.update block (first + k * stride) (values k)) block

/-- The loop over the rows. -/
def transformRows (block64 : Nat → Float32) : Nat → Float32 :=
  (List.finRange 8).foldl (fun block (offset : Fin 8) => dct block (offset * 8) 1) block64

/-- The loop over the columns. -/
def transformColumns (block64 : Nat → Float32) : Nat → Float32 :=
  (List.finRange 8).foldl (fun block (offset : Fin 8) => dct block (offset * 1) 8) block64

/-- 8x8 blocks are processed in zigzag order. -/
def zigZagInv (i : Fin 64) : Fin 64 :=
  Vector.get
    #v[0, 1, 8, 16, 9, 2, 3, 10, 17, 24, 32, 25, 18, 11, 4, 5, 12, 19, 26, 33, 40, 48, 41, 34, 27,
      20, 13, 6, 7, 14, 21, 28, 35, 42, 49, 56, 57, 50, 43, 36, 29, 22, 15, 23, 30, 37, 44, 51,
      58, 59, 52, 45, 38, 31, 39, 46, 53, 60, 61, 54, 47, 55, 62, 63] i

/-- Scaling constants of the fast transform. -/
def aanScaleFactors : Fin 8 → Constant
  | 0 => .ofMantissa 1 .positive 8388608 23 (by decide) rfl
  | 1 => .ofMantissa 1.387039845 .positive 11635334 23 (by decide) rfl
  | 2 => .ofMantissa 1.306562965 .positive 10960245 23 (by decide) rfl
  | 3 => .ofMantissa 1.175875602 .positive 9863959 23 (by decide) rfl
  | 4 => .ofMantissa 1 .positive 8388608 23 (by decide) rfl
  | 5 => .ofMantissa 0.785694958 .positive 13181774 24 (by decide) rfl
  | 6 => .ofMantissa 0.541196100 .positive 9079764 24 (by decide) rfl
  | 7 => .ofMantissa 0.275899379 .positive 9257647 25 (by decide) rfl

def factor (row column : Fin 8) : Float32 :=
  1 / ((aanScaleFactors row).float * (aanScaleFactors column).float * 8)

/-- The quantization steps, which stand in zigzag order, with the scaling constants. -/
def scaledTable (quant : Fin 64 → UInt8) : Nat → Float32 :=
  (List.finRange 64).foldl
    (fun scaled (i : Fin 64) =>
      let position : Fin (8 * 8) := zigZagInv i
      let row := position.divNat
      let column := position.modNat
      Function.update scaled (zigZagInv i) (factor row column / (quant i).toFloat32))
    (fun _ => 0)

/-- The nearest integer, C++11's `nearbyint()` achieves a similar effect. -/
def nearest (value : Float32) : Int32 :=
  (value + if 0 ≤ value then 0.5 else -0.5).toModel.toInt32

/-- The loop that quantizes the other 63 coefficients in zigzag order and remembers the last
one that is not zero. -/
def quantize (block64 : Nat → Float32) : (Nat → Int16) × Nat :=
  (List.finRange 63).foldl
    (fun (quantized, posNonZero) (k : Fin 63) =>
      let i := k.succ
      let value := (nearest (block64 (zigZagInv i))).toInt16
      (Function.update quantized i value, if value ≠ 0 then i.val else posNonZero))
    (fun _ => 0, 0)

/-- The block after the transform and the scaling. -/
def scaleBlock (block64 scaled : Nat → Float32) : Nat → Float32 :=
  let transformed := transformColumns (transformRows block64)
  fun i => transformed i * scaled i

/-- Transforms, quantizes and encodes a block. -/
def encodeBlock (block64 scaled : Nat → Float32) (lastDC : Int16)
    (huffmanDC huffmanAC : HuffmanTable) (codewords : Codewords) : Writing Int16 :=
  let block64 := scaleBlock block64 scaled
  let DC := nearest (block64 0)
  let (quantized, posNonZero) := quantize block64
  encodeCoefficients DC quantized posNonZero lastDC huffmanDC huffmanAC codewords

section Lanes

variable (block : Nat → Float32)

theorem dct_lane {first stride : Nat} (hstride : 0 < stride) (k : Fin 8) :
    dct block first stride (first + k * stride) =
      cosine (fun v c => v * c.float) (fun k => block (first + k * stride)) k := by
  apply foldl_update (fun k : Fin 8 => first + k * stride) _ (List.nodup_finRange 8)
    (List.mem_finRange k)
  intro i j hij
  exact Fin.ext (Nat.eq_of_mul_eq_mul_right hstride (Nat.add_left_cancel hij))

theorem dct_of_ne {first stride x : Nat} (hx : ∀ k : Fin 8, x ≠ first + k * stride) :
    dct block first stride x = block x :=
  foldl_update_of_ne _ hx block

theorem transformRows_apply (r c : Fin 8) :
    transformRows block (r * 8 + c) =
      cosine (fun v c => v * c.float) (fun j => block (r * 8 + j)) c := by
  apply foldl_lane (fun i j : Fin 8 => (i * 8 + j : Nat))
    (f := fun _ => cosine fun v c => v * c.float) _ _ (List.nodup_finRange 8) (List.mem_finRange r)
  · intro b i j
    have hlane : dct b (i * 8) 1 (i * 8 + j * 1) = _ := dct_lane b Nat.one_pos j
    simpa using hlane
  · intro b i i' j hne
    apply dct_of_ne
    omega

theorem transformColumns_apply (r c : Fin 8) :
    transformColumns block (r * 8 + c) =
      cosine (fun v c => v * c.float) (fun i => block (i * 8 + c)) r := by
  have hplace : ∀ i j : Fin 8, (j * 1 + i * 8 : Nat) = i * 8 + j := by
    intro i j
    omega
  have hcolumn : transformColumns block (c * 1 + r * 8) =
      cosine (fun v c => v * c.float) (fun i => block (c * 1 + i * 8)) r := by
    apply foldl_lane (fun i j : Fin 8 => (i * 1 + j * 8 : Nat))
      (f := fun _ => cosine fun v c => v * c.float) _ _ (List.nodup_finRange 8)
      (List.mem_finRange c)
    · intro b i j
      exact dct_lane b (by decide) j
    · intro b i i' j hne
      apply dct_of_ne
      omega
  simpa only [hplace] using hcolumn

end Lanes

section Pairs

variable {α β ι : Type} (f : α → ι → α) (g : β → ι → β)

/-- Two variables of a loop that do not depend on each other. -/
theorem foldl_fst (is : List ι) (s : α × β) :
    (is.foldl (fun s i => (f s.1 i, g s.2 i)) s).1 = is.foldl f s.1 :=
  (List.foldl_hom Prod.fst fun _ _ => rfl).symm

theorem foldl_snd (is : List ι) (s : α × β) :
    (is.foldl (fun s i => (f s.1 i, g s.2 i)) s).2 = is.foldl g s.2 :=
  (List.foldl_hom Prod.snd fun _ _ => rfl).symm

end Pairs

/-- The index of the last value that is marked, counted from one. -/
theorem foldl_last {n : Nat} (marked : Fin n → Prop) [DecidablePred marked] {p : Nat}
    (hp : (List.finRange n).foldl (fun p k => if marked k then (k : Nat) + 1 else p) 0 = p) :
    p ≤ n ∧ (p ≠ 0 → ∃ k : Fin n, (k : Nat) + 1 = p ∧ marked k) ∧
      ∀ k : Fin n, p < (k : Nat) + 1 → ¬marked k := by
  subst hp
  induction n with
  | zero => exact ⟨le_rfl, fun h => absurd rfl h, fun k => k.elim0⟩
  | succ n ih =>
      obtain ⟨hle, hlast, hrest⟩ := ih fun k => marked k.castSucc
      rw [List.finRange_succ_last, List.foldl_append, List.foldl_map]
      simp only [Fin.val_castSucc, List.foldl_cons, List.foldl_nil, Fin.val_last]
      split
      case isTrue hmarked =>
        refine ⟨le_rfl, fun _ => ⟨Fin.last n, rfl, hmarked⟩, ?_⟩
        intro k hk
        omega
      case isFalse hunmarked =>
        refine ⟨hle.trans n.le_succ, ?_, ?_⟩
        · intro hp
          obtain ⟨k, hk, hmarked⟩ := hlast hp
          exact ⟨k.castSucc, hk, hmarked⟩
        · intro k hk
          cases k using Fin.lastCases with
          | last => exact hunmarked
          | cast k => exact hrest k hk

section Quantization

variable (block64 : Nat → Float32)

/-- The integer at an index of the zigzag order. -/
def level (i : Fin 64) : Int32 := nearest (block64 (zigZagInv i))

/-- A step of the loop, for one variable each. -/
def storeLevel (quantized : Nat → Int16) (k : Fin 63) : Nat → Int16 :=
  Function.update quantized (k.succ : Nat) (level block64 k.succ).toInt16

def markLevel (posNonZero : Nat) (k : Fin 63) : Nat :=
  if (level block64 k.succ).toInt16 ≠ 0 then (k : Nat) + 1 else posNonZero

theorem quantize_fst : (quantize block64).1 =
    (List.finRange 63).foldl (storeLevel block64) fun _ => 0 :=
  foldl_fst (storeLevel block64) (markLevel block64) _ _

theorem quantize_snd : (quantize block64).2 =
    (List.finRange 63).foldl (markLevel block64) 0 :=
  foldl_snd (storeLevel block64) (markLevel block64) _ _

theorem quantize_succ (k : Fin 63) :
    (quantize block64).1 ((k : Nat) + 1) = (level block64 k.succ).toInt16 := by
  have hplace : Function.Injective fun k : Fin 63 => (k.succ : Nat) := by
    intro i j hij
    exact Fin.succ_injective 63 (Fin.ext hij)
  rw [quantize_fst]
  exact foldl_update _ hplace (List.nodup_finRange 63) (List.mem_finRange k) _

/-- `posNonZero` is the last index of a value that is not zero, or zero. -/
theorem quantize_posNonZero : (quantize block64).2 < 64 ∧
    ((quantize block64).2 ≠ 0 → (quantize block64).1 (quantize block64).2 ≠ 0) ∧
    ∀ k, (quantize block64).2 < k → k < 64 → (quantize block64).1 k = 0 := by
  obtain ⟨hle, hlast, hrest⟩ := foldl_last
    (fun k : Fin 63 => (level block64 k.succ).toInt16 ≠ 0) (quantize_snd block64).symm
  refine ⟨by omega, ?_, ?_⟩
  · intro hp
    obtain ⟨k, hk, hne⟩ := hlast hp
    rwa [← hk, quantize_succ]
  · intro k hk hk64
    obtain ⟨j, rfl⟩ : ∃ j, k = j + 1 := ⟨k - 1, by omega⟩
    have hzero := hrest ⟨j, by omega⟩ hk
    rw [← quantize_succ] at hzero
    exact not_not.mp hzero

end Quantization

/-- The indices in zigzag order, the inverse of `zigZagInv`. -/
def zigZag (i : Fin 64) : Fin 64 :=
  Vector.get
    #v[0, 1, 5, 6, 14, 15, 27, 28, 2, 4, 7, 13, 16, 26, 29, 42, 3, 8, 12, 17, 25, 30, 41, 43,
      9, 11, 18, 24, 31, 40, 44, 53, 10, 19, 23, 32, 39, 45, 52, 54, 20, 22, 33, 38, 46, 51, 55, 60,
      21, 34, 37, 47, 50, 56, 59, 61, 35, 36, 48, 49, 57, 58, 62, 63] i

theorem zigZagInv_zigZag : ∀ i, zigZagInv (zigZag i) = i := by decide +kernel

theorem zigZagInv_injective : zigZagInv.Injective :=
  Finite.injective_iff_surjective.mpr fun i => ⟨zigZag i, zigZagInv_zigZag i⟩

/-- The table at the place of a coefficient. -/
theorem scaledTable_apply (quant : Fin 64 → UInt8) (i : Fin 64) {r c : Fin 8}
    (hi : (zigZagInv i : Nat) = r * 8 + c) :
    scaledTable quant (zigZagInv i) = factor r c / (quant i).toFloat32 := by
  have hr : Fin.divNat (show Fin (8 * 8) from zigZagInv i) = r := by
    ext
    change (zigZagInv i : Nat) / 8 = r
    omega
  have hc : Fin.modNat (show Fin (8 * 8) from zigZagInv i) = c := by
    ext
    change (zigZagInv i : Nat) % 8 = c
    omega
  rw [← hr, ← hc]
  apply foldl_update (fun i : Fin 64 => (zigZagInv i : Nat)) _ (List.nodup_finRange 64)
    (List.mem_finRange i)
  intro i j hij
  exact zigZagInv_injective (Fin.ext hij)

end RaspiOrbSlam.TooJpeg
