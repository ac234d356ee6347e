import RaspiOrbSlam.Foundation.Parser
import Mathlib.Data.BitVec
import Mathlib.Tactic.Abel

/-!
# The byte stream of the protocol

A stream reads a byte vector through a position that is relative to a shadow
offset. Both are `size_t` values of `w` bits, and their sum wraps. A read at or
past the end of the vector is undefined behaviour in the program and ends the
model's run with `Fault.outOfBounds`.

`Simulates` relates a stream operation to a parser on the list of unread bytes:
the operation depends on nothing else of the stream and moves the position
over exactly what the parser takes.
-/

namespace RaspiOrbSlam.Protocol

open Foundation

/-- How a decode ends when it returns no value. -/
inductive Fault where
  /-- A byte outside the vector was read. -/
  | outOfBounds
  /-- `std::out_of_range`. -/
  | outOfRange (what : String)
  /-- `std::runtime_error`. -/
  | runtimeError (what : String)
  /-- A `resize` threw `std::length_error` or `std::bad_alloc`. -/
  | allocation
  deriving DecidableEq, Repr

/-- A `std::vector<uint8_t>`; its size is a `size_t`. -/
structure ByteVector (w : Nat) where
  bytes : List UInt8
  size_lt : bytes.length < 2 ^ w
  deriving DecidableEq

structure VectorStream (w : Nat) where
  mData : ByteVector w
  mPosition : BitVec w
  mShadowOffset : BitVec w
  deriving DecidableEq

/-- Code that reads from a stream and may end with a fault. -/
abbrev StreamM (w : Nat) := StateT (VectorStream w) (Except Fault)

namespace VectorStream

variable {w : Nat}

/-- The constructor: position and shadow offset start at zero. -/
def ofVector (vec : ByteVector w) : VectorStream w := ⟨vec, 0, 0⟩

/-- The index in `mData` that `curr` and the next `get` refer to. -/
def index (vs : VectorStream w) : Nat := (vs.mShadowOffset + vs.mPosition).toNat

/-- `operator[]`: an index relative to the shadow offset. -/
def at? (vs : VectorStream w) (idx : BitVec w) : Option UInt8 :=
  vs.mData.bytes[(vs.mShadowOffset + idx).toNat]?

def get : StreamM w UInt8 := fun vs =>
  match vs.at? vs.mPosition with
  | some b => .ok (b, { vs with mPosition := vs.mPosition + 1 })
  | none => .error .outOfBounds

/-- The iterator `curr()`, as an index in `mData`. -/
def curr : StreamM w Nat := fun vs => .ok (vs.index, vs)

/-- `std::copy` of `n` bytes of `mData` from the index `first` on. -/
def copy (first n : Nat) : StreamM w (List UInt8) := fun vs =>
  if n ≤ vs.mData.bytes.length - first then
    .ok ((vs.mData.bytes.drop first).take n, vs)
  else .error .outOfBounds

def advance (n : BitVec w) : StreamM w Unit := fun vs =>
  .ok ((), { vs with mPosition := vs.mPosition + n })

/-- Install a new shadow offset and return the old one. The swap leaves the old
value in `offset` before the difference is taken. -/
def setShadowOffset (offset : BitVec w) : StreamM w (BitVec w) := fun vs =>
  .ok (vs.mShadowOffset,
    { vs with
      mShadowOffset := offset
      mPosition := vs.mPosition - (offset - vs.mShadowOffset) })

def position : StreamM w (BitVec w) := fun vs => .ok (vs.mPosition, vs)

/-- The bytes from the current index to the end of the vector. -/
def remaining (vs : VectorStream w) : List UInt8 := vs.mData.bytes.drop vs.index

/-- The stream after `k` more bytes. -/
def skip (vs : VectorStream w) (k : Nat) : VectorStream w :=
  { vs with mPosition := vs.mPosition + BitVec.ofNat w k }

@[simp] theorem skip_zero (vs : VectorStream w) : vs.skip 0 = vs := by
  simp [skip]

theorem skip_skip (vs : VectorStream w) (j k : Nat) :
    (vs.skip j).skip k = vs.skip (j + k) := by
  simp [skip, BitVec.ofNat_add, BitVec.add_assoc]

@[simp] theorem skip_mData (vs : VectorStream w) (k : Nat) : (vs.skip k).mData = vs.mData := rfl

/-- Inside the vector the index does not wrap. -/
theorem skip_index (vs : VectorStream w) {k : Nat} (hk : k ≤ vs.remaining.length) :
    (vs.skip k).index = vs.index + k := by
  have hsize := vs.mData.size_lt
  have hindex : vs.index < 2 ^ w := (vs.mShadowOffset + vs.mPosition).isLt
  have hlen : k ≤ vs.mData.bytes.length - vs.index := by
    simpa [remaining] using hk
  have hsum : vs.index + k < 2 ^ w := by omega
  have hk' : k < 2 ^ w := by omega
  calc
    (vs.skip k).index = (vs.mShadowOffset + vs.mPosition + BitVec.ofNat w k).toNat := by
      rw [index, skip, BitVec.add_assoc]
    _ = vs.index + k := by
      rw [BitVec.toNat_add, BitVec.toNat_ofNat, Nat.mod_eq_of_lt hk']
      exact Nat.mod_eq_of_lt hsum

theorem skip_remaining (vs : VectorStream w) {k : Nat} (hk : k ≤ vs.remaining.length) :
    (vs.skip k).remaining = vs.remaining.drop k := by
  rw [remaining, skip_index vs hk, skip_mData, remaining, List.drop_drop]

/-- The stream as the reader of a nested object finds it: its position is the
new shadow offset. -/
def nested (vs : VectorStream w) : VectorStream w :=
  { vs with
    mShadowOffset := vs.mPosition
    mPosition := vs.mPosition - (vs.mPosition - vs.mShadowOffset) }

theorem nested_mPosition (vs : VectorStream w) : vs.nested.mPosition = vs.mShadowOffset :=
  sub_sub_cancel _ _

theorem nested_index (vs : VectorStream w) : vs.nested.index = vs.index := by
  rw [index, nested_mPosition, index, BitVec.add_comm]
  rfl

theorem nested_remaining (vs : VectorStream w) : vs.nested.remaining = vs.remaining := by
  rw [remaining, nested_index]
  rfl

/-- The old shadow offset is put back behind the bytes of a nested object. -/
theorem setShadowOffset_nested (vs : VectorStream w) (k : Nat) :
    setShadowOffset vs.mShadowOffset (vs.nested.skip k) = .ok (vs.mPosition, vs.skip k) := by
  simp only [setShadowOffset, skip, nested]
  congr 3
  abel

/-- The stream reads `vec` and stands behind the bytes `pre`. -/
structure StandsAfter (vs : VectorStream w) (vec : ByteVector w) (pre : List UInt8) : Prop where
  mData_eq : vs.mData = vec
  index_eq : vs.index = pre.length

theorem StandsAfter.remaining_eq {vs : VectorStream w} {vec : ByteVector w}
    {pre rest : List UInt8} (h : vs.StandsAfter vec pre) (hvec : vec.bytes = pre ++ rest) :
    vs.remaining = rest := by
  rw [remaining, h.mData_eq, h.index_eq, hvec, List.drop_left]

theorem StandsAfter.skip {vs : VectorStream w} {vec : ByteVector w} {pre bs rest : List UInt8}
    (h : vs.StandsAfter vec pre) (hvec : vec.bytes = pre ++ (bs ++ rest)) :
    (vs.skip bs.length).StandsAfter vec (pre ++ bs) where
  mData_eq := h.mData_eq
  index_eq := by
    have hrem := h.remaining_eq hvec
    rw [skip_index vs (by rw [hrem, List.length_append]; omega), h.index_eq, List.length_append]

theorem ofVector_remaining (vec : ByteVector w) : (ofVector vec).remaining = vec.bytes := by
  simp [remaining, ofVector, index]

end VectorStream

end RaspiOrbSlam.Protocol
