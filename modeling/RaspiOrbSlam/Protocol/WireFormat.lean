import RaspiOrbSlam.Protocol.Serializer
import RaspiOrbSlam.Protocol.VarintRoundTrip
import RaspiOrbSlam.Foundation.BitFields

/-!
# The wire format

Parsers for the types of the serializer, on the list of unread bytes. A reader
of the program refines the parser of its type: neither the position nor the
shadow offset has any influence. Lengths that a `resize` refuses fail before an
element is read, and no other length is lost in the conversion to `size_t`.
-/

namespace RaspiOrbSlam.Protocol

open Foundation BitFields

variable {w : Nat} (pf : Platform w) {α : Type}

/-- A variable length integer is the sign extension of an `int`. -/
theorem varintFrom_range {shift : Nat} {acc : BitVec 32} {input rest : List UInt8} {num : UInt64}
    (h : varintFrom pf shift (intToUInt64 acc) input = .ok (num, rest)) :
    ∃ x, num = intToUInt64 x := by
  induction input generalizing shift acc with
  | nil => simp [varintFrom] at h
  | cons b tail ih =>
      have hadd : addGroup pf (intToUInt64 acc) b shift =
          intToUInt64 (acc ||| pf.shiftLeft ((b &&& 0x7F).toBitVec.setWidth 32) shift) := by
        rw [addGroup, intToUInt64_or]
      rw [varintFrom, hadd] at h
      split at h
      · cases h
      · split at h
        · exact ih h
        · exact ⟨_, (congrArg Prod.fst (Except.ok.inj h)).symm⟩

theorem varint_range {input rest : List UInt8} {num : UInt64}
    (h : varint pf input = .ok (num, rest)) :
    num.toNat < 2 ^ 31 ∨ 2 ^ 64 - 2 ^ 31 ≤ num.toNat := by
  have hzero : intToUInt64 0 = 0 := rfl
  rw [varint, ← hzero] at h
  obtain ⟨x, rfl⟩ := varintFrom_range pf h
  exact intToUInt64_range x

/-- A length that fits the largest list is not changed by the conversion to
`size_t`, and one that does not fit still does not fit. -/
theorem toSize_of_range {len : UInt64}
    (h : len.toNat < 2 ^ 31 ∨ 2 ^ 64 - 2 ^ 31 ≤ len.toNat) :
    pf.maxSize < toSize w len ∧ pf.maxSize < len.toNat ∨ toSize w len = len.toNat := by
  have hmax := pf.maxSize_lt
  have hlen := len.toNat_lt
  have hw : w - 1 + 1 = w := Nat.sub_add_cancel (Nat.le_trans (by decide : 1 ≤ 32) pf.le_width)
  have hhalf : 2 ^ w = 2 * 2 ^ (w - 1) := by
    rw [← Nat.pow_succ', Nat.succ_eq_add_one, hw]
  have hwide : 2 ^ 31 ≤ 2 ^ (w - 1) :=
    Nat.pow_le_pow_right (by decide) (Nat.le_sub_one_of_lt pf.le_width)
  rcases h with h | h
  · exact Or.inr (Nat.mod_eq_of_lt (by omega))
  · obtain ⟨q, hq⟩ : ∃ q, 2 ^ 64 = 2 ^ w * (q + 1) := by
      refine ⟨2 ^ (64 - w) - 1, ?_⟩
      rw [Nat.sub_add_cancel (Nat.two_pow_pos _), ← Nat.pow_add,
        Nat.add_sub_cancel' pf.width_le]
    rw [Nat.mul_add_one] at hq
    have hmod : toSize w len = 2 ^ w - (2 ^ 64 - len.toNat) := by
      have hsplit : len.toNat = 2 ^ w * q + (2 ^ w - (2 ^ 64 - len.toNat)) := by omega
      rw [toSize]
      conv_lhs => rw [hsplit]
      rw [Nat.mul_add_mod, Nat.mod_eq_of_lt (by omega)]
    exact Or.inl (by omega)

/-- The lengths in front of strings and lists. -/
def length : WireParser Nat := do
  let len ← varint pf
  if pf.maxSize < len.toNat then throw .allocation else return len.toNat

theorem simulates_length {f : Nat → StreamM w α} {g : UInt64 → StreamM w α} {q : Nat → WireParser α}
    (hf : ∀ n, Simulates (f n) (q n))
    (hg : ∀ len, toSize w len = len.toNat → g len = f len.toNat) :
    Simulates (do
      let len ← deserializeUInt64 pf
      resize pf (toSize w len)
      g len) (length pf >>= q) := by
  rw [length, bind_assoc]
  apply (simulates_deserializeUInt64 pf).bind_of
  intro input len rest h
  rcases toSize_of_range pf (varint_range pf h) with ⟨hsize, hlen⟩ | hsize
  · rw [resize, if_pos hsize, if_pos hlen]
    exact Simulates.throw_bind .allocation
  · rw [resize, hsize, hg len hsize]
    by_cases hlen : pf.maxSize < len.toNat
    · rw [if_pos hlen, if_pos hlen]
      exact Simulates.throw_bind .allocation
    · rw [if_neg hlen, if_neg hlen, pure_bind, pure_bind]
      exact hf len.toNat

/-- Strings: a length and that many bytes. -/
def string : WireParser (List UInt8) := length pf >>= Parser.take .outOfBounds

theorem simulates_deserializeString : Simulates (deserializeString pf) (string pf) :=
  simulates_length pf Simulates.block fun len hlen => by rw [hlen]

/-- Lists: a length and that many elements. -/
def listOf (p : WireParser α) : WireParser (List α) := length pf >>= times p

theorem simulates_deserializeVector {f : StreamM w α} {p : WireParser α} (hf : Simulates f p) :
    Simulates (deserializeVector pf f) (listOf pf p) := by
  refine simulates_length pf (f := fun n => times f n) hf.times fun len hlen => ?_
  simp only [hlen, Nat.lt_irrefl, if_false, bind_pure]

def bool : WireParser Bool := do
  let b ← Parser.item .outOfBounds
  return decide (b ≠ 0)

theorem simulates_deserializeBool : Simulates (deserializeBool (w := w)) bool :=
  Simulates.get.bind fun _ => Simulates.pure _

def int8 : WireParser Int8 := do
  let b ← Parser.item .outOfBounds
  return b.toInt8

theorem simulates_deserializeInt8 : Simulates (deserializeInt8 (w := w)) int8 :=
  Simulates.get.bind fun _ => Simulates.pure _

def uint8 : WireParser UInt8 := Parser.item .outOfBounds

theorem simulates_deserializeUInt8 : Simulates (deserializeUInt8 (w := w)) uint8 :=
  Simulates.get

def uint16 : WireParser UInt16 := do
  let tmp ← varint pf
  return tmp.toUInt16

theorem simulates_deserializeUInt16 : Simulates (deserializeUInt16 pf) (uint16 pf) :=
  (simulates_deserializeUInt64 pf).bind fun _ => Simulates.pure _

/-- Floats: four bytes, lowest first. -/
def float : WireParser UInt32 := do
  let b0 ← Parser.item .outOfBounds
  let b1 ← Parser.item .outOfBounds
  let b2 ← Parser.item .outOfBounds
  let b3 ← Parser.item .outOfBounds
  return b0.toUInt32 ||| b1.toUInt32 <<< 8 ||| b2.toUInt32 <<< 16 ||| b3.toUInt32 <<< 24

theorem simulates_deserializeFloat : Simulates (deserializeFloat (w := w)) float :=
  Simulates.get.bind fun _ => Simulates.get.bind fun _ => Simulates.get.bind fun _ =>
    Simulates.get.bind fun _ => Simulates.pure _

def vec2 : WireParser Vec2 := do
  let x ← float
  let y ← float
  return ⟨x, y⟩

theorem simulates_deserializeVec2 : Simulates (deserializeVec2 (w := w)) vec2 :=
  simulates_deserializeFloat.bind fun _ => simulates_deserializeFloat.bind fun _ =>
    Simulates.pure _

/-- An object's reader behind the null check and the change of shadow offset. -/
theorem simulates_deserializeObject {f : StreamM w α} {p : WireParser α} (hf : Simulates f p) :
    Simulates (deserializeObject (some f)) p :=
  hf.shadowed

/-- Numbers below `2 ^ 31` are read back. -/
theorem yields_varint_of_small {num : UInt64} (h : num.toNat < 2 ^ 31) :
    Parser.Yields (varint pf) (serializeUInt64 num []) num := by
  have hyield := yields_varint pf num
  rwa [(intToUInt64_gathered_iff pf num).mpr (Or.inl h)] at hyield

theorem serializeUInt16_append (num : UInt16) (out : List UInt8) :
    serializeUInt16 num out = out ++ serializeUInt16 num [] :=
  serializeUInt64_append _ out

theorem yields_uint16 (num : UInt16) :
    Parser.Yields (uint16 pf) (serializeUInt16 num []) num := by
  have hmask : num.toUInt64 &&& 0xFFFF = num.toUInt64 := by
    apply UInt64.toNat_inj.mp
    rw [UInt64.toNat_and]
    change num.toNat &&& (2 ^ 16 - 1) = num.toNat
    rw [Nat.and_two_pow_sub_one_eq_mod, Nat.mod_eq_of_lt num.toNat_lt]
  have hsmall : num.toUInt64.toNat < 2 ^ 31 := Nat.lt_trans num.toNat_lt (by decide)
  have hyield := (yields_varint_of_small pf hsmall).map UInt64.toUInt16
  rw [← bind_pure_comp, UInt16.toUInt16_toUInt64] at hyield
  rwa [serializeUInt16, hmask]

theorem yields_length {n : Nat} (hn : n < 2 ^ 31) (hmax : n ≤ pf.maxSize) :
    Parser.Yields (length pf) (serializeUInt64 (UInt64.ofNat n) []) n := by
  have hnat : (UInt64.ofNat n).toNat = n := Nat.mod_eq_of_lt (by omega)
  have hsmall : (UInt64.ofNat n).toNat < 2 ^ 31 := hnat.symm ▸ hn
  have hyield := yields_varint_of_small pf hsmall
  rw [← List.append_nil (serializeUInt64 _ _)]
  apply hyield.bind
  rw [hnat, if_neg (by omega)]
  exact Parser.Yields.pure n

theorem yields_string {str : List UInt8} (h : str.length < 2 ^ 31)
    (hmax : str.length ≤ pf.maxSize) :
    Parser.Yields (string pf) (serializeString str []) str :=
  (yields_length pf h hmax).bind (Parser.Yields.take _ str)

theorem serializeVector_append {enc : α → List UInt8 → List UInt8}
    (henc : ∀ a out, enc a out = out ++ enc a []) (list : List α) (out : List UInt8) :
    serializeVector enc list out =
      out ++ (serializeUInt64 (UInt64.ofNat list.length) [] ++ list.flatMap (enc · [])) := by
  rw [serializeVector, serializeUInt64_append, ← List.append_assoc]
  generalize out ++ serializeUInt64 (UInt64.ofNat list.length) [] = start
  induction list generalizing start with
  | nil => simp
  | cons a rest ih => rw [List.foldl_cons, ih, henc a start, List.flatMap_cons, List.append_assoc]

/-- A list of encodings is read as the list of the elements' decoded values. -/
theorem yields_listOf {p : WireParser α} {enc : α → List UInt8 → List UInt8} {dec : α → α}
    (henc : ∀ a out, enc a out = out ++ enc a []) {list : List α}
    (hp : ∀ a ∈ list, Parser.Yields p (enc a []) (dec a)) (h : list.length < 2 ^ 31)
    (hmax : list.length ≤ pf.maxSize) :
    Parser.Yields (listOf pf p) (serializeVector enc list []) (list.map dec) := by
  rw [serializeVector_append henc, List.nil_append]
  exact (yields_length pf h hmax).bind (Parser.Yields.times list hp)

/-- One more byte of a pattern, above the bytes that are already in place. -/
theorem or_byte_toNat_of_float {acc num k : UInt32} (hk : k.toNat + 8 ≤ 32)
    (hacc : acc.toNat = num.toNat % 2 ^ k.toNat) :
    (acc ||| ((num >>> k) &&& 0xFF).toUInt8.toUInt32 <<< k).toNat =
      num.toNat % 2 ^ (k.toNat + 8) := by
  have hk' : k.toNat < 32 := by omega
  have hbyte : ((num >>> k) &&& 0xFF).toUInt8.toUInt32.toNat = num.toNat / 2 ^ k.toNat % 2 ^ 8 := by
    simp only [UInt8.toNat_toUInt32, UInt32.toNat_toUInt8, UInt32.toNat_and,
      UInt32.toNat_shiftRight, Nat.mod_eq_of_lt hk']
    exact shiftRight_and_byte _ _
  rw [UInt32.toNat_or, UInt32.toNat_shiftLeft, hbyte, Nat.mod_eq_of_lt hk', Nat.shiftLeft_eq,
    Nat.mod_eq_of_lt (byte_mul_lt _ hk), ← Nat.shiftLeft_eq, hacc, mod_or_byte]

theorem yields_float (num : UInt32) : Parser.Yields float (serializeFloat num []) num := by
  have h0 : (num &&& 0xFF).toUInt8.toUInt32.toNat = num.toNat % 2 ^ (8 : UInt32).toNat := by
    rw [UInt8.toNat_toUInt32, UInt32.toNat_toUInt8, UInt32.toNat_and]
    simpa using shiftRight_and_byte num.toNat 0
  have h1 := or_byte_toNat_of_float (k := 8) (by decide) h0
  have h2 := or_byte_toNat_of_float (k := 16) (by decide) h1
  have h3 := or_byte_toNat_of_float (k := 24) (by decide) h2
  intro rest
  change Except.ok (_, rest) = _
  congr 2
  apply UInt32.toNat_inj.mp
  exact h3.trans (Nat.mod_eq_of_lt num.toNat_lt)

end RaspiOrbSlam.Protocol
