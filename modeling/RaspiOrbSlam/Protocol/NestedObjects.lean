import RaspiOrbSlam.Protocol.WireFormat

/-!
# Nested objects

The reader of a nested object is entered behind a change of the shadow offset to
the position of the enclosing object. That position is relative to the enclosing
object's own shadow offset, so the new offset is the place of the nested object
only if the old offset is zero. The decoder below notes the stream whenever it
enters an object and whenever it returns from one.
-/

namespace RaspiOrbSlam.Protocol

open Foundation

variable {w : Nat}

/-- What is left of an object: bytes of its own and objects that it owns. -/
inductive ObjectTree where
  | empty
  | byte (b : UInt8) (rest : ObjectTree)
  | nested (object rest : ObjectTree)
  deriving DecidableEq

namespace ObjectTree

def serializeInto : ObjectTree → List UInt8 → List UInt8
  | empty, out => out
  | byte b rest, out => rest.serializeInto (serializeUInt8 b out)
  | nested object rest, out => rest.serializeInto (serializeObject (object.serializeInto []) out)

def serialize (t : ObjectTree) : List UInt8 := t.serializeInto []

/-- Whether the object owns another object. -/
def ownsObject : ObjectTree → Bool
  | empty => false
  | byte _ rest => rest.ownsObject
  | nested _ _ => true

/-- Nested objects that own an object start at index zero of the vector, if the
object itself starts at `start`. -/
def NestsAtStart (start : Nat) : ObjectTree → Prop
  | empty => True
  | byte _ rest => rest.NestsAtStart (start + 1)
  | nested object rest =>
      (object.ownsObject → start = 0) ∧ object.NestsAtStart start ∧
        rest.NestsAtStart (start + object.serialize.length)

/-- The objects that the object owns own no further object. -/
def OwnsFlat : ObjectTree → Prop
  | empty => True
  | byte _ rest => rest.OwnsFlat
  | nested object rest => object.ownsObject = false ∧ rest.OwnsFlat

theorem nestsAtStart_of_ownsObject_eq_false {t : ObjectTree} (h : t.ownsObject = false)
    (start : Nat) : t.NestsAtStart start := by
  induction t generalizing start with
  | empty => trivial
  | byte b rest ih => exact ih h (start + 1)
  | nested object rest => cases h

theorem OwnsFlat.nestsAtStart {t : ObjectTree} (h : t.OwnsFlat) {start : Nat} :
    t.NestsAtStart start := by
  induction t generalizing start with
  | empty => trivial
  | byte b rest ih => exact ih h
  | nested object rest _ ih =>
      refine ⟨fun howns => ?_, nestsAtStart_of_ownsObject_eq_false h.1 start, ih h.2⟩
      rw [h.1] at howns
      cases howns

theorem serializeInto_eq (t : ObjectTree) (out : List UInt8) :
    t.serializeInto out = out ++ t.serialize := by
  induction t generalizing out with
  | empty => exact (List.append_nil out).symm
  | byte b rest ih =>
      rw [serialize, serializeInto, serializeInto, ih, ih (serializeUInt8 b []), serializeUInt8,
        serializeUInt8, List.append_assoc, List.nil_append]
  | nested object rest _ ih =>
      rw [serialize, serializeInto, serializeInto, ih, ih (serializeObject _ []), serializeObject,
        serializeObject, List.append_assoc, List.nil_append]

theorem serialize_byte (b : UInt8) (rest : ObjectTree) :
    (byte b rest).serialize = [b] ++ rest.serialize :=
  rest.serializeInto_eq [b]

theorem serialize_nested (object rest : ObjectTree) :
    (nested object rest).serialize = object.serialize ++ rest.serialize :=
  rest.serializeInto_eq object.serialize

end ObjectTree

/-- A moment of a decode. -/
inductive Observation (w : Nat) where
  /-- The object's own reader is entered. -/
  | entered (object : ObjectTree) (vs : VectorStream w)
  /-- `Serializer::deserialize(Serializable*)` returns to the enclosing object. -/
  | returned (object : ObjectTree) (before after : VectorStream w)
  deriving DecidableEq

/-- An object is entered at its first byte with position zero, and the enclosing
object goes on behind it with its own shadow offset. -/
def Observation.Lawful : Observation w → Prop
  | entered object vs =>
      vs.mPosition = 0 ∧
        ∀ i < object.serialize.length, vs.at? (BitVec.ofNat w i) = object.serialize[i]?
  | returned object before after =>
      after.mShadowOffset = before.mShadowOffset ∧
        after.mPosition = before.mPosition + BitVec.ofNat w object.serialize.length

namespace ObjectTree

/-- `Serializer::deserialize(Serializable*)`, with notes. -/
def deserializeNested (object : ObjectTree) (deserialize : StreamM w (List (Observation w))) :
    StreamM w (List (Observation w)) := do
  let before ← MonadState.get
  let seen ← deserializeObject (some do
    let vs ← MonadState.get
    let seen ← deserialize
    return .entered object vs :: seen)
  let after ← MonadState.get
  return seen ++ [.returned object before after]

/-- The object's own reader. -/
def deserialize : ObjectTree → StreamM w (List (Observation w))
  | empty => return []
  | byte _ rest => do
      let _ ← deserializeUInt8
      rest.deserialize
  | nested object rest => do
      let seen ← object.deserializeNested object.deserialize
      let more ← rest.deserialize
      return seen ++ more

end ObjectTree

theorem deserializeObject_ok {α : Type} {f : StreamM w α} {vs : VectorStream w} {a : α} {k : Nat}
    (h : f vs.nested = .ok (a, vs.nested.skip k)) :
    deserializeObject (some f) vs = .ok (a, vs.skip k) := by
  rw [deserializeObject, StreamM.shadowed_eq]
  exact StreamM.shadowed_ok h

theorem noted_bind {γ : Type} (k : VectorStream w → StreamM w γ) (vs : VectorStream w) :
    (MonadState.get >>= k) vs = k vs vs := rfl

/-- In front of the object's bytes, a reader of it reads them all; what it notes is
lawful under the condition `P`. -/
def NotesLawfully (read : StreamM w (List (Observation w))) (vs : VectorStream w) (k : Nat)
    (P : Prop) : Prop :=
  ∃ seen, read vs = .ok (seen, vs.skip k) ∧ ((∀ o ∈ seen, o.Lawful) ↔ P)

theorem at?_of_remaining {vs : VectorStream w} {bytes suf : List UInt8} {i : Nat}
    (hvs : vs.remaining = bytes ++ suf) (hi : i < bytes.length) :
    vs.at? (vs.mPosition + BitVec.ofNat w i) = bytes[i]? := by
  have hle : i ≤ vs.remaining.length := by
    rw [hvs, List.length_append]
    omega
  have hindex : vs.mShadowOffset + (vs.mPosition + BitVec.ofNat w i) =
      (vs.skip i).mShadowOffset + (vs.skip i).mPosition := rfl
  rw [VectorStream.at?, hindex]
  change vs.mData.bytes[(vs.skip i).index]? = _
  rw [vs.skip_index hle, ← List.getElem?_drop, ← VectorStream.remaining, hvs,
    List.getElem?_append_left hi]

/-- A nested object is entered with the enclosing shadow offset as its position. -/
theorem entered_lawful_iff (object : ObjectTree) {vs : VectorStream w} {suf : List UInt8}
    (hvs : vs.remaining = object.serialize ++ suf) :
    (Observation.entered object vs.nested).Lawful ↔ vs.mShadowOffset = 0 := by
  rw [Observation.Lawful, vs.nested_mPosition]
  apply and_iff_left_of_imp
  intro hzero i hi
  rw [← vs.nested_remaining] at hvs
  rw [← at?_of_remaining hvs hi, vs.nested_mPosition, hzero, zero_add]

theorem index_eq_zero_iff {vs : VectorStream w} (hzero : vs.mShadowOffset = 0) :
    vs.mPosition = 0 ↔ vs.index = 0 := by
  rw [VectorStream.index, hzero, zero_add, ← BitVec.toNat_inj]
  rfl

namespace ObjectTree

/-- One nested object: whether it is entered lawfully is decided by the shadow
offset of the enclosing object, and what happens inside by the place it starts at. -/
theorem deserializeNested_notes (object : ObjectTree) {read : StreamM w (List (Observation w))}
    {vs : VectorStream w} {suf : List UInt8} (hvs : vs.remaining = object.serialize ++ suf)
    {P : Prop}
    (hread : NotesLawfully read vs.nested object.serialize.length
      ((object.ownsObject → vs.mPosition = 0) ∧ P)) :
    NotesLawfully (object.deserializeNested read) vs object.serialize.length
      (vs.mShadowOffset = 0 ∧ (object.ownsObject → vs.index = 0) ∧ P) := by
  obtain ⟨seen, hok, hseen⟩ := hread
  have hinside : (do
      let vs ← MonadState.get
      let seen ← read
      return .entered object vs :: seen : StreamM w (List (Observation w))) vs.nested =
        .ok (.entered object vs.nested :: seen, vs.nested.skip object.serialize.length) := by
    rw [noted_bind, StreamM.bind_ok hok]
    rfl
  have hreturned : (Observation.returned object vs (vs.skip object.serialize.length)).Lawful :=
    ⟨rfl, rfl⟩
  refine ⟨.entered object vs.nested :: seen ++
    [.returned object vs (vs.skip object.serialize.length)], ?_, ?_⟩
  · rw [deserializeNested, noted_bind, StreamM.bind_ok (deserializeObject_ok hinside)]
    rfl
  · rw [List.forall_mem_append, List.forall_mem_cons, List.forall_mem_singleton,
      entered_lawful_iff object hvs, hseen, and_iff_left hreturned]
    apply and_congr_right
    intro hzero
    rw [index_eq_zero_iff hzero]

theorem deserialize_notes (t : ObjectTree) (vs : VectorStream w) (suf : List UInt8)
    (hvs : vs.remaining = t.serialize ++ suf) :
    NotesLawfully t.deserialize vs t.serialize.length
      ((t.ownsObject → vs.mShadowOffset = 0) ∧ t.NestsAtStart vs.index) := by
  induction t generalizing vs suf with
  | empty =>
      refine ⟨[], ?_, by simp [ownsObject, NestsAtStart]⟩
      change Except.ok ([], vs) = Except.ok ([], vs.skip 0)
      rw [vs.skip_zero]
  | byte b rest ih =>
      rw [serialize_byte, List.append_assoc] at hvs
      have hle : 1 ≤ vs.remaining.length := by rw [hvs]; exact Nat.succ_pos _
      have hbyte : deserializeUInt8 vs = .ok (b, vs.skip 1) :=
        Simulates.get.of_yields (Parser.Yields.item _ b) hvs
      obtain ⟨seen, hok, hseen⟩ := ih (vs.skip 1) suf (by
        rw [vs.skip_remaining hle, hvs]
        rfl)
      rw [vs.skip_index hle] at hseen
      refine ⟨seen, ?_, hseen⟩
      rw [deserialize, StreamM.bind_ok hbyte, hok, VectorStream.skip_skip, serialize_byte,
        List.length_append]
      rfl
  | nested object rest iho ihr =>
      rw [serialize_nested, List.append_assoc] at hvs
      have hle : object.serialize.length ≤ vs.remaining.length := by
        rw [hvs, List.length_append]
        omega
      have hinside := iho vs.nested _ (vs.nested_remaining.trans hvs)
      rw [vs.nested_index] at hinside
      obtain ⟨seen, hok, hseen⟩ := object.deserializeNested_notes hvs hinside
      obtain ⟨more, hmore, hlawful⟩ := ihr (vs.skip object.serialize.length) suf (by
        rw [vs.skip_remaining hle, hvs, List.drop_left])
      rw [vs.skip_index hle] at hlawful
      refine ⟨seen ++ more, ?_, ?_⟩
      · rw [deserialize, StreamM.bind_ok hok, StreamM.bind_ok hmore, VectorStream.skip_skip,
          serialize_nested, List.length_append]
        rfl
      · rw [List.forall_mem_append, hseen, hlawful, NestsAtStart]
        constructor
        · rintro ⟨⟨hzero, hobject⟩, -, hrest⟩
          exact ⟨fun _ => hzero, hobject.1, hobject.2, hrest⟩
        · rintro ⟨hzero, howns, hobject, hrest⟩
          exact ⟨⟨hzero rfl, howns, hobject⟩, fun _ => hzero rfl, hrest⟩

/-- A tree of objects is decoded with every object entered at its own first byte,
and every enclosing object resumed behind it, exactly if the shadow offset is
zero and every object that owns an object starts at index zero of the vector. -/
theorem deserializeNested_lawful_iff (t : ObjectTree) (vs : VectorStream w) (suf : List UInt8)
    (hvs : vs.remaining = t.serialize ++ suf) :
    (∃ seen vs', t.deserializeNested t.deserialize vs = .ok (seen, vs') ∧
        ∀ o ∈ seen, o.Lawful) ↔
      vs.mShadowOffset = 0 ∧ (t.ownsObject → vs.index = 0) ∧ t.NestsAtStart vs.index := by
  have hinside := t.deserialize_notes vs.nested suf (vs.nested_remaining.trans hvs)
  rw [vs.nested_index] at hinside
  obtain ⟨seen, hok, hseen⟩ := t.deserializeNested_notes hvs hinside
  rw [← hseen, hok]
  constructor
  · rintro ⟨_, _, heq, hlawful⟩
    cases heq
    exact hlawful
  · intro hlawful
    exact ⟨seen, _, rfl, hlawful⟩

/-- One color in a list, decoded at the start of the vector. -/
theorem deserializeNested_lawful_at_start :
    let color : ObjectTree := .byte 10 (.byte 20 (.byte 30 .empty))
    let leds : ObjectTree := .byte 1 (.nested color .empty)
    let vs : VectorStream 32 := ⟨⟨[1, 10, 20, 30], by decide⟩, 0, 0⟩
    ∃ seen vs', leds.deserializeNested leds.deserialize vs = .ok (seen, vs') ∧
      ∀ o ∈ seen, o.Lawful :=
  (deserializeNested_lawful_iff (.byte 1 (.nested (.byte 10 (.byte 20 (.byte 30 .empty))) .empty))
    (⟨⟨[1, 10, 20, 30], by decide⟩, 0, 0⟩ : VectorStream 32) [] (by decide)).mpr
    ⟨rfl, fun _ => rfl, (by decide), trivial, trivial⟩

/-- The same behind an opcode: the color is entered with position one, and index
zero is the length of the list. -/
theorem nested_color_entered_late :
    let vec : ByteVector 32 := ⟨[3, 1, 10, 20, 30], by decide⟩
    let color : ObjectTree := .byte 10 (.byte 20 (.byte 30 .empty))
    let leds : ObjectTree := .byte 1 (.nested color .empty)
    let vs : VectorStream 32 := ⟨vec, 1, 0⟩
    vs.remaining = leds.serialize ∧
      (∃ seen vs', leds.deserializeNested leds.deserialize vs = .ok (seen, vs') ∧
        .entered color ⟨vec, 1, 1⟩ ∈ seen) ∧
      VectorStream.at? (⟨vec, 1, 1⟩ : VectorStream 32) 0 = some 1 ∧
      ¬∃ seen vs', leds.deserializeNested leds.deserialize vs = .ok (seen, vs') ∧
        ∀ o ∈ seen, o.Lawful := by
  intro vec color leds vs
  let seen : List (Observation 32) :=
    [.entered leds ⟨vec, 0, 1⟩, .entered color ⟨vec, 1, 1⟩,
      .returned color ⟨vec, 1, 1⟩ ⟨vec, 4, 1⟩, .returned leds ⟨vec, 1, 0⟩ ⟨vec, 5, 0⟩]
  have hrun : leds.deserializeNested leds.deserialize vs = .ok (seen, ⟨vec, 5, 0⟩) := by
    decide +kernel
  refine ⟨by decide, ⟨_, _, hrun, by simp [seen]⟩, by decide, ?_⟩
  rintro ⟨_, _, heq, hlawful⟩
  rw [hrun] at heq
  cases heq
  have hcolor := (hlawful (.entered color ⟨vec, 1, 1⟩) (by simp [seen])).1
  exact absurd hcolor (by decide)

/-- The reader of a packet is entered behind the opcode without a change of the
shadow offset; objects that own no further object are then entered lawfully. -/
theorem deserialize_lawful_of_flat (t : ObjectTree) (hflat : t.OwnsFlat)
    {vs : VectorStream w} {suf : List UInt8} (hvs : vs.remaining = t.serialize ++ suf)
    (hzero : vs.mShadowOffset = 0) :
    ∃ seen, t.deserialize vs = .ok (seen, vs.skip t.serialize.length) ∧
      ∀ o ∈ seen, o.Lawful := by
  obtain ⟨seen, hok, hseen⟩ := t.deserialize_notes vs suf hvs
  exact ⟨seen, hok, hseen.mpr ⟨fun _ => hzero, hflat.nestsAtStart⟩⟩

/-- Bytes in front of the rest of an object. -/
def ofBytes (bytes : List UInt8) (rest : ObjectTree) : ObjectTree := bytes.foldr byte rest

/-- Plain objects in a row, given by their bytes. -/
def ofObjects (objects : List (List UInt8)) : ObjectTree :=
  objects.foldr (fun bytes rest => nested (ofBytes bytes empty) rest) empty

/-- A list of plain objects behind its length. -/
def ofList {α : Type} (serialize : α → List UInt8) (list : List α) : ObjectTree :=
  ofBytes (serializeUInt64 (UInt64.ofNat list.length) []) (ofObjects (list.map serialize))

theorem ofBytes_serialize (bytes : List UInt8) (rest : ObjectTree) :
    (ofBytes bytes rest).serialize = bytes ++ rest.serialize := by
  induction bytes with
  | nil => rfl
  | cons b bytes ih =>
      change (byte b (ofBytes bytes rest)).serialize = _
      rw [serialize_byte, ih]
      rfl

theorem ofObjects_serialize (objects : List (List UInt8)) :
    (ofObjects objects).serialize = objects.flatten := by
  induction objects with
  | nil => rfl
  | cons bytes objects ih =>
      change (nested (ofBytes bytes empty) (ofObjects objects)).serialize = _
      rw [serialize_nested, ofBytes_serialize, ih, List.flatten_cons]
      exact congrArg (· ++ _) (List.append_nil bytes)

theorem ofBytes_ownsObject (bytes : List UInt8) (rest : ObjectTree) :
    (ofBytes bytes rest).ownsObject = rest.ownsObject := by
  induction bytes with
  | nil => rfl
  | cons b bytes ih => exact ih

theorem ofBytes_ownsFlat {bytes : List UInt8} {rest : ObjectTree} (h : rest.OwnsFlat) :
    (ofBytes bytes rest).OwnsFlat := by
  induction bytes with
  | nil => exact h
  | cons b bytes ih => exact ih

theorem ofObjects_ownsFlat (objects : List (List UInt8)) : (ofObjects objects).OwnsFlat := by
  induction objects with
  | nil => trivial
  | cons bytes objects ih => exact ⟨ofBytes_ownsObject bytes empty, ih⟩

/-- What the writer of a list of objects appends is the list's tree. -/
theorem serializeVector_eq_ofList {α : Type} (serialize : α → List UInt8) (list : List α)
    (out : List UInt8) :
    serializeVector (fun a => serializeObject (serialize a)) list out =
      out ++ (ofList serialize list).serialize := by
  rw [serializeVector_append (fun _ _ => rfl), ofList, ofBytes_serialize, ofObjects_serialize,
    List.flatMap_def]
  rfl

/-- The objects of a packet's list, behind the opcode, are entered lawfully. -/
theorem listed_objects_lawful {α : Type} (serialize : α → List UInt8) (list : List α)
    (opcode : UInt8) {data : ByteVector w} {suf : List UInt8}
    (hdata : data.bytes =
      serializeVector (fun a => serializeObject (serialize a)) list [opcode] ++ suf) :
    let vs := (VectorStream.ofVector data).skip 1
    ∃ seen, (ofList serialize list).deserialize vs =
        .ok (seen, vs.skip (ofList serialize list).serialize.length) ∧
      ∀ o ∈ seen, o.Lawful := by
  rw [serializeVector_eq_ofList, List.append_assoc] at hdata
  have hrem := VectorStream.ofVector_remaining data
  have hle : 1 ≤ (VectorStream.ofVector data).remaining.length := by
    rw [hrem, hdata]
    exact Nat.succ_pos _
  have hbehind : ((VectorStream.ofVector data).skip 1).remaining =
      (ofList serialize list).serialize ++ suf := by
    rw [VectorStream.skip_remaining _ hle, hrem, hdata]
    rfl
  exact (ofList serialize list).deserialize_lawful_of_flat
    (ofBytes_ownsFlat (ofObjects_ownsFlat _)) hbehind rfl

end ObjectTree

end RaspiOrbSlam.Protocol
