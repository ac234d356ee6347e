import RaspiOrbSlam.Protocol.Codec

/-!
# Sequences of values

Values of the serializer's lossless types, lists of them to any depth included,
written one after another and read back in the same order. The reader is told
the types only; where it starts, which shadow offset is installed and what
follows the last encoding do not matter.
-/

namespace RaspiOrbSlam.Protocol

open Foundation

variable {w : Nat}

/-- The types that a vector may hold. A `vector<bool>` has no addressable elements. -/
inductive ElementType where
  | int8 | uint8 | uint16 | float | vec2 | string | ledColor | overlayPoint
  | vector (element : ElementType)
  deriving DecidableEq

inductive ValueType where
  | bool
  | element (ty : ElementType)
  deriving DecidableEq

@[reducible] def ElementType.Value : ElementType → Type
  | int8 => Int8
  | uint8 => UInt8
  | uint16 => UInt16
  | float => UInt32
  | vec2 => Vec2
  | string => List UInt8
  | ledColor => LedColor
  | overlayPoint => OverlayPoint
  | vector element => List element.Value

@[reducible] def ValueType.Value : ValueType → Type
  | bool => Bool
  | element ty => ty.Value

/-- Every string and every vector inside the value is short enough. -/
def ElementType.Small (pf : Platform w) : (ty : ElementType) → ty.Value → Prop
  | string, str => pf.Fits str.length
  | vector element, list => pf.Fits list.length ∧ ∀ a ∈ list, element.Small pf a
  | _, _ => True

def ValueType.Small (pf : Platform w) : (ty : ValueType) → ty.Value → Prop
  | bool, _ => True
  | element ty, value => ty.Small pf value

/-- The overloads that a type of element resolves to. -/
def ElementType.codec (pf : Platform w) : (ty : ElementType) → Codec w ty.Value
  | int8 => Codec.int8
  | uint8 => Codec.uint8
  | uint16 => Codec.uint16 pf
  | float => Codec.float
  | vec2 => Codec.vec2
  | string => Codec.string pf
  | ledColor => Codec.ledColor.object
  | overlayPoint => (Codec.overlayPoint pf).object
  | vector element => (element.codec pf).vector pf

def ValueType.codec (pf : Platform w) : (ty : ValueType) → Codec w ty.Value
  | bool => Codec.bool
  | element ty => ty.codec pf

/-- A value together with its type. -/
abbrev TypedValue := (ty : ValueType) × ty.Value

def serializeAll (pf : Platform w) (values : List TypedValue) (out : List UInt8) :
    List UInt8 :=
  values.foldl (fun out value => (value.1.codec pf).serialize value.2 out) out

def deserializeAll (pf : Platform w) : List ValueType → StreamM w (List TypedValue)
  | [] => return []
  | ty :: rest => do
      let value ← (ty.codec pf).deserialize
      let values ← deserializeAll pf rest
      return ⟨ty, value⟩ :: values

theorem ElementType.codec_valid (pf : Platform w) (ty : ElementType) (value : ty.Value)
    (h : ty.Small pf value) : (ty.codec pf).Valid value := by
  induction ty with
  | vector element ih => exact ⟨h.1, fun a ha => ih a (h.2 a ha)⟩
  | string => exact h
  | _ => trivial

/-- No type of element loses anything. -/
theorem ElementType.codec_restored (pf : Platform w) (ty : ElementType) :
    (ty.codec pf).restored = id := by
  induction ty with
  | vector element ih =>
      change List.map (element.codec pf).restored = id
      rw [ih, List.map_id_fun]
  | _ => rfl

theorem ValueType.codec_valid (pf : Platform w) (ty : ValueType) (value : ty.Value)
    (h : ty.Small pf value) : (ty.codec pf).Valid value := by
  cases ty with
  | bool => trivial
  | element ty => exact ty.codec_valid pf value h

theorem ValueType.codec_restored (pf : Platform w) (ty : ValueType) :
    (ty.codec pf).restored = id := by
  cases ty with
  | bool => rfl
  | element ty => exact ty.codec_restored pf

theorem serializeAll_append (pf : Platform w) (values : List TypedValue) (out : List UInt8) :
    serializeAll pf values out = out ++ serializeAll pf values [] := by
  induction values generalizing out with
  | nil => exact (List.append_nil out).symm
  | cons value rest ih =>
      let c := value.1.codec pf
      calc
        serializeAll pf rest (c.serialize value.2 out) =
            out ++ c.serialize value.2 [] ++ serializeAll pf rest [] := by
          rw [ih, c.serialize_append]
        _ = out ++ serializeAll pf rest (c.serialize value.2 []) := by
          rw [ih (c.serialize value.2 []), List.append_assoc]

/-- One value after another, each from where the previous one ended. -/
theorem deserializeAll_readBack (pf : Platform w) (values : List TypedValue)
    (hsmall : ∀ value ∈ values, value.1.Small pf value.2) (pre suf : List UInt8)
    (vec : ByteVector w) (hvec : vec.bytes = serializeAll pf values pre ++ suf)
    (vs : VectorStream w) (hvs : vs.StandsAfter vec pre) :
    ∃ vs', deserializeAll pf (values.map Sigma.fst) vs = .ok (values, vs') ∧
      vs'.StandsAfter vec (serializeAll pf values pre) ∧
      vs'.mShadowOffset = vs.mShadowOffset := by
  induction values generalizing pre vs with
  | nil => exact ⟨vs, rfl, hvs, rfl⟩
  | cons value rest ih =>
      obtain ⟨ty, a⟩ := value
      have hvalid := ty.codec_valid pf a (hsmall ⟨ty, a⟩ (by simp))
      change vec.bytes = serializeAll pf rest ((ty.codec pf).serialize a pre) ++ suf at hvec
      have hfront : vec.bytes =
          (ty.codec pf).serialize a pre ++ (serializeAll pf rest [] ++ suf) := by
        rw [hvec, serializeAll_append, List.append_assoc]
      obtain ⟨hread, hstands⟩ := (ty.codec pf).readBack hvalid hfront hvs
      rw [ty.codec_restored] at hread
      obtain ⟨vs', hrest, hend, hshadow⟩ :=
        ih (fun v hv => hsmall v (by simp [hv])) _ hvec _ hstands
      refine ⟨vs', ?_, hend, hshadow⟩
      rw [List.map_cons, deserializeAll, StreamM.bind_ok hread, StreamM.bind_ok hrest]
      rfl

/-- Writing a sequence leaves the old bytes in place, and reading its types from
behind them returns the sequence and ends on the byte after it. -/
theorem valueSequence_readBack (pf : Platform w) (values : List TypedValue)
    (hsmall : ∀ value ∈ values, value.1.Small pf value.2) (pre : List UInt8) :
    pre <+: serializeAll pf values pre ∧
      ∀ (suf : List UInt8) (vec : ByteVector w), vec.bytes = serializeAll pf values pre ++ suf →
        ∀ vs : VectorStream w, vs.StandsAfter vec pre →
          ∃ vs', deserializeAll pf (values.map Sigma.fst) vs = .ok (values, vs') ∧
            vs'.StandsAfter vec (serializeAll pf values pre) ∧
            vs'.mShadowOffset = vs.mShadowOffset :=
  ⟨⟨_, (serializeAll_append pf values pre).symm⟩, fun suf vec hvec vs hvs =>
    deserializeAll_readBack pf values hsmall pre suf vec hvec vs hvs⟩

/-- A list of strings and a bool behind one old byte, in front of another. -/
theorem valueSequence_readBack_strings_bool :
    let values : List TypedValue :=
      [⟨.element (.vector .string), [[0x68, 0x69], []]⟩, ⟨.bool, true⟩]
    let vec : ByteVector 32 := ⟨[9, 2, 2, 0x68, 0x69, 0, 1, 7], by decide⟩
    ∃ vs', deserializeAll armhf [.element (.vector .string), .bool] ⟨vec, 4, -3⟩ =
        .ok (values, vs') ∧
      vs'.StandsAfter vec [9, 2, 2, 0x68, 0x69, 0, 1] ∧ vs'.mShadowOffset = -3 := by
  intro values vec
  have hbytes : serializeAll armhf values [9] = [9, 2, 2, 0x68, 0x69, 0, 1] := by decide +kernel
  have hsmall : ∀ value ∈ values, value.1.Small armhf value.2 := by
    simp [values, ValueType.Small, ElementType.Small, Platform.Fits, armhf]
  have h := (valueSequence_readBack armhf values hsmall [9]).2 [7] vec
  rw [hbytes] at h
  exact h rfl ⟨vec, 4, -3⟩ ⟨rfl, by decide⟩

end RaspiOrbSlam.Protocol
