import Mpubsub.Bridge.Body
import Mpubsub.Bridge.Ranges
import Mpubsub.Lib.Base64

/-!
# JSON on the bridge (`json_proto.go`)

`ProtoToJSON` and `JSONToProto` between the body of a message and a JSON object. A JSON text is
known by its tree: an integer is written exactly, a floating-point number in the digits that are
read back as the same, and either is read as the nearest `float64`. Strings become valid UTF-8 both
ways.
-/

namespace Mpubsub.Bridge

open Mpubsub.Lib Mpubsub.Lib.Ieee754
open Mpubsub.Proto (FieldType)

inductive Json where
  | null
  | bool (b : Bool)
  | integer (n : Int)
  | float (bits : UInt64)
  | string (s : Bytes)
  | array (l : List Json)
  | object (members : List (Bytes × Json))

/-- A `float64` that is no NaN and no infinity. -/
def isFinite (bits : UInt64) : Bool := bits.toNat % 2 ^ binary64.width < binary64.infinity

/-! ## `json.Marshal` and `json.Unmarshal` -/

/-- Members in the order of their keys. -/
def sortMembers (members : List (Bytes × Json)) : List (Bytes × Json) :=
  (members.mergeSort fun p q => p.1 ≤ q.1).map fun p => (toValid p.1, p.2)

/-- A floating-point number, which is finite. -/
def marshalFloat (bits : UInt64) : Option Json :=
  if isFinite bits then some (.float bits) else none

mutual

/-- `json.Marshal`. -/
def marshal : Value → Option Json
  | .null => some .null
  | .bool b => some (.bool b)
  | .int n | .int64 n => some (.integer n.toInt)
  | .int32 n => some (.integer n.toInt)
  | .uint n | .uint64 n => some (.integer n.toNat)
  | .uint32 n => some (.integer n.toNat)
  | .float32 bits => marshalFloat (widen bits)
  | .float64 bits => marshalFloat bits
  | .string s => some (.string (toValid s))
  | .bytes b => some (.string (Base64.encode b))
  | .list l => (marshalList l).map .array
  | .object members => (marshalMembers members).map fun members => .object (sortMembers members)

def marshalList : List Value → Option (List Json)
  | [] => some []
  | v :: l => do
    let j ← marshal v
    let l ← marshalList l
    return j :: l

def marshalMembers : List (Bytes × Value) → Option (List (Bytes × Json))
  | [] => some []
  | (k, v) :: members => do
    let j ← marshal v
    let members ← marshalMembers members
    return (k, j) :: members

end

/-- A map with the members; of two with one key the last one counts. -/
def ofMembers (members : List (Bytes × Value)) : Dict Bytes Value :=
  members.foldl (fun d p => d.set p.1 p.2) .empty

mutual

/-- `json.Unmarshal` to a value of type `any`. A number that is out of range is an error. -/
def unmarshal : Json → Option Value
  | .null => some .null
  | .bool b => some (.bool b)
  | .integer n => if isFinite (floatOfInt n) then some (.float64 (floatOfInt n)) else none
  | .float bits => some (.float64 bits)
  | .string s => some (.string (toValid s))
  | .array l => (unmarshalList l).map .list
  | .object members =>
    (unmarshalMembers members).map fun members => .object (ofMembers members).entries

def unmarshalList : List Json → Option (List Value)
  | [] => some []
  | j :: l => do
    let v ← unmarshal j
    let l ← unmarshalList l
    return v :: l

def unmarshalMembers : List (Bytes × Json) → Option (List (Bytes × Value))
  | [] => some []
  | (k, j) :: members => do
    let v ← unmarshal j
    let members ← unmarshalMembers members
    return (toValid k, v) :: members

end

/-- `json.Unmarshal` to a `map[string]any`. -/
def unmarshalMap : Json → Option (Dict Bytes Value)
  | .null => some .empty
  | .object members => (unmarshalMembers members).map ofMembers
  | _ => none

/-! ## `ProtoToJSON` and `JSONToProto` -/

/-- The errors of `encoding/json` and of `encoding/base64`. -/
inductive LibraryError where
  | unmarshal (json : Json)
  | unsupportedValue
  | corruptInput (text : Bytes)

/-- The errors of `ProtoToJSON` and `JSONToProto`. -/
inductive JsonError where
  | parseJson (err : LibraryError)
  | unknownField (id name : Bytes)
  | inField (name : Bytes) (err : JsonError)
  | notAnArray (v : Value)
  | element (i : Nat) (err : JsonError)
  | notAString (v : Value)
  | base64 (err : LibraryError)
  | marshal (err : LibraryError)
  | proto (err : ProtoError)

/-- The text of an error; `quote` is the format `%q`, `raw` is `%s` and `render` is `%v`. -/
def JsonError.text (quote raw : Bytes → String) (render : Value → String)
    (library : LibraryError → String) : JsonError → String
  | parseJson err => "parse json: " ++ library err
  | unknownField id name => "schema " ++ quote id ++ ": unknown field " ++ quote name
  | inField name err => "field " ++ quote name ++ ": " ++ err.text quote raw render library
  | notAnArray v => "repeated field expects a JSON array, got " ++ v.goType
  | element i err => "element " ++ toString i ++ ": " ++ err.text quote raw render library
  | notAString v => "bytes field expects a base64 string, got " ++ v.goType
  | base64 err => "base64 decode: " ++ library err
  | marshal err => library err
  | proto err => err.text quote raw render

/-- `goScalarToJSON`. -/
def goScalarToJSON (typ : Bytes) (v : Value) : Value :=
  if typ = utf8 "bytes" then
    match v with
    | .bytes b => .string (Base64.encode b)
    | v => v
  else v

/-- `goValueToJSON`. -/
def goValueToJSON (f : SchemaField) (v : Value) : Value :=
  if f.repeated then
    match v with
    | .list arr => .list (arr.map (goScalarToJSON f.type))
    | v => v
  else goScalarToJSON f.type v

/-- The values of a decoded map, whose keys are names of fields. -/
def valuesToJSON (s : Schema) (values : Dict Bytes Value) : Dict Bytes Value :=
  values.mapVal fun k v =>
    match s.fieldNamed k with
    | some f => goValueToJSON f v
    | none => v

/-- `ProtoToJSON`. -/
def protoToJSON (s : Schema) (body : Bytes) : Except JsonError Json :=
  match decodeProto s body with
  | .error err => .error (.proto err)
  | .ok values =>
    match marshal (.object (valuesToJSON s values).entries) with
    | some json => .ok json
    | none => .error (.marshal .unsupportedValue)

/-- `jsonScalarToGo`. -/
def jsonScalarToGo (typ : Bytes) (v : Value) : Except JsonError Value :=
  if typ = utf8 "bytes" then
    match v with
    | .string s =>
      match Base64.decode s with
      | some b => .ok (.bytes b)
      | none => .error (.base64 (.corruptInput s))
    | v => .error (.notAString v)
  else .ok v

/-- The loop of `jsonValueToGo` from the element `i` on. -/
def jsonElementsToGo (typ : Bytes) : Nat → List Value → Except JsonError (List Value)
  | _, [] => .ok []
  | i, elem :: arr =>
    match jsonScalarToGo typ elem with
    | .error err => .error (.element i err)
    | .ok c => do
      let out ← jsonElementsToGo typ (i + 1) arr
      return c :: out

/-- `jsonValueToGo`. -/
def jsonValueToGo (f : SchemaField) (v : Value) : Except JsonError Value :=
  if f.repeated then
    match v with
    | .list arr => do
      let out ← jsonElementsToGo f.type 0 arr
      return .list out
    | v => .error (.notAnArray v)
  else jsonScalarToGo f.type v

/-- An iteration over the map, in whatever order that is. -/
def prepare (s : Schema) (prepared : Dict Bytes Value) (p : Bytes × Value) :
    Except JsonError (Dict Bytes Value) :=
  match s.fieldNamed p.1 with
  | none => .error (.unknownField s.id p.1)
  | some f =>
    match jsonValueToGo f p.2 with
    | .error err => .error (.inField p.1 err)
    | .ok coerced => .ok (prepared.set p.1 coerced)

/-- `JSONToProto`. -/
def jsonToProto (conv : FloatConversion) (s : Schema) (json : Json) : Except JsonError Bytes :=
  match unmarshalMap json with
  | none => .error (.parseJson (.unmarshal json))
  | some raw =>
    match raw.entries.find? fun p => s.byName.get? p.1 = none with
    | some (k, _) => .error (.unknownField s.id k)
    | none => do
      let prepared ← raw.entries.foldlM (prepare s) .empty
      match encodeProto conv s prepared with
      | .ok body => return body
      | .error err => .error (.proto err)

/-! ## What is marshalled -/

theorem marshalMembers_eq (members : List (Bytes × Value)) :
    marshalMembers members = mapSnd marshal members := by
  induction members with
  | nil => rfl
  | cons p members ih =>
    obtain ⟨k, v⟩ := p
    rw [marshalMembers, mapSnd, ih]
    cases marshal v with
    | none => rfl
    | some j => cases mapSnd marshal members <;> rfl

theorem marshalList_eq_none_iff {l : List Value} :
    marshalList l = none ↔ ∃ v ∈ l, marshal v = none := by
  induction l with
  | nil => simp [marshalList]
  | cons v l ih =>
    rw [List.exists_mem_cons_iff, ← ih, marshalList]
    cases marshal v with
    | none => simp
    | some j => cases marshalList l <;> simp

/-- No NaN and no infinity, by itself or in a list. -/
def Value.Finite : Value → Prop
  | .float64 bits => isFinite bits = true
  | .list l => ∀ bits, .float64 bits ∈ l → isFinite bits = true
  | _ => True

theorem typ_of_fieldType {typ : Bytes} {type : FieldType} (h : fieldType typ = some type) :
    utf8 type.name = typ := by
  have hname := List.find?_some h
  exact of_decide_eq_true hname

theorem typ_ne_bytes {typ : Bytes} {type : FieldType} (h : fieldType typ = some type)
    (hne : type ≠ .bytes) : typ ≠ utf8 "bytes" := by
  intro heq
  have hname := utf8_injective ((typ_of_fieldType h).trans heq)
  cases type <;> first | exact hne rfl | exact absurd hname (by decide)

theorem goScalarToJSON_of_ne {typ : Bytes} {type : FieldType} (h : fieldType typ = some type)
    (hne : type ≠ .bytes) (v : Value) : goScalarToJSON typ v = v := if_neg (typ_ne_bytes h hne)

theorem goScalarToJSON_bytes {typ : Bytes} (h : fieldType typ = some .bytes) (b : Bytes) :
    goScalarToJSON typ (.bytes b) = .string (Base64.encode b) :=
  if_pos (typ_of_fieldType h).symm

section

variable {f : SchemaField} {type : FieldType} {v : Value} {bound : Nat}

/-- Of the values that a body has, only the floating-point numbers can fail. -/
theorem marshal_scalar {typ : Bytes} (htype : fieldType typ = some type)
    (hread : v.ReadFrom bound type) :
    marshal (goScalarToJSON typ v) = none ↔ ∃ bits, v = .float64 bits ∧ isFinite bits = false := by
  obtain ⟨w, hw, -⟩ := hread
  have hother (hsome : (marshal v).isSome = true) (hne : type ≠ .bytes)
      (hkind : ∀ bits, v ≠ .float64 bits) :
      marshal (goScalarToJSON typ v) = none ↔
        ∃ bits, v = .float64 bits ∧ isFinite bits = false := by
    rw [goScalarToJSON_of_ne htype hne]
    refine iff_of_false (fun hnone => ?_) fun ⟨bits, heq, _⟩ => hkind bits heq
    rw [hnone] at hsome
    cases hsome
  cases type with
  | bool | int32 | int64 | uint32 | uint64 | sint32 | sint64 =>
    cases w with
    | varint n =>
      cases hw
      exact hother rfl (by decide) fun bits heq => by cases heq
    | len payload | fixed32 bits => cases hw
  | float =>
    cases w with
    | fixed32 bits =>
      cases hw
      rw [goScalarToJSON_of_ne htype (by decide), marshal, marshalFloat]
      cases hfinite : isFinite (widen bits) <;> simp [hfinite]
    | varint n | len payload => cases hw
  | string =>
    cases w with
    | len payload =>
      cases hw
      exact hother rfl (by decide) fun bits heq => by cases heq
    | varint n | fixed32 bits => cases hw
  | bytes =>
    cases w with
    | len payload =>
      cases hw
      rw [goScalarToJSON_bytes htype]
      exact iff_of_false (fun hnone => by cases hnone) fun ⟨bits, heq, _⟩ => by cases heq
    | varint n | fixed32 bits => cases hw

/-- What a map has for a field is marshalled where it is finite. -/
theorem marshal_field (hhas : f.Has bound v) : marshal (goValueToJSON f v) = none ↔ ¬v.Finite := by
  obtain ⟨type, htype, hhas⟩ := hhas
  unfold goValueToJSON
  by_cases hrep : f.repeated = true
  · rw [if_pos hrep] at hhas ⊢
    obtain ⟨l, rfl, -, hall⟩ := hhas
    simp only [marshal, Option.map_eq_none_iff, marshalList_eq_none_iff, List.mem_map,
      Value.Finite, not_forall]
    constructor
    · rintro ⟨-, ⟨elem, helem, rfl⟩, hnone⟩
      obtain ⟨bits, rfl, hbits⟩ := (marshal_scalar htype (hall elem helem)).mp hnone
      exact ⟨bits, helem, by rw [hbits]; exact Bool.false_ne_true⟩
    · rintro ⟨bits, hmem, hbits⟩
      exact ⟨_, ⟨_, hmem, rfl⟩, (marshal_scalar htype (hall _ hmem)).mpr
        ⟨bits, rfl, Bool.eq_false_of_not_eq_true hbits⟩⟩
  · rw [if_neg hrep] at hhas ⊢
    rw [marshal_scalar htype hhas]
    constructor
    · rintro ⟨bits, rfl, hbits⟩
      simp [Value.Finite, hbits]
    · intro hnot
      obtain ⟨w, hw, -⟩ := hhas
      cases v with
      | float64 bits => exact ⟨bits, rfl, Bool.eq_false_of_not_eq_true hnot⟩
      | list l => cases type <;> cases w <;> cases hw
      | _ => exact absurd trivial hnot

end

section

variable {s : Schema} {out : Dict Bytes Value} {bound : Nat}

theorem get?_valuesToJSON (hs : s.Valid) {f : SchemaField} (hf : f ∈ s.fields) :
    (valuesToJSON s out).get? f.name = (out.get? f.name).map (goValueToJSON f) := by
  rw [valuesToJSON, Dict.get?_mapVal]
  simp only [fieldNamed_of_mem hs hf]

theorem map_fst_valuesToJSON (s : Schema) (out : Dict Bytes Value) :
    (valuesToJSON s out).entries.map Prod.fst = out.entries.map Prod.fst := by
  rw [valuesToJSON, Dict.mapVal, List.map_map]
  rfl

/-- Every value of a decoded map is marshalled, or one is not finite. -/
theorem mapSnd_marshal_eq_none_iff (hs : s.Valid) (howned : Owned s bound out) :
    mapSnd marshal (valuesToJSON s out).entries = none ↔
      ∃ name v, out.get? name = some v ∧ ¬v.Finite := by
  have hiff {name : Bytes} {v : Value} (hv : out.get? name = some v) :
      ∃ f ∈ s.fields, f.name = name ∧ (marshal (goValueToJSON f v) = none ↔ ¬v.Finite) := by
    obtain ⟨f, hf, hname, hhas⟩ := howned _ _ hv
    exact ⟨f, hf, hname, marshal_field hhas⟩
  rw [mapSnd_eq_none_iff]
  constructor
  · rintro ⟨⟨k, j⟩, hmem, hnone⟩
    have hget := Dict.mem_entries_iff.mp hmem
    obtain ⟨v, hv⟩ : ∃ v, out.get? k = some v := by
      rw [valuesToJSON, Dict.get?_mapVal] at hget
      obtain ⟨v, hv, -⟩ := Option.map_eq_some_iff.mp hget
      exact ⟨v, hv⟩
    obtain ⟨f, hf, rfl, hfinite⟩ := hiff hv
    rw [get?_valuesToJSON hs hf, hv, Option.map_some, Option.some.injEq] at hget
    exact ⟨_, v, hv, hfinite.mp (hget ▸ hnone)⟩
  · rintro ⟨name, v, hv, hnot⟩
    obtain ⟨f, hf, rfl, hfinite⟩ := hiff hv
    refine ⟨(f.name, goValueToJSON f v), Dict.mem_entries_iff.mpr ?_, hfinite.mpr hnot⟩
    rw [get?_valuesToJSON hs hf, hv, Option.map_some]

end

/-- `ProtoToJSON` succeeds where the values of the members are marshalled. -/
theorem protoToJSON_eq {s : Schema} {body : Bytes} {out : Dict Bytes Value}
    (h : decodeProto s body = .ok out) :
    protoToJSON s body =
      match mapSnd marshal (valuesToJSON s out).entries with
      | some members => .ok (.object (sortMembers members))
      | none => .error (.marshal .unsupportedValue) := by
  unfold protoToJSON
  simp only [h, marshal, marshalMembers_eq]
  cases mapSnd marshal (valuesToJSON s out).entries <;> rfl

end Mpubsub.Bridge
