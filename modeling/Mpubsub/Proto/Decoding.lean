import Mpubsub.Proto.Encoding

/-!
# The generated decoder (`_emit_decode_overrides` of `proto_emitter.py`)

A struct is decoded by ESPHome's `ProtoDecodableMessage`, which calls the override for the wire
type of each record; an override is a switch on the tag whose cases assign a member or append to
it. A record of a field stores the field's value into its member (`call_eq`).
-/

namespace Mpubsub.Proto

open Mpubsub.Lib Mpubsub.Lib.Protobuf

/-- The `wire` of a type in `TYPE_INFO`. -/
def FieldType.wire : FieldType → Nat
  | bool | int32 | int64 | uint32 | uint64 | sint32 | sint64 => 0
  | float => 5
  | string | bytes => 2

/-- ESPHome's `decode_zigzag32` and `decode_zigzag64`. -/
structure Zigzag where
  decode32 : UInt32 → Int32
  decode64 : UInt64 → Int64

/-- They undo the encoder's zigzag. -/
structure Zigzag.Standard (zigzag : Zigzag) : Prop where
  decode32 : ∀ v, zigzag.decode32 (zigzag32 v) = v
  decode64 : ∀ v, zigzag.decode64 (zigzag64 v) = v

/-- The `expr` on a varint; none for the types of other wire types. -/
def varintExpr (zigzag : Zigzag) : (type : FieldType) → UInt64 → Option type.Cpp
  | .bool, value => some (value != 0 : Bool)
  | .sint32, value => some (zigzag.decode32 value.toUInt32)
  | .sint64, value => some (zigzag.decode64 value)
  | .int32, value => some value.toUInt32.toInt32
  | .uint32, value => some value.toUInt32
  | .int64, value => some value.toInt64
  | .uint64, value => some value
  | _, _ => none

/-- The `expr` on a length-delimited value. -/
def lengthExpr : (type : FieldType) → Bytes → Option type.Cpp
  | .string, value => some value
  | .bytes, value => some value
  | _, _ => none

/-- The `expr` on a 32-bit value. -/
def fixed32Expr : (type : FieldType) → UInt32 → Option type.Cpp
  | .float, value => some value
  | _, _ => none

/-- A `case` of an override; a member is known by its place. -/
structure DecodeCase where
  tag : UInt32
  member : Nat
  type : FieldType
  repeated : Bool

/-- The cases of the three overrides. -/
structure Overrides where
  varintCases : List DecodeCase
  lengthCases : List DecodeCase
  fixed32Cases : List DecodeCase

/-- A case in the loop of `_emit_decode_overrides`. -/
def emitDecodeCase (f : Field × Nat) : Option DecodeCase :=
  (FieldType.ofName f.1.type).map fun type => ⟨UInt32.ofInt f.1.tag, f.2, type, f.1.repeated⟩

/-- The cases by the wire type. -/
def groupCases (cases : List DecodeCase) : Overrides where
  varintCases := cases.filter fun c => c.type.wire = 0
  lengthCases := cases.filter fun c => c.type.wire = 2
  fixed32Cases := cases.filter fun c => c.type.wire = 5

/-- `_emit_decode_overrides`. -/
def emitDecodeOverrides (msg : Message) : Option Overrides :=
  (msg.fields.zipIdx.mapM emitDecodeCase).map groupCases

/-- `_emit_member`: a member as it is declared. -/
def emitMember (f : Field) : Option Member :=
  (FieldType.ofName f.type).map fun type =>
    if f.repeated then .repeated type (UInt32.ofInt f.tag) []
    else .singular type (UInt32.ofInt f.tag) type.default

/-- `this->name = expr`, and `this->name.push_back(expr)` for a repeated field. -/
def Member.store {type : FieldType} (x : type.Cpp) : Member → Member
  | .singular _ fieldId _ => .singular type fieldId x
  | .repeated type' fieldId values =>
    if h : type = type' then .repeated type' fieldId (values ++ [h ▸ x])
    else .repeated type' fieldId values

/-- The `switch` of an override: the members, and whether there was a case. -/
def runCases (cases : List DecodeCase) (fieldId : UInt32)
    (expr : (type : FieldType) → Option type.Cpp) (members : List Member) : List Member × Bool :=
  match cases.find? fun c => c.tag = fieldId with
  | none => (members, false)
  | some c =>
    match expr c.type with
    | none => (members, false)
    | some x => (members.modify c.member (Member.store x), true)

namespace Overrides

variable (o : Overrides)

/-- `decode_varint`. -/
def decodeVarint (zigzag : Zigzag) (fieldId : UInt32) (value : UInt64) :
    List Member → List Member × Bool :=
  runCases o.varintCases fieldId fun type => varintExpr zigzag type value

/-- `decode_length`. -/
def decodeLength (fieldId : UInt32) (value : Bytes) : List Member → List Member × Bool :=
  runCases o.lengthCases fieldId fun type => lengthExpr type value

/-- `decode_32bit`. -/
def decode32bit (fieldId : UInt32) (value : UInt32) : List Member → List Member × Bool :=
  runCases o.fixed32Cases fieldId fun type => fixed32Expr type value

/-- The call for a record. What an override returns only tells whether the field is known. -/
def call (zigzag : Zigzag) (members : List Member) (record : UInt32 × WireValue) : List Member :=
  match record.2 with
  | .varint value => (o.decodeVarint zigzag record.1 value members).1
  | .len value => (o.decodeLength record.1 value members).1
  | .fixed32 value => (o.decode32bit record.1 value members).1

end Overrides

/-- ESPHome's `ProtoDecodableMessage`: `decode` goes through some bytes and lets `call` change
the members for each record. -/
structure ProtoDecodableMessage where
  decode : (call : List Member → UInt32 × WireValue → List Member) → Bytes → List Member →
    List Member

/-- It makes the calls of the records in turn. -/
def ProtoDecodableMessage.Standard (base : ProtoDecodableMessage) : Prop :=
  ∀ call (records : List (UInt32 × WireValue)) members,
    (∀ r ∈ records, 0 < r.1 ∧ r.1 < 536870912 ∧ r.2.Fits) →
      base.decode call (records.flatMap fun r => record r.1 r.2) members =
        records.foldl call members

namespace ProtoDecodableMessage

/-- The base class that does just that. -/
def standard : ProtoDecodableMessage where
  decode call data members :=
    match parseRecords data.length data with
    | none => members
    | some records => records.foldl call members

theorem standard_standard : standard.Standard := by
  intro call records members h
  have hcount : records.length ≤ (records.flatMap fun r => record r.1 r.2).length := by
    clear h
    induction records with
    | nil => exact Nat.le_refl _
    | cons r records ih =>
      have := List.length_pos_iff.mpr (record_ne_nil r.1 r.2)
      rw [List.flatMap_cons, List.length_append, List.length_cons]
      omega
  simp only [standard, parseRecords_records (fun r hr => (h r hr).2.2) hcount]

end ProtoDecodableMessage

def Zigzag.standard : Zigzag := ⟨unzigzag32, unzigzag64⟩

theorem Zigzag.standard_standard : Zigzag.standard.Standard :=
  ⟨unzigzag32_zigzag32, unzigzag64_zigzag64⟩

/-- `decode`, with the overrides of a message. -/
def decode (base : ProtoDecodableMessage) (zigzag : Zigzag) (o : Overrides) (data : Bytes)
    (members : List Member) : List Member := base.decode (o.call zigzag) data members

/-! ## A record of a field -/

variable {cases : List DecodeCase} {c : DecodeCase} {zigzag : Zigzag} {members : List Member}

theorem runCases_of_find {fieldId : UInt32} {expr : (type : FieldType) → Option type.Cpp}
    (h : cases.find? (fun c => c.tag = fieldId) = some c) {x : c.type.Cpp}
    (hx : expr c.type = some x) :
    (runCases cases fieldId expr members).1 = members.modify c.member (Member.store x) := by
  unfold runCases
  rw [h]
  simp only [hx]

theorem find?_filter (hc : c ∈ cases) (hunique : ∀ c' ∈ cases, c'.tag = c.tag → c' = c)
    {p : DecodeCase → Bool} (hp : p c = true) :
    (cases.filter p).find? (fun c' => c'.tag = c.tag) = some c := by
  have hmem : c ∈ cases.filter p := List.mem_filter.mpr ⟨hc, hp⟩
  cases hfind : (cases.filter p).find? fun c' => c'.tag = c.tag with
  | none => exact absurd (List.find?_eq_none.mp hfind c hmem) (by simp)
  | some c' =>
    have htag := List.find?_some hfind
    have hin := (List.mem_filter.mp (List.mem_of_find?_eq_some hfind)).1
    rw [hunique c' hin (of_decide_eq_true htag)]

/-- A record of a field stores the value into the member. -/
theorem call_eq (hzigzag : zigzag.Standard) (hc : c ∈ cases)
    (hunique : ∀ c' ∈ cases, c'.tag = c.tag → c' = c) (x : c.type.Cpp) :
    (groupCases cases).call zigzag members (c.tag, c.type.wireValue x) =
      members.modify c.member (Member.store x) := by
  have hfind (wire : Nat) (hwire : c.type.wire = wire) :
      (cases.filter fun c => c.type.wire = wire).find? (fun c' => c'.tag = c.tag) = some c :=
    find?_filter hc hunique (decide_eq_true hwire)
  obtain ⟨tag, member, type, repeated⟩ := c
  cases type with
  | bool =>
    exact runCases_of_find (hfind 0 rfl) (congrArg some (toBool_toUInt64 x))
  | int32 =>
    exact runCases_of_find (hfind 0 rfl) (congrArg some (toInt32_toUInt64 x))
  | int64 =>
    exact runCases_of_find (hfind 0 rfl) (congrArg some (Int64.toInt64_toUInt64 x))
  | uint32 =>
    exact runCases_of_find (hfind 0 rfl) (congrArg some (UInt32.toUInt32_toUInt64 x))
  | uint64 =>
    exact runCases_of_find (hfind 0 rfl) rfl
  | sint32 =>
    have hsame : zigzag.decode32 (zigzag32 x).toUInt64.toUInt32 = x := by
      rw [UInt32.toUInt32_toUInt64]
      exact hzigzag.decode32 x
    exact runCases_of_find (hfind 0 rfl) (congrArg some hsame)
  | sint64 =>
    exact runCases_of_find (hfind 0 rfl) (congrArg some (hzigzag.decode64 x))
  | float => exact runCases_of_find (hfind 5 rfl) rfl
  | string => exact runCases_of_find (hfind 2 rfl) rfl
  | bytes => exact runCases_of_find (hfind 2 rfl) rfl

end Mpubsub.Proto
