import Mpubsub.Wire.Topic

/-!
# Message schemas and the code generator (`proto_emitter.py`)

A `Message` as it comes from the configuration, its `SCHEMA_ID`, `validate`, and
the statements that `emit_struct` puts into `encode_to`: one for each field, with
the encoder of the field's type. A validated message has a known type for every field, so the
generator gets through (`emitEncodeCalls_of_validate`).
-/

namespace Mpubsub.Proto

open Mpubsub.Lib Mpubsub.Wire

/-- The keys of `TYPE_INFO`. -/
inductive FieldType where
  | bool
  | int32
  | int64
  | uint32
  | uint64
  | sint32
  | sint64
  | float
  | string
  | bytes
deriving DecidableEq

namespace FieldType

def all : List FieldType :=
  [bool, int32, int64, uint32, uint64, sint32, sint64, float, string, bytes]

def name : FieldType → String
  | bool => "bool"
  | int32 => "int32"
  | int64 => "int64"
  | uint32 => "uint32"
  | uint64 => "uint64"
  | sint32 => "sint32"
  | sint64 => "sint64"
  | float => "float"
  | string => "string"
  | bytes => "bytes"

/-- The lookup in `TYPE_INFO`. -/
def ofName (type : String) : Option FieldType := all.find? fun t => t.name = type

/-- The C++ type of a member; a `float` is known by its bits. -/
def Cpp : FieldType → Type
  | bool => Bool
  | int32 => Int32
  | int64 => Int64
  | uint32 => UInt32
  | uint64 => UInt64
  | sint32 => Int32
  | sint64 => Int64
  | float => UInt32
  | string => Bytes
  | bytes => Bytes

instance instDecidableEqCpp : (type : FieldType) → DecidableEq type.Cpp
  | bool => inferInstanceAs (DecidableEq Bool)
  | int32 => inferInstanceAs (DecidableEq Int32)
  | int64 => inferInstanceAs (DecidableEq Int64)
  | uint32 => inferInstanceAs (DecidableEq UInt32)
  | uint64 => inferInstanceAs (DecidableEq UInt64)
  | sint32 => inferInstanceAs (DecidableEq Int32)
  | sint64 => inferInstanceAs (DecidableEq Int64)
  | float => inferInstanceAs (DecidableEq UInt32)
  | string => inferInstanceAs (DecidableEq Bytes)
  | bytes => inferInstanceAs (DecidableEq Bytes)

/-- The initializer of a member. -/
def default : (type : FieldType) → type.Cpp
  | bool => false
  | int32 => (0 : Int32)
  | int64 => (0 : Int64)
  | uint32 => (0 : UInt32)
  | uint64 => (0 : UInt64)
  | sint32 => (0 : Int32)
  | sint64 => (0 : Int64)
  | float => (0 : UInt32)
  | string => ([] : Bytes)
  | bytes => ([] : Bytes)

end FieldType

/-- `Field`. -/
structure Field where
  name : String
  type : String
  tag : Int
  repeated : Bool := false
deriving DecidableEq

/-- `Message`. -/
structure Message where
  id : String
  fields : List Field
deriving DecidableEq

/-! ## `SCHEMA_ID` -/

/-- A line of the canonical schema string. -/
def canonicalLine (f : Field) : String :=
  toString f.tag ++ ":" ++ (if f.repeated then "repeated " ++ f.type else f.type) ++ ":" ++ f.name

/-- `canonical_schema_string`. -/
def canonicalSchemaString (msg : Message) : String :=
  "\n".intercalate ((msg.fields.map canonicalLine).mergeSort fun a b => a ≤ b)

/-- `schema_id`. -/
def schemaId (msg : Message) : UInt16 :=
  (topicCrc32 (canonicalSchemaString msg).toUTF8.data.toList).toUInt16

/-! ## Validation -/

/-- The `ValueError`s of `validate`. -/
inductive ValidationError where
  | emptyId
  | noFields (id : String)
  | tagOutOfRange (name id : String) (tag : Int)
  | tagReserved (name : String) (tag : Int)
  | duplicateTag (id : String) (tag : Int) (name : String)
  | duplicateName (id name : String)
  | unknownType (name id type : String)
deriving DecidableEq

/-- The text of an error; `repr` renders a string as a Python literal. -/
def ValidationError.text (repr : String → String) : ValidationError → String
  | emptyId => "message id must be non-empty"
  | noFields id => "message " ++ repr id ++ " must have at least one field"
  | tagOutOfRange name id tag =>
    "field " ++ repr name ++ " in message " ++ repr id ++ ": tag " ++ toString tag ++
      " out of range (1..536870911)"
  | tagReserved name tag =>
    "field " ++ repr name ++ ": tag " ++ toString tag ++
      " is in proto3's reserved 19000-19999 range"
  | duplicateTag id tag name =>
    "message " ++ repr id ++ ": duplicate tag " ++ toString tag ++ " (field " ++ repr name ++ ")"
  | duplicateName id name => "message " ++ repr id ++ ": duplicate field name " ++ repr name
  | unknownType name id type =>
    "field " ++ repr name ++ " in message " ++ repr id ++ ": unknown type " ++ repr type ++
      " (valid: ['bool', 'bytes', 'float', 'int32', 'int64', 'sint32', 'sint64', 'string', " ++
      "'uint32', 'uint64'])"

/-- The loop of `validate`, with the tags and names seen so far. -/
def validateFields (id : String) (seenTags : List Int) (seenNames : List String) :
    List Field → Except ValidationError Unit
  | [] => .ok ()
  | f :: fields =>
    if ¬(1 ≤ f.tag ∧ f.tag ≤ 536870911) then .error (.tagOutOfRange f.name id f.tag)
    else if 19000 ≤ f.tag ∧ f.tag ≤ 19999 then .error (.tagReserved f.name f.tag)
    else if f.tag ∈ seenTags then .error (.duplicateTag id f.tag f.name)
    else if f.name ∈ seenNames then .error (.duplicateName id f.name)
    else if FieldType.ofName f.type = none then .error (.unknownType f.name id f.type)
    else validateFields id (f.tag :: seenTags) (f.name :: seenNames) fields

/-- `validate`. -/
def validate (msg : Message) : Except ValidationError Unit :=
  if msg.id = "" then .error .emptyId
  else if msg.fields = [] then .error (.noFields msg.id)
  else validateFields msg.id [] [] msg.fields

/-- What a field has to be by itself. -/
structure Field.Ok (f : Field) : Prop where
  range : 1 ≤ f.tag ∧ f.tag ≤ 536870911
  reserved : ¬(19000 ≤ f.tag ∧ f.tag ≤ 19999)
  type : FieldType.ofName f.type ≠ none

/-- What `validate` accepts. -/
structure Message.Ok (msg : Message) : Prop where
  id : msg.id ≠ ""
  fields : msg.fields ≠ []
  each : ∀ f ∈ msg.fields, f.Ok
  tags : (msg.fields.map Field.tag).Nodup
  names : (msg.fields.map Field.name).Nodup

theorem validateFields_iff {id : String} {seenTags : List Int} {seenNames : List String}
    {fields : List Field} :
    validateFields id seenTags seenNames fields = .ok () ↔
      (∀ f ∈ fields, f.Ok ∧ f.tag ∉ seenTags ∧ f.name ∉ seenNames) ∧
        (fields.map Field.tag).Nodup ∧ (fields.map Field.name).Nodup := by
  induction fields generalizing seenTags seenNames with
  | nil => simp [validateFields]
  | cons f fields ih =>
    -- The first field passes its checks, and the rest does with it among the seen ones.
    have hfirst : validateFields id seenTags seenNames (f :: fields) = .ok () ↔
        (f.Ok ∧ f.tag ∉ seenTags ∧ f.name ∉ seenNames) ∧
          validateFields id (f.tag :: seenTags) (f.name :: seenNames) fields = .ok () := by
      constructor
      · intro h
        unfold validateFields at h
        split at h
        · cases h
        split at h
        · cases h
        split at h
        · cases h
        split at h
        · cases h
        split at h
        · cases h
        rename_i hrange hreserved htag hname htype
        exact ⟨⟨⟨not_not.mp hrange, hreserved, htype⟩, htag, hname⟩, h⟩
      · rintro ⟨⟨⟨hrange, hreserved, htype⟩, htag, hname⟩, h⟩
        rw [validateFields, if_neg (not_not.mpr hrange), if_neg hreserved, if_neg htag,
          if_neg hname, if_neg htype]
        exact h
    rw [hfirst, ih, List.forall_mem_cons]
    simp only [List.map_cons, List.nodup_cons, List.mem_cons, List.mem_map, not_or, not_exists,
      not_and]
    constructor
    · rintro ⟨hf, hall, htags, hnames⟩
      exact ⟨⟨hf, fun g hg => ⟨(hall g hg).1, (hall g hg).2.1.2, (hall g hg).2.2.2⟩⟩,
        ⟨fun g hg => (hall g hg).2.1.1, htags⟩, fun g hg => (hall g hg).2.2.1, hnames⟩
    · rintro ⟨⟨hf, hall⟩, ⟨hnewTag, htags⟩, hnewName, hnames⟩
      exact ⟨hf, fun g hg => ⟨(hall g hg).1, ⟨hnewTag g hg, (hall g hg).2.1⟩,
        hnewName g hg, (hall g hg).2.2⟩, htags, hnames⟩

theorem validate_iff {msg : Message} : validate msg = .ok () ↔ msg.Ok := by
  unfold validate
  constructor
  · intro h
    split at h
    · cases h
    split at h
    · cases h
    rename_i hid hfields
    obtain ⟨hall, htags, hnames⟩ := validateFields_iff.mp h
    exact ⟨hid, hfields, fun f hf => (hall f hf).1, htags, hnames⟩
  · rintro ⟨hid, hfields, heach, htags, hnames⟩
    rw [if_neg hid, if_neg hfields]
    exact validateFields_iff.mpr
      ⟨fun f hf => ⟨heach f hf, List.not_mem_nil, List.not_mem_nil⟩, htags, hnames⟩

/-- The order of the fields does not matter to `validate`. -/
theorem Message.Ok.perm {msg : Message} (h : msg.Ok) {fields : List Field}
    (hperm : fields.Perm msg.fields) : Message.Ok { msg with fields := fields } :=
  ⟨h.id, fun hnil => h.fields (List.perm_nil.mp (hnil ▸ hperm.symm)),
    fun f hf => h.each f (hperm.mem_iff.mp hf), (hperm.map _).nodup_iff.mpr h.tags,
    (hperm.map _).nodup_iff.mpr h.names⟩

/-! ## Field names (`_field_name_validator` of `__init__.py`) -/

/-- The `cv.Invalid`s of `_field_name_validator`. -/
inductive NameError where
  | empty
  | badStart (value : String)
  | badCharacter (value : String) (c : Char)
deriving DecidableEq

/-- The text of an error; `repr` renders a string as a Python literal. -/
def NameError.text (repr : String → String) : NameError → String
  | empty => "field name must be non-empty"
  | badStart value => "field name " ++ repr value ++ " must start with a letter or underscore"
  | badCharacter value c =>
    "field name " ++ repr value ++ ": invalid character " ++ repr (String.singleton c) ++
      " (allowed: alphanumeric, _)"

/-- `_field_name_validator` on a string; the classes of characters are those of `str.isalpha`
and `str.isalnum`. -/
def fieldNameValidator (isalpha isalnum : Char → Bool) (value : String) :
    Except NameError String :=
  match value.toList with
  | [] => .error .empty
  | c :: _ =>
    if !(isalpha c || c == '_') then .error (.badStart value)
    else
      match value.toList.find? fun c => !(isalnum c || c == '_') with
      | some c => .error (.badCharacter value c)
      | none => .ok value

/-- A name without the separators of the canonical schema string. -/
def Field.Plain (f : Field) : Prop := ':' ∉ f.name.toList ∧ '\n' ∉ f.name.toList

/-! ## The emitted statements -/

/-- A statement of `encode_to`: the call of the encoder for `type`, for the member or in a
loop over its elements. -/
structure EncodeCall where
  type : FieldType
  fieldId : UInt32
  repeated : Bool
deriving DecidableEq

/-- `_emit_encode_call`; none where the lookup of the type fails. -/
def emitEncodeCall (f : Field) : Option EncodeCall :=
  (FieldType.ofName f.type).map fun type => ⟨type, UInt32.ofInt f.tag, f.repeated⟩

/-- The `encode_calls` of `emit_struct`. -/
def emitEncodeCalls (msg : Message) : Option (List EncodeCall) :=
  msg.fields.mapM emitEncodeCall

theorem exists_mapM_emitEncodeCall {fields : List Field}
    (h : ∀ f ∈ fields, FieldType.ofName f.type ≠ none) :
    ∃ calls, fields.mapM emitEncodeCall = some calls := by
  induction fields with
  | nil => exact ⟨[], rfl⟩
  | cons f fields ih =>
    obtain ⟨calls, hcalls⟩ := ih fun g hg => h g (List.mem_cons_of_mem _ hg)
    obtain ⟨type, htype⟩ := Option.ne_none_iff_exists'.mp (h f List.mem_cons_self)
    rw [List.mapM_cons, hcalls, emitEncodeCall, htype]
    exact ⟨_, rfl⟩

/-- A validated message has an `encode_to`. -/
theorem emitEncodeCalls_of_validate {msg : Message} (h : validate msg = .ok ()) :
    ∃ calls, emitEncodeCalls msg = some calls :=
  exists_mapM_emitEncodeCall fun f hf => ((validate_iff.mp h).each f hf).type

end Mpubsub.Proto
