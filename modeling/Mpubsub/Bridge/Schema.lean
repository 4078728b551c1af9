import Mpubsub.Bridge.Encode
import Mpubsub.Lib.Dict
import Mpubsub.Lib.Lines
import Mpubsub.Proto.Emitter

/-!
# Schemas on the bridge (`schema.go`)

`NewSchema` checks the fields of a schema and builds the two tables that the codec looks
fields up in (`Schema.Valid`); the `SCHEMA_ID` is kept with them. A Go string is its bytes.
-/

namespace Mpubsub.Bridge

open Mpubsub.Lib
open Mpubsub.Proto (FieldType)

/-- `SchemaField`. -/
structure SchemaField where
  name : Bytes
  type : Bytes
  tag : UInt32
  repeated : Bool := false
deriving DecidableEq

/-- `Schema`. -/
structure Schema where
  id : Bytes
  fields : List SchemaField
  byTag : Dict UInt32 Nat := .empty
  byName : Dict Bytes Nat := .empty
  sid : UInt16 := 0

/-- The lookup in `validTypes`, and the `case` of a type. -/
def fieldType (typ : Bytes) : Option FieldType := FieldType.all.find? fun t => utf8 t.name = typ

/-- A line of the canonical schema string. -/
def canonicalLine (f : SchemaField) : Bytes :=
  let typ := if f.repeated then utf8 "repeated " ++ f.type else f.type
  utf8 (toString f.tag.toNat) ++ utf8 ":" ++ typ ++ utf8 ":" ++ f.name

/-- `canonicalSchemaString`. -/
def canonicalSchemaString (s : Schema) : Bytes :=
  (utf8 "\n").intercalate ((s.fields.map canonicalLine).mergeSort fun a b => a ≤ b)

/-- `crc32.ChecksumIEEE`. -/
def checksumIEEE (data : Bytes) : UInt32 := ⟨Crc.crc32 (data.map UInt8.toBitVec)⟩

/-- `computeSchemaID`. -/
def computeSchemaID (s : Schema) : UInt16 :=
  (checksumIEEE (canonicalSchemaString s) &&& 0xFFFF).toUInt16

/-- The errors of `NewSchema`. -/
inductive SchemaError where
  | emptyId
  | noFields (id : Bytes)
  | tagOutOfRange (id name : Bytes) (tag : UInt32)
  | tagReserved (id name : Bytes) (tag : UInt32)
  | duplicateTag (id : Bytes) (tag : UInt32) (name : Bytes)
  | duplicateName (id name : Bytes)
  | unknownType (id name typ : Bytes)
deriving DecidableEq

/-- The text of an error; `quote` is the format `%q`. -/
def SchemaError.text (quote : Bytes → String) : SchemaError → String
  | emptyId => "schema id must be non-empty"
  | noFields id => "schema " ++ quote id ++ " must have at least one field"
  | tagOutOfRange id name tag =>
    "schema " ++ quote id ++ " field " ++ quote name ++ ": tag " ++ toString tag ++
      " out of range (1..536870911)"
  | tagReserved id name tag =>
    "schema " ++ quote id ++ " field " ++ quote name ++ ": tag " ++ toString tag ++
      " is in proto3's reserved 19000-19999 range"
  | duplicateTag id tag name =>
    "schema " ++ quote id ++ ": duplicate tag " ++ toString tag ++ " (field " ++ quote name ++ ")"
  | duplicateName id name => "schema " ++ quote id ++ ": duplicate field name " ++ quote name
  | unknownType id name typ =>
    "schema " ++ quote id ++ " field " ++ quote name ++ ": unknown type " ++ quote typ

/-- The loop of `NewSchema` from field `i` on, with the tables so far. -/
def indexFields (id : Bytes) (byTag : Dict UInt32 Nat) (byName : Dict Bytes Nat) (i : Nat) :
    List SchemaField → Except SchemaError (Dict UInt32 Nat × Dict Bytes Nat)
  | [] => .ok (byTag, byName)
  | f :: fields =>
    if f.tag < 1 ∨ f.tag > 536870911 then .error (.tagOutOfRange id f.name f.tag)
    else if f.tag ≥ 19000 ∧ f.tag ≤ 19999 then .error (.tagReserved id f.name f.tag)
    else if byTag.get? f.tag ≠ none then .error (.duplicateTag id f.tag f.name)
    else if byName.get? f.name ≠ none then .error (.duplicateName id f.name)
    else if fieldType f.type = none then .error (.unknownType id f.name f.type)
    else indexFields id (byTag.set f.tag i) (byName.set f.name i) (i + 1) fields

/-- `NewSchema`. -/
def newSchema (id : Bytes) (fields : List SchemaField) : Except SchemaError Schema :=
  if id = [] then .error .emptyId
  else if fields = [] then .error (.noFields id)
  else do
    let (byTag, byName) ← indexFields id .empty .empty 0 fields
    let s : Schema := { id, fields, byTag, byName }
    return { s with sid := computeSchemaID s }

/-- `SchemaID`. -/
def Schema.schemaID (s : Schema) : UInt16 := s.sid

/-! ## What `NewSchema` accepts -/

/-- What a field has to be by itself. -/
structure SchemaField.Ok (f : SchemaField) : Prop where
  range : ¬(f.tag < 1 ∨ f.tag > 536870911)
  reserved : ¬(f.tag ≥ 19000 ∧ f.tag ≤ 19999)
  type : fieldType f.type ≠ none

/-- What `NewSchema` accepts. -/
structure Accepted (id : Bytes) (fields : List SchemaField) : Prop where
  named : id ≠ []
  nonempty : fields ≠ []
  each : ∀ f ∈ fields, f.Ok
  tags : (fields.map SchemaField.tag).Nodup
  names : (fields.map SchemaField.name).Nodup

/-- What `NewSchema` builds: the tables are those of the fields. -/
structure Schema.Valid (s : Schema) : Prop where
  accepted : Accepted s.id s.fields
  byTag : Dict.Indexes SchemaField.tag s.fields s.byTag
  byName : Dict.Indexes SchemaField.name s.fields s.byName
  sid : s.sid = computeSchemaID s

section
variable {id : Bytes} {byTag : Dict UInt32 Nat} {byName : Dict Bytes Nat}
  {before fields : List SchemaField}

/-- The loop gets through where the fields are new to the tables, -/
theorem indexFields_of_ok (htag : Dict.Indexes SchemaField.tag before byTag)
    (hname : Dict.Indexes SchemaField.name before byName) (heach : ∀ f ∈ fields, f.Ok)
    (htags : ((before ++ fields).map SchemaField.tag).Nodup)
    (hnames : ((before ++ fields).map SchemaField.name).Nodup) :
    ∃ tables, indexFields id byTag byName before.length fields = .ok tables := by
  induction fields generalizing before byTag byName with
  | nil => exact ⟨_, rfl⟩
  | cons f fields ih =>
    have hf := heach f List.mem_cons_self
    have hlength : before.length + 1 = (before ++ [f]).length := by
      rw [List.length_append, List.length_singleton]
    have hfresh {κ : Type} [DecidableEq κ] {key : SchemaField → κ} {d : Dict κ Nat}
        (h : Dict.Indexes key before d) (hnodup : ((before ++ f :: fields).map key).Nodup) :
        d.get? (key f) = none := by
      rw [h.get?_eq_none_iff]
      rw [List.map_append, List.map_cons] at hnodup
      intro hin
      exact List.disjoint_of_nodup_append hnodup hin List.mem_cons_self
    have htag' := hfresh htag htags
    have hname' := hfresh hname hnames
    rw [indexFields, if_neg hf.range, if_neg hf.reserved, if_neg (not_not.mpr htag'),
      if_neg (not_not.mpr hname'), if_neg hf.type, hlength]
    rw [List.append_cons] at htags hnames
    exact ih (htag.append htag') (hname.append hname')
      (fun g hg => heach g (List.mem_cons_of_mem _ hg)) htags hnames

/-- and what it gets through with are tables of the fields. -/
theorem indexes_of_indexFields (htag : Dict.Indexes SchemaField.tag before byTag)
    (hname : Dict.Indexes SchemaField.name before byName)
    (htags : (before.map SchemaField.tag).Nodup) (hnames : (before.map SchemaField.name).Nodup)
    {tables : Dict UInt32 Nat × Dict Bytes Nat}
    (h : indexFields id byTag byName before.length fields = .ok tables) :
    Dict.Indexes SchemaField.tag (before ++ fields) tables.1 ∧
      Dict.Indexes SchemaField.name (before ++ fields) tables.2 ∧ (∀ f ∈ fields, f.Ok) ∧
      ((before ++ fields).map SchemaField.tag).Nodup ∧
      ((before ++ fields).map SchemaField.name).Nodup := by
  induction fields generalizing before byTag byName with
  | nil =>
    cases h
    rw [List.append_nil]
    exact ⟨htag, hname, fun f hf => absurd hf List.not_mem_nil, htags, hnames⟩
  | cons f fields ih =>
    unfold indexFields at h
    split at h
    · cases h
    split at h
    · cases h
    split at h
    · cases h
    split at h
    · cases h
    split at h
    · cases h
    rename_i hrange hreserved htag' hname' htype
    rw [not_not] at htag' hname'
    have hnodup {κ : Type} [DecidableEq κ] {key : SchemaField → κ} {d : Dict κ Nat}
        (hindexes : Dict.Indexes key before d) (hnodup : (before.map key).Nodup)
        (hnone : d.get? (key f) = none) : ((before ++ [f]).map key).Nodup := by
      rw [List.map_append, List.map_singleton]
      exact List.nodup_append.mpr ⟨hnodup, List.nodup_singleton _, fun k hk k' hk' heq => by
        rw [List.mem_singleton.mp hk'] at heq
        exact hindexes.get?_eq_none_iff.mp hnone (heq ▸ hk)⟩
    have hlength : before.length + 1 = (before ++ [f]).length := by
      rw [List.length_append, List.length_singleton]
    rw [hlength] at h
    obtain ⟨h1, h2, h3, h4, h5⟩ := ih (htag.append htag') (hname.append hname')
      (hnodup htag htags htag') (hnodup hname hnames hname') h
    rw [← List.append_cons] at h1 h2 h4 h5
    exact ⟨h1, h2, List.forall_mem_cons.mpr ⟨⟨hrange, hreserved, htype⟩, h3⟩, h4, h5⟩

end

/-- `NewSchema` succeeds exactly on these, -/
theorem newSchema_of_accepted {id : Bytes} {fields : List SchemaField}
    (h : Accepted id fields) : ∃ s, newSchema id fields = .ok s := by
  have hsucceeds : ∃ tables, indexFields id .empty .empty 0 fields = .ok tables :=
    indexFields_of_ok Dict.indexes_empty Dict.indexes_empty h.each h.tags h.names
  obtain ⟨tables, htables⟩ := hsucceeds
  unfold newSchema
  rw [if_neg h.named, if_neg h.nonempty, htables]
  exact ⟨_, rfl⟩

/-- and what it builds is valid. -/
theorem valid_of_newSchema {id : Bytes} {fields : List SchemaField} {s : Schema}
    (h : newSchema id fields = .ok s) : s.id = id ∧ s.fields = fields ∧ s.Valid := by
  unfold newSchema at h
  split at h
  · cases h
  split at h
  · cases h
  rename_i hid hfields
  cases htables : indexFields id .empty .empty 0 fields with
  | error e =>
    rw [htables] at h
    cases h
  | ok tables =>
    have hempty : indexFields id .empty .empty ([] : List SchemaField).length fields =
        .ok tables := htables
    obtain ⟨htag, hname, heach, htags, hnames⟩ := indexes_of_indexFields Dict.indexes_empty
      Dict.indexes_empty List.nodup_nil List.nodup_nil hempty
    rw [htables] at h
    cases h
    exact ⟨rfl, rfl, ⟨hid, hfields, heach, htags, hnames⟩, htag, hname, rfl⟩

end Mpubsub.Bridge
