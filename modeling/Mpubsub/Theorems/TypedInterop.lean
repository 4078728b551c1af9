import Mpubsub.Lib.Lists
import Mpubsub.Bridge.Columns
import Mpubsub.Node.PublishTyped
import Mpubsub.Proto.Decoding
import Mpubsub.Theorems.GoRoundTrip
import Mpubsub.Theorems.SchemaFingerprint

/-!
# Typed messages between nodes and the bridge

The generated code of a node and the codec of the bridge put the same columns into a body: a
member of a struct and what the map has under its name are two views of one column. So the
bridge reads what a node encodes, and a node's overrides what the bridge encodes.
-/

namespace Mpubsub.Theorems

open Mpubsub.Lib Mpubsub.Lib.Protobuf Mpubsub.Proto Mpubsub.Node
open Mpubsub.Bridge (Value SchemaField Column newSchema encodeProto decodeProto)

variable {msg : Message}

/-! ## From a node to the bridge -/

/-- What the bridge has for a member: nothing for a default value or an empty list. -/
def goMember : Member → Option Value
  | .singular type _ value =>
    if value = type.default then none else some (Bridge.goValue type value)
  | .repeated type _ values =>
    if values = [] then none else some (.list (values.map (Bridge.goValue type)))

/-- The lengths of the strings of a member are numbers of type `size_t`. -/
def FitsMember : Member → Prop
  | .singular type _ value => (type.wireValue value).Fits
  | .repeated type _ values => ∀ value ∈ values, (type.wireValue value).Fits

/-- The column that a member is encoded as. -/
theorem exists_column {f : Proto.Field} {m : Member} (h : emitEncodeCall f = some m.call)
    (hfits : FitsMember m) :
    ∃ c : Column, c.field = toGo f ∧ c.Ok ∧ c.encoding = m.encoding ∧ c.decoded = goMember m := by
  obtain ⟨type, htype, hcall⟩ := Option.map_eq_some_iff.mp h
  have hgo : Bridge.fieldType (toGo f).type = some type := (fieldType_utf8 f.type).trans htype
  cases m with
  | singular type' fieldId value =>
    obtain rfl : type = type' := congrArg EncodeCall.type hcall
    obtain rfl : UInt32.ofInt f.tag = fieldId := congrArg EncodeCall.fieldId hcall
    have hrep : f.repeated = false := congrArg EncodeCall.repeated hcall
    refine ⟨⟨toGo f, type, if value = type.default then [] else [value]⟩, rfl, ⟨hgo, fun _ => ?_,
      fun x hx => ?_⟩, ?_, ?_⟩
    · simp only
      split
      · exact Nat.zero_le _
      · exact Nat.le_refl _
    · simp only at hx
      split at hx
      · cases hx
      · rw [List.mem_singleton.mp hx]
        exact hfits
    · simp only [Column.encoding, Member.encoding]
      split
      · rfl
      · exact List.flatMap_singleton ..
    · simp only [Column.decoded, goMember, toGo, hrep]
      split <;> simp
  | repeated type' fieldId values =>
    obtain rfl : type = type' := congrArg EncodeCall.type hcall
    obtain rfl : UInt32.ofInt f.tag = fieldId := congrArg EncodeCall.fieldId hcall
    have hrep : f.repeated = true := congrArg EncodeCall.repeated hcall
    refine ⟨⟨toGo f, type, values⟩, rfl, ⟨hgo, fun hsing => ?_, hfits⟩, rfl, ?_⟩
    · exact absurd (hrep.symm.trans hsing) (by decide)
    · simp only [Column.decoded, goMember, toGo, hrep, if_true]

theorem exists_columns {fields : List Proto.Field} {members : List Member}
    (h : List.Forall₂ (fun f m => emitEncodeCall f = some m.call) fields members)
    (hfits : ∀ m ∈ members, FitsMember m) :
    ∃ cs : List Column, cs.map Column.field = fields.map toGo ∧ (∀ c ∈ cs, c.Ok) ∧
      cs.flatMap Column.encoding = members.flatMap Member.encoding ∧
      ∀ p ∈ fields.zip members, ∃ c ∈ cs, c.field = toGo p.1 ∧ c.decoded = goMember p.2 := by
  induction h with
  | nil => exact ⟨[], rfl, fun c hc => absurd hc List.not_mem_nil, rfl,
      fun p hp => absurd hp List.not_mem_nil⟩
  | cons hcall _ ih =>
    rw [List.forall_mem_cons] at hfits
    obtain ⟨c, hfield, hok, hencoding, hdecoded⟩ := exists_column hcall hfits.1
    obtain ⟨cs, hfields, hoks, hencodings, hall⟩ := ih hfits.2
    refine ⟨c :: cs, ?_, List.forall_mem_cons.mpr ⟨hok, hoks⟩, ?_, ?_⟩
    · rw [List.map_cons, List.map_cons, hfield, hfields]
    · rw [List.flatMap_cons, List.flatMap_cons, hencoding, hencodings]
    · rw [List.zip_cons_cons, List.forall_mem_cons]
      refine ⟨⟨c, List.mem_cons_self, hfield, hdecoded⟩, fun p hp => ?_⟩
      obtain ⟨c', hc', hp'⟩ := hall p hp
      exact ⟨c', List.mem_cons_of_mem _ hc', hp'⟩

/-- The fields of a struct's message go with its members. -/
theorem forall₂_members (s : Struct msg) :
    List.Forall₂ (fun f m => emitEncodeCall f = some m.call) msg.fields s.members := by
  have h := mapM_eq_some_iff.mp s.shape
  rwa [List.forall₂_map_right_iff] at h

/-! ## From the bridge to a node -/

/-- A member has what the map of the bridge has under its name, and its default value where
there is nothing. -/
def MemberHolds : Member → Option Value → Prop
  | .singular type _ x, none => x = type.default
  | .singular type _ x, some v => v.Holds type x
  | .repeated _ _ xs, none => xs = []
  | .repeated type _ xs, some v => ∃ l, v = .list l ∧ List.Forall₂ (Value.Holds type) l xs

/-- The member that a column is decoded to. -/
def decodedMember (c : Column) : Member :=
  if c.field.repeated then .repeated c.type c.field.tag c.values
  else .singular c.type c.field.tag (c.values.head?.getD c.type.default)

/-- The member before. -/
def initialMember (c : Column) : Member :=
  if c.field.repeated then .repeated c.type c.field.tag []
  else .singular c.type c.field.tag c.type.default

theorem memberHolds_of_holds {c : Column} {v : Option Value} (h : c.Holds v) :
    MemberHolds (decodedMember c) v := by
  unfold decodedMember
  cases v with
  | none =>
    have hnil : c.values = [] := h
    split
    · exact hnil
    · rw [hnil]
      rfl
  | some v =>
    unfold Column.Holds at h
    by_cases hrep : c.field.repeated = true
    · simp only [if_pos hrep] at h ⊢
      exact h
    · simp only [if_neg hrep] at h ⊢
      obtain ⟨x, hx, hholds⟩ := h
      rw [hx]
      exact hholds

/-- The records of a column. -/
def columnRecords (c : Column) : List (UInt32 × WireValue) :=
  c.values.map fun x => (c.field.tag, c.type.wireValue x)

/-- The case for a column at a place. -/
def columnCase (p : Column × Nat) : DecodeCase :=
  ⟨p.1.field.tag, p.2, p.1.type, p.1.field.repeated⟩

section Run

variable {zigzag : Zigzag} {cases : List DecodeCase} {done rest : List Member}

/-- The records of a column make its member. -/
theorem foldl_columnRecords (hzigzag : zigzag.Standard) {c : Column} (hok : c.Ok)
    (hmem : columnCase (c, done.length) ∈ cases)
    (hunique : ∀ c' ∈ cases, c'.tag = c.field.tag → c' = columnCase (c, done.length)) :
    (columnRecords c).foldl ((groupCases cases).call zigzag) (done ++ initialMember c :: rest) =
      done ++ decodedMember c :: rest := by
  have hcall (m : Member) (x : c.type.Cpp) :
      (groupCases cases).call zigzag (done ++ m :: rest) (c.field.tag, c.type.wireValue x) =
        done ++ m.store x :: rest :=
    (call_eq hzigzag hmem hunique x).trans (modify_length_append _ _ m _)
  unfold initialMember decodedMember
  by_cases hrep : c.field.repeated = true
  · rw [if_pos hrep, if_pos hrep]
    -- Every record adds its value to the ones before.
    have happend : ∀ before values : List c.type.Cpp,
        (values.map fun x => (c.field.tag, c.type.wireValue x)).foldl
          ((groupCases cases).call zigzag) (done ++ .repeated c.type c.field.tag before :: rest) =
        done ++ .repeated c.type c.field.tag (before ++ values) :: rest := by
      intro before values
      induction values generalizing before with
      | nil => rw [List.append_nil]; rfl
      | cons x values ih =>
        rw [List.map_cons, List.foldl_cons, hcall, Member.store, dif_pos rfl, ih,
          List.append_assoc]
        rfl
    exact happend [] c.values
  · rw [if_neg hrep, if_neg hrep, columnRecords]
    have hone := hok.singular (Bool.eq_false_of_not_eq_true hrep)
    cases hvalues : c.values with
    | nil => rfl
    | cons x values =>
      rw [hvalues, List.length_cons] at hone
      obtain rfl := List.eq_nil_of_length_eq_zero (Nat.le_zero.mp (Nat.le_of_succ_le_succ hone))
      exact hcall _ x

/-- The records of a body make the members one after the other. -/
theorem foldl_columns (hzigzag : zigzag.Standard) {cs : List Column}
    (hcases : ∀ p ∈ cs.zipIdx done.length, columnCase p ∈ cases ∧
      ∀ c' ∈ cases, c'.tag = p.1.field.tag → c' = columnCase p)
    (hcs : ∀ c ∈ cs, c.Ok) :
    (cs.flatMap columnRecords).foldl ((groupCases cases).call zigzag)
        (done ++ cs.map initialMember) = done ++ cs.map decodedMember := by
  induction cs generalizing done with
  | nil => rfl
  | cons c cs ih =>
    rw [List.zipIdx_cons, List.forall_mem_cons] at hcases
    rw [List.forall_mem_cons] at hcs
    rw [List.flatMap_cons, List.foldl_append, List.map_cons,
      foldl_columnRecords hzigzag hcs.1 hcases.1.1 hcases.1.2, List.append_cons,
      ih (by simpa using hcases.2) hcs.2, List.map_cons,
      ← List.append_cons]

end Run

/-- What the generator makes of fields with columns. -/
theorem emit_of_columns {fields : List Proto.Field} {cs : List Column}
    (hfields : cs.map Column.field = fields.map toGo) (hcs : ∀ c ∈ cs, c.Ok) (k : Nat) :
    (fields.zipIdx k).mapM emitDecodeCase = some ((cs.zipIdx k).map columnCase) ∧
      fields.mapM emitMember = some (cs.map initialMember) ∧
      fields.mapM emitEncodeCall = some ((cs.map decodedMember).map Member.call) := by
  simp only [mapM_eq_some_iff, List.forall₂_map_right_iff]
  induction cs generalizing fields k with
  | nil =>
    obtain rfl := List.map_eq_nil_iff.mp hfields.symm
    exact ⟨.nil, .nil, .nil⟩
  | cons c cs ih =>
    obtain ⟨f, fields, rfl⟩ : ∃ f fields', fields = f :: fields' := by
      cases fields with
      | nil => cases hfields
      | cons f fields => exact ⟨f, fields, rfl⟩
    rw [List.map_cons, List.map_cons, List.cons_eq_cons] at hfields
    rw [List.forall_mem_cons] at hcs
    obtain ⟨hcases, hmembers, hcalls⟩ := ih hfields.2 hcs.2 (k + 1)
    have htype : FieldType.ofName f.type = some c.type := by
      rw [← fieldType_utf8, ← hcs.1.type, hfields.1]
      rfl
    have htag : UInt32.ofInt f.tag = c.field.tag := (congrArg SchemaField.tag hfields.1).symm
    have hrep : f.repeated = c.field.repeated := (congrArg SchemaField.repeated hfields.1).symm
    refine ⟨.cons ?_ hcases, .cons ?_ hmembers, .cons ?_ hcalls⟩
    · simp only [emitDecodeCase, htype, htag, hrep]
      rfl
    · simp only [emitMember, htype, htag, hrep]
      rfl
    · simp only [emitEncodeCall, htype, htag, hrep, decodedMember]
      cases c.field.repeated <;> rfl

/-- The cases of the columns are told apart by their tags. -/
theorem columnCase_unique {cs : List Column} (htags : (cs.map fun c => c.field.tag).Nodup)
    {p : Column × Nat} (hp : p ∈ cs.zipIdx) :
    ∀ c' ∈ cs.zipIdx.map columnCase, c'.tag = p.1.field.tag → c' = columnCase p := by
  intro c' hc' htag
  obtain ⟨q, hq, rfl⟩ := List.mem_map.mp hc'
  rw [List.mem_zipIdx_iff_getElem?] at hp hq
  have hcolumn : q.1 = p.1 := List.inj_on_of_nodup_map htags (List.mem_of_getElem? hq)
    (List.mem_of_getElem? hp) htag
  have hplace : q.2 = p.2 := by
    refine (List.getElem?_inj (List.getElem?_eq_some_iff.mp hq).1 htags.of_map).mp ?_
    rw [hq, hp, hcolumn]
  rw [columnCase, columnCase, hplace, hcolumn]

/-- The base class with the overrides of columns makes their members. -/
theorem decode_columns {base : ProtoDecodableMessage} (hbase : base.Standard) {zigzag : Zigzag}
    (hzigzag : zigzag.Standard) {cs : List Column} (hcs : ∀ c ∈ cs, c.Ok)
    (hfields : ∀ c ∈ cs, c.field.Ok) (htags : (cs.map fun c => c.field.tag).Nodup) :
    decode base zigzag (groupCases (cs.zipIdx.map columnCase)) (cs.flatMap Column.encoding)
      (cs.map initialMember) = cs.map decodedMember := by
  have hrecords : cs.flatMap Column.encoding =
      (cs.flatMap columnRecords).flatMap fun r => record r.1 r.2 := by
    rw [List.flatMap_assoc]
    refine List.flatMap_congr fun c _ => ?_
    rw [columnRecords, List.flatMap_map]
    rfl
  rw [decode, hrecords, hbase]
  · have hcases : ∀ p ∈ cs.zipIdx ([] : List Member).length,
        columnCase p ∈ cs.zipIdx.map columnCase ∧
          ∀ c' ∈ cs.zipIdx.map columnCase, c'.tag = p.1.field.tag → c' = columnCase p :=
      fun p hp => ⟨List.mem_map_of_mem hp, columnCase_unique htags hp⟩
    exact foldl_columns hzigzag hcases hcs
  · intro r hr
    obtain ⟨c, hc, hr⟩ := List.mem_flatMap.mp hr
    obtain ⟨x, hx, rfl⟩ := List.mem_map.mp hr
    have hrange := (hfields c hc).range
    rw [not_or, UInt32.not_lt, UInt32.not_lt, UInt32.le_iff_toNat_le, UInt32.le_iff_toNat_le]
      at hrange
    refine ⟨UInt32.lt_iff_toNat_lt.mpr hrange.1, UInt32.lt_iff_toNat_lt.mpr ?_,
      (hcs c hc).fits x hx⟩
    exact Nat.lt_succ_of_le hrange.2

/-- `DecodeProto` of what `encode_to` writes has the members that are not at their defaults; and
the overrides on what `EncodeProto` writes make the struct with the values of the map, and
defaults elsewhere. -/
theorem typed_interop (hvalid : validate msg = .ok ()) {id : Bytes} {schema : Bridge.Schema}
    (hschema : newSchema id (msg.fields.map toGo) = .ok schema) {enc : ProtoEncode}
    (henc : enc.Standard) {base : ProtoDecodableMessage} (hbase : base.Standard) {zigzag : Zigzag}
    (hzigzag : zigzag.Standard) :
    (∀ (s : Struct msg) (out : Cursor) (maxLen : Nat), (∀ m ∈ s.members, FitsMember m) →
      ∃ body values, enc.encodeTo s out maxLen = out.write body ∧
        decodeProto schema body = .ok values ∧
        (∀ p ∈ msg.fields.zip s.members, values.get? (utf8 p.1.name) = goMember p.2) ∧
        ∀ name, (∀ f ∈ msg.fields, utf8 f.name ≠ name) → values.get? name = none) ∧
    ∀ (conv : Bridge.FloatConversion) (values : Dict Bytes Value),
      (∀ name v, values.get? name = some v →
        ∃ f ∈ msg.fields, utf8 f.name = name ∧ (toGo f).InRange v) →
      ∃ body o members, encodeProto conv schema values = .ok body ∧
        emitDecodeOverrides msg = some o ∧ msg.fields.mapM emitMember = some members ∧
        ∃ s : Struct msg, decode base zigzag o body members = s.members ∧
          ∀ p ∈ msg.fields.zip s.members, MemberHolds p.2 (values.get? (utf8 p.1.name)) := by
  obtain ⟨-, hfields, hs⟩ := Bridge.valid_of_newSchema hschema
  have hok := validate_iff.mp hvalid
  constructor
  · -- The members of the struct become the columns that the bridge reads.
    intro s out maxLen hfits
    obtain ⟨cs, hcolumns, hcs, hencoding, hall⟩ := exists_columns (forall₂_members s) hfits
    obtain ⟨values, hdecode, hvalues, hother⟩ :=
      Bridge.decodeProto_columns hs (hcolumns.trans hfields.symm) hcs
    refine ⟨s.encoding, values, ProtoEncode.encodeTo_eq henc s out maxLen, ?_, fun p hp => ?_,
      fun name hname => hother name fun hin => ?_⟩
    · rw [Struct.encoding, ← hencoding, hdecode]
    · obtain ⟨c, hc, hfield, hdecoded⟩ := hall p hp
      have hname : utf8 p.1.name = c.field.name := by rw [hfield]; rfl
      rw [hname, hvalues c hc, hdecoded]
    · rw [hfields, List.map_map] at hin
      obtain ⟨f, hf, heq⟩ := List.mem_map.mp hin
      exact hname f hf heq
  · -- The columns that the bridge writes become the members.
    intro conv values hvalues
    have hrange : ∀ g ∈ schema.fields, ∀ v, values.get? g.name = some v → g.InRange v := by
      intro g hg v hv
      obtain ⟨f, hf, hname, hin⟩ := hvalues g.name v hv
      have hmem : toGo f ∈ schema.fields := hfields ▸ List.mem_map_of_mem hf
      rwa [List.inj_on_of_nodup_map hs.accepted.names hmem hg hname] at hin
    obtain ⟨cs, hcolumns, hcs, hencode⟩ := Bridge.encodeProto_columns conv hs hrange
    rw [hfields] at hcolumns
    have hoks : ∀ c ∈ cs, c.Ok := fun c hc => (hcs c hc).1
    obtain ⟨hcases, hmembers, hcalls⟩ := emit_of_columns hcolumns hoks 0
    refine ⟨_, _, _, hencode, congrArg (Option.map groupCases) hcases, hmembers,
      ⟨cs.map decodedMember, hcalls⟩, ?_, ?_⟩
    · have hsame : cs.map (fun c => c.field.tag) = schema.fields.map SchemaField.tag := by
        rw [hfields, ← hcolumns, List.map_map]
        rfl
      refine decode_columns hbase hzigzag hoks (fun c hc => hs.accepted.each _ ?_)
        (hsame ▸ hs.accepted.tags)
      rw [hfields, ← hcolumns]
      exact List.mem_map_of_mem hc
    · intro p hp
      rw [List.zip_map_right] at hp
      obtain ⟨⟨f, c⟩, hin, rfl⟩ := List.mem_map.mp hp
      have hfield : toGo f = c.field := by
        have hpairs : List.Forall₂ Eq (msg.fields.map toGo) (cs.map Column.field) := by
          rw [hcolumns]
          exact List.forall₂_refl _
        rw [List.forall₂_map_left_iff, List.forall₂_map_right_iff] at hpairs
        exact List.forall₂_zip hpairs hin
      have hname : utf8 f.name = c.field.name := by rw [← hfield]; rfl
      show MemberHolds (decodedMember c) (values.get? (utf8 f.name))
      rw [hname]
      exact memberHolds_of_holds (hcs c (List.of_mem_zip hin).2).2

/-- The message of the schema of numbers. -/
def numberMessage : Message :=
  ⟨"numbers", [⟨"offset", "sint32", 1, false⟩, ⟨"counts", "uint64", 2, true⟩]⟩

theorem validate_numberMessage : validate numberMessage = .ok () := by decide +kernel

theorem numberMessage_toGo : numberMessage.fields.map toGo = numberFields := by decide +kernel

/-- A value of its struct, with an empty list. -/
def offset (value : Int32) : Struct numberMessage where
  members := [.singular .sint32 1 value, .repeated .uint64 2 []]
  shape := by
    have h : emitEncodeCalls numberMessage = some [⟨.sint32, 1, false⟩, ⟨.uint64, 2, true⟩] := by
      decide +kernel
    exact h

/-- `typed_interop` for it: the bridge reads an offset of -5 and no counts, and a node reads a
map with both. -/
theorem typed_interop_numbers :
    ∃ schema, newSchema (utf8 "numbers") (numberMessage.fields.map toGo) = .ok schema ∧
      (∃ body values,
        ProtoEncode.standard.encodeTo (offset (-5)) ⟨fun _ => 0, 0⟩ 1274 =
          Cursor.write ⟨fun _ => 0, 0⟩ body ∧
        decodeProto schema body = .ok values ∧
        values.get? (utf8 "offset") = some (.int64 (-5)) ∧ values.get? (utf8 "counts") = none) ∧
      ∃ body o members, encodeProto ⟨fun _ => 0, fun _ => 0⟩ schema numbers = .ok body ∧
        emitDecodeOverrides numberMessage = some o ∧
        numberMessage.fields.mapM emitMember = some members ∧
        ∃ s : Struct numberMessage, decode .standard .standard o body members = s.members ∧
          ∀ p ∈ numberMessage.fields.zip s.members, MemberHolds p.2 (numbers.get? (utf8 p.1.name)) := by
  obtain ⟨schema, hschema⟩ := Bridge.newSchema_of_accepted
    (accepted_toGo (validate_iff.mp validate_numberMessage))
  obtain ⟨hnode, hbridge⟩ := typed_interop validate_numberMessage hschema
    ProtoEncode.standard_standard ProtoDecodableMessage.standard_standard Zigzag.standard_standard
  refine ⟨schema, hschema, ?_, hbridge _ numbers fun name v hv => ?_⟩
  · have hfits : ∀ m ∈ (offset (-5)).members, FitsMember m := by
      simp only [offset, List.forall_mem_cons]
      exact ⟨trivial, fun value hvalue => absurd hvalue List.not_mem_nil,
        fun m hm => absurd hm List.not_mem_nil⟩
    obtain ⟨body, values, hencode, hdecode, hvalues, -⟩ :=
      hnode (offset (-5)) ⟨fun _ => 0, 0⟩ 1274 hfits
    exact ⟨body, values, hencode, hdecode, hvalues _ List.mem_cons_self,
      hvalues _ (List.mem_cons_of_mem _ List.mem_cons_self)⟩
  · obtain ⟨g, hg, hname, hin⟩ := numbers_inRange name v hv
    rw [← numberMessage_toGo] at hg
    obtain ⟨f, hf, rfl⟩ := List.mem_map.mp hg
    exact ⟨f, hf, hname, hin⟩

end Mpubsub.Theorems
