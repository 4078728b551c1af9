import Mpubsub.Bridge.Schema
import Mpubsub.Theorems.SenderAgreement

/-!
# The schema fingerprint

The canonical schema string is the same for every order of the fields and on both sides, and
it says which fields there are: a line can be taken apart into tag, type and name
(`canonicalLine_injOn`), and the string into its lines.
-/

namespace Mpubsub.Theorems

open Mpubsub.Lib Mpubsub.Wire Mpubsub.Proto

/-! ## Lines -/

/-- The middle of a line. -/
def typeString (repeated : Bool) (type : String) : String :=
  if repeated then "repeated " ++ type else type

/-- The known types, singular and repeated. -/
def fieldKinds : List (Bool × FieldType) :=
  FieldType.all.flatMap fun type => [(false, type), (true, type)]

theorem typeString_nodup : (fieldKinds.map fun k => typeString k.1 k.2.name).Nodup := by
  decide +kernel

theorem typeString_plain : ∀ k ∈ fieldKinds,
    ':' ∉ (typeString k.1 k.2.name).toList ∧ '\n' ∉ (typeString k.1 k.2.name).toList := by
  decide +kernel

theorem mem_fieldKinds (repeated : Bool) (type : FieldType) : (repeated, type) ∈ fieldKinds := by
  cases repeated <;> cases type <;> decide

/-- A known type is the name of one. -/
theorem exists_type_of_ok {f : Proto.Field} (h : f.Ok) :
    ∃ type : FieldType, f.type = type.name := by
  obtain ⟨type, htype⟩ := Option.ne_none_iff_exists'.mp h.type
  rw [FieldType.ofName] at htype
  have hname := List.find?_some htype
  exact ⟨type, (of_decide_eq_true hname).symm⟩

theorem toString_tag {f : Proto.Field} (h : f.Ok) : toString f.tag = f.tag.toNat.repr := by
  have hrange := h.range
  obtain ⟨n, hn⟩ := Int.eq_ofNat_of_zero_le (show 0 ≤ f.tag by omega)
  rw [hn]
  rfl

/-- The three columns of a line. -/
def columns (f : Proto.Field) : List String :=
  [f.tag.toNat.repr, typeString f.repeated f.type, f.name]

theorem canonicalLine_eq {f : Proto.Field} (h : f.Ok) :
    canonicalLine f = (String.singleton ':').intercalate (columns f) := by
  have hsep : String.singleton ':' = ":" := rfl
  rw [canonicalLine, toString_tag h, columns, String.intercalate_cons_cons,
    String.intercalate_cons_cons, String.intercalate_singleton, hsep]
  simp only [String.append_assoc]
  rfl

/-- The columns have no separators in them. -/
theorem columns_plain {f : Proto.Field} (h : f.Ok) (hplain : f.Plain) :
    ∀ column ∈ columns f, ':' ∉ column.toList ∧ '\n' ∉ column.toList := by
  have hdigits : ':' ∉ f.tag.toNat.repr.toList ∧ '\n' ∉ f.tag.toNat.repr.toList :=
    ⟨fun hmem => absurd (isDigit_of_mem_repr hmem) (by decide),
      fun hmem => absurd (isDigit_of_mem_repr hmem) (by decide)⟩
  obtain ⟨type, htype⟩ := exists_type_of_ok h
  have hkind := typeString_plain _ (mem_fieldKinds f.repeated type)
  rw [← htype] at hkind
  simp only [columns, List.forall_mem_cons]
  exact ⟨hdigits, hkind, hplain, fun _ hmem => absurd hmem List.not_mem_nil⟩

/-- A line says which field it is of. -/
theorem canonicalLine_injOn {f g : Proto.Field} (hf : f.Ok) (hg : g.Ok) (hfplain : f.Plain)
    (hgplain : g.Plain) (h : canonicalLine f = canonicalLine g) : f = g := by
  rw [canonicalLine_eq hf, canonicalLine_eq hg] at h
  have hcolumns := (intercalate_inj (List.cons_ne_nil _ _) (List.cons_ne_nil _ _)
    (fun column hmem => (columns_plain hf hfplain column hmem).1)
    (fun column hmem => (columns_plain hg hgplain column hmem).1)).mp h
  simp only [List.cons.injEq, and_true] at hcolumns
  obtain ⟨htag, htype, hname⟩ := hcolumns
  have hf1 := hf.range
  have hg1 := hg.range
  have htags : f.tag = g.tag := by
    have := repr_inj.mp htag
    omega
  obtain ⟨tf, htf⟩ := exists_type_of_ok hf
  obtain ⟨tg, htg⟩ := exists_type_of_ok hg
  rw [htf, htg] at htype
  have hkinds := List.inj_on_of_nodup_map typeString_nodup (mem_fieldKinds f.repeated tf)
    (mem_fieldKinds g.repeated tg) htype
  obtain ⟨hrepeated, hsame⟩ := Prod.mk.inj hkinds
  cases f
  cases g
  simp only at htags hrepeated hname htf htg
  rw [htags, hrepeated, hname, htf, htg, hsame]

theorem newline_notMem_canonicalLine {f : Proto.Field} (h : f.Ok) (hplain : f.Plain) :
    '\n' ∉ (canonicalLine f).toList := by
  rw [canonicalLine_eq h, String.toList_intercalate, columns]
  simp only [List.map_cons, List.map_nil, List.intercalate_cons_cons,
    List.intercalate_singleton, List.mem_append, String.toList_singleton, List.mem_singleton]
  have hcolumns := columns_plain h hplain
  simp only [columns, List.forall_mem_cons] at hcolumns
  obtain ⟨⟨-, htag⟩, ⟨-, htype⟩, ⟨-, hname⟩, -⟩ := hcolumns
  rintro ((hmem | hmem) | ((hmem | hmem) | hmem))
  · exact htag hmem
  · cases hmem
  · exact htype hmem
  · cases hmem
  · exact hname hmem

/-! ## The two sides -/

/-- A field as the bridge has it. -/
def toGo (f : Proto.Field) : Bridge.SchemaField :=
  ⟨utf8 f.name, utf8 f.type, UInt32.ofInt f.tag, f.repeated⟩

theorem toNat_tag {f : Proto.Field} (h : f.Ok) : (toGo f).tag.toNat = f.tag.toNat := by
  have hrange := h.range
  show (UInt32.ofInt f.tag).toNat = _
  rw [UInt32.ofInt, UInt32.toNat_ofNat']
  omega

theorem fieldType_utf8 (type : String) : Bridge.fieldType (utf8 type) = FieldType.ofName type := by
  unfold Bridge.fieldType FieldType.ofName
  congr 1
  funext t
  exact decide_eq_decide.mpr utf8_injective.eq_iff

/-- Both sides render a field the same way. -/
theorem canonicalLine_toGo {f : Proto.Field} (h : f.Ok) :
    Bridge.canonicalLine (toGo f) = utf8 (canonicalLine f) := by
  unfold Bridge.canonicalLine canonicalLine
  rw [toNat_tag h, toString_tag h]
  cases hrepeated : f.repeated with
  | false => simp [toGo, hrepeated]
  | true => simp [toGo, hrepeated]

theorem ok_toGo {f : Proto.Field} (h : f.Ok) : (toGo f).Ok := by
  have hrange := h.range
  have hreserved := h.reserved
  have htag := toNat_tag h
  constructor
  · rw [UInt32.lt_iff_toNat_lt, gt_iff_lt, UInt32.lt_iff_toNat_lt, htag]
    simp
    omega
  · rw [ge_iff_le, UInt32.le_iff_toNat_le, UInt32.le_iff_toNat_le, htag]
    simp
    omega
  · show Bridge.fieldType (utf8 f.type) ≠ none
    rw [fieldType_utf8]
    exact h.type

/-- The bridge accepts what the generator accepts. -/
theorem accepted_toGo {msg : Proto.Message} (h : msg.Ok) :
    Bridge.Accepted (utf8 msg.id) (msg.fields.map toGo) := by
  constructor
  · intro hnil
    exact h.id (utf8_injective (hnil.trans rfl))
  · exact mt List.map_eq_nil_iff.mp h.fields
  · intro g hg
    obtain ⟨f, hf, rfl⟩ := List.mem_map.mp hg
    exact ok_toGo (h.each f hf)
  · rw [List.map_map]
    refine (List.nodup_map_iff_inj_on h.tags.of_map).mpr fun f hf g hg heq => ?_
    have hf1 := (h.each f hf).range
    have hg1 := (h.each g hg).range
    have hnat := congrArg UInt32.toNat heq
    rw [Function.comp_apply, Function.comp_apply, toNat_tag (h.each f hf),
      toNat_tag (h.each g hg)] at hnat
    exact List.inj_on_of_nodup_map h.tags hf hg (by omega)
  · rw [List.map_map]
    refine (List.nodup_map_iff_inj_on h.names.of_map).mpr fun f hf g hg heq => ?_
    exact List.inj_on_of_nodup_map h.names hf hg (utf8_injective heq)

/-- Both sides have the same canonical string, -/
theorem canonicalSchemaString_toGo {msg : Proto.Message} (h : msg.Ok) {schema : Bridge.Schema}
    (hfields : schema.fields = msg.fields.map toGo) :
    Bridge.canonicalSchemaString schema = utf8 (canonicalSchemaString msg) := by
  have hlines : schema.fields.map Bridge.canonicalLine =
      (msg.fields.map canonicalLine).map utf8 := by
    rw [hfields, List.map_map, List.map_map]
    exact List.map_congr_left fun f hf => canonicalLine_toGo (h.each f hf)
  rw [Bridge.canonicalSchemaString, hlines, ← utf8_sortedLines]
  rfl

/-- and with it the same `SCHEMA_ID`. -/
theorem computeSchemaID_toGo {msg : Proto.Message} (h : msg.Ok) {schema : Bridge.Schema}
    (hfields : schema.fields = msg.fields.map toGo) :
    Bridge.computeSchemaID schema = schemaId msg := by
  have hcrc (data : Bytes) : Bridge.checksumIEEE data = topicCrc32 data := topicCRC32_eq data
  have hmask (crc : UInt32) : (crc &&& 0xFFFF).toUInt16 = crc.toUInt16 := by
    apply UInt16.toNat_inj.mp
    rw [UInt32.toNat_toUInt16, UInt32.toNat_toUInt16, UInt32.toNat_and]
    show (crc.toNat &&& (2 ^ 16 - 1)) % 2 ^ 16 = _
    rw [Nat.and_two_pow_sub_one_eq_mod, Nat.mod_mod]
  rw [Bridge.computeSchemaID, canonicalSchemaString_toGo h hfields, hmask, hcrc]
  rfl

/-! ## The order of the fields, and what they are -/

theorem canonicalSchemaString_perm {msg : Proto.Message} {fields : List Proto.Field}
    (h : fields.Perm msg.fields) :
    canonicalSchemaString { msg with fields := fields } = canonicalSchemaString msg :=
  sortedLines_eq_of_perm (h.map canonicalLine)

/-- The string says which fields there are. -/
theorem perm_of_canonicalSchemaString {msg msg' : Proto.Message} (h : msg.Ok) (h' : msg'.Ok)
    (hplain : ∀ f ∈ msg.fields, f.Plain) (hplain' : ∀ f ∈ msg'.fields, f.Plain)
    (heq : canonicalSchemaString msg = canonicalSchemaString msg') :
    msg.fields.Perm msg'.fields := by
  have hlines : (msg.fields.map canonicalLine).Perm (msg'.fields.map canonicalLine) := by
    refine perm_of_sortedLines_eq (mt List.map_eq_nil_iff.mp h.fields)
      (mt List.map_eq_nil_iff.mp h'.fields) ?_ ?_ heq
    · intro line hline
      obtain ⟨f, hf, rfl⟩ := List.mem_map.mp hline
      exact newline_notMem_canonicalLine (h.each f hf) (hplain f hf)
    · intro line hline
      obtain ⟨f, hf, rfl⟩ := List.mem_map.mp hline
      exact newline_notMem_canonicalLine (h'.each f hf) (hplain' f hf)
  refine (List.perm_ext_iff_of_nodup h.tags.of_map h'.tags.of_map).mpr fun f => ?_
  constructor
  · intro hf
    obtain ⟨g, hg, hline⟩ := List.mem_map.mp (hlines.mem_iff.mp (List.mem_map_of_mem hf))
    rw [canonicalLine_injOn (h.each f hf) (h'.each g hg) (hplain f hf) (hplain' g hg) hline.symm]
    exact hg
  · intro hf
    obtain ⟨g, hg, hline⟩ := List.mem_map.mp (hlines.mem_iff.mpr (List.mem_map_of_mem hf))
    rw [canonicalLine_injOn (h'.each f hf) (h.each g hg) (hplain' f hf) (hplain g hg) hline.symm]
    exact hg

/-- The bridge's schema for the fields in some order, as the generator's message has them in
another. -/
theorem newSchema_perm {msg : Proto.Message} (h : msg.Ok) {fields : List Proto.Field}
    (hperm : fields.Perm msg.fields) :
    ∃ schema, Bridge.newSchema (utf8 msg.id) (fields.map toGo) = .ok schema ∧
      Bridge.canonicalSchemaString schema = utf8 (canonicalSchemaString msg) ∧
      schema.schemaID = schemaId msg := by
  have hok := h.perm hperm
  obtain ⟨schema, hschema⟩ := Bridge.newSchema_of_accepted (accepted_toGo hok)
  obtain ⟨-, hfields, hvalid⟩ := Bridge.valid_of_newSchema hschema
  refine ⟨schema, hschema, ?_, ?_⟩
  · rw [canonicalSchemaString_toGo hok hfields, canonicalSchemaString_perm hperm]
  · rw [Bridge.Schema.schemaID, hvalid.sid, computeSchemaID_toGo hok hfields, schemaId, schemaId,
      canonicalSchemaString_perm hperm]

/-- The canonical schema string is one for all orders of the fields and for both sides, and so
is the `SCHEMA_ID`; two field lists have the same string only if they are the same fields. -/
theorem schema_fingerprint {msg msg' : Proto.Message} (h : validate msg = .ok ())
    (h' : validate msg' = .ok ()) (hplain : ∀ f ∈ msg.fields, f.Plain)
    (hplain' : ∀ f ∈ msg'.fields, f.Plain) :
    (∀ fields, fields.Perm msg.fields →
      canonicalSchemaString { msg with fields := fields } = canonicalSchemaString msg ∧
      schemaId { msg with fields := fields } = schemaId msg ∧
      ∃ schema, Bridge.newSchema (utf8 msg.id) (fields.map toGo) = .ok schema ∧
        Bridge.canonicalSchemaString schema = utf8 (canonicalSchemaString msg) ∧
        schema.schemaID = schemaId msg) ∧
    (canonicalSchemaString msg = canonicalSchemaString msg' ↔ msg.fields.Perm msg'.fields) ∧
    (∀ schema schema', Bridge.newSchema (utf8 msg.id) (msg.fields.map toGo) = .ok schema →
      Bridge.newSchema (utf8 msg'.id) (msg'.fields.map toGo) = .ok schema' →
      (Bridge.canonicalSchemaString schema = Bridge.canonicalSchemaString schema' ↔
        msg.fields.Perm msg'.fields)) := by
  rw [validate_iff] at h h'
  have hpython : canonicalSchemaString msg = canonicalSchemaString msg' ↔
      msg.fields.Perm msg'.fields :=
    ⟨perm_of_canonicalSchemaString h h' hplain hplain',
      fun hperm => sortedLines_eq_of_perm (hperm.map canonicalLine)⟩
  refine ⟨?_, hpython, ?_⟩
  · intro fields hperm
    refine ⟨canonicalSchemaString_perm hperm, ?_, newSchema_perm h hperm⟩
    rw [schemaId, schemaId, canonicalSchemaString_perm hperm]
  · intro schema schema' hschema hschema'
    rw [canonicalSchemaString_toGo h (Bridge.valid_of_newSchema hschema).2.1,
      canonicalSchemaString_toGo h' (Bridge.valid_of_newSchema hschema').2.1,
      utf8_injective.eq_iff]
    exact hpython

/-- A message with two fields. -/
def readingMessage : Proto.Message :=
  ⟨"reading", [⟨"temperature", "float", 12, false⟩, ⟨"room", "string", 1, true⟩]⟩

/-- `schema_fingerprint` for it, against a message with one of the two fields. -/
theorem schema_fingerprint_reading :
    canonicalSchemaString readingMessage ≠
      canonicalSchemaString ⟨"reading", [⟨"room", "string", 1, true⟩]⟩ := by
  have hplain : ∀ f ∈ readingMessage.fields, f.Plain := by
    simp only [readingMessage, List.forall_mem_cons, Proto.Field.Plain]
    decide
  have hboth := @schema_fingerprint readingMessage ⟨"reading", [⟨"room", "string", 1, true⟩]⟩
    (by decide +kernel) (by decide +kernel) hplain
    (fun f hf => hplain f (List.mem_cons_of_mem _ hf))
  exact fun heq => absurd (hboth.2.1.mp heq).length_eq (by decide)

end Mpubsub.Theorems
