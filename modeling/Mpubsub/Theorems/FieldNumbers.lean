import Mpubsub.Bridge.Body
import Mpubsub.Node.Dynamic
import Mpubsub.Theorems.GoRoundTrip

/-!
# Field numbers that do not fit

A key is a varint of 64 bits, and both readers cut what is left of it without the wire type down
to the 32 bits of a tag. A number that does not fit into them is taken for another.
-/

namespace Mpubsub.Theorems

open Mpubsub.Lib Mpubsub.Lib.Protobuf Mpubsub.Bridge Mpubsub.Node

/-! ## `DecodeProto` -/

/-- Where the loop of `DecodeProto` comes by in a body. -/
inductive Reaches (s : Schema) (body : Bytes) : Bytes → Prop
  | start : Reaches s body body
  | next {data : Bytes} {i n : Nat} {out out' : Dict Bytes Value} (h : Reaches s body data)
      (hstep : decodeField s i data out = .ok (out', n)) : Reaches s body (data.drop n)

/-- The complete field number of the record at `data`. -/
def fieldNumber (data : Bytes) : Option Nat :=
  (readVarint data).map fun p : UInt64 × Nat => (p.1 >>> 3).toNat

/-- An iteration reports an error, skips the record, or stores a value of the field whose tag is
the complete field number. -/
def OwnNumber (s : Schema) (data : Bytes) : Prop :=
  (∀ i out, ∃ err, decodeField s i data out = .error err) ∨
  (∃ n, ∀ i out, decodeField s i data out = .ok (out, n)) ∨
  ∃ f val n, f ∈ s.fields ∧ fieldNumber data = some f.tag.toNat ∧
    ∀ i out, decodeField s i data out = .ok (addValue out f val, n)

/-- A record with a field number of 33 bits or more, of which 32 are the tag of a field for which
the value is well formed. -/
def Aliases (s : Schema) (data : Bytes) : Prop :=
  ∃ key k f val n, readVarint data = some (key, k) ∧ 2 ^ 32 ≤ (key >>> 3).toNat ∧
    s.fieldWithTag (key >>> 3).toUInt32 = some f ∧
    decodeValue (data.drop k) f.type (key &&& 7).toNat = .ok (val, n)

variable {s : Schema} {data : Bytes}

theorem tag_of_fieldWithTag (hs : s.Valid) {tag : UInt32} {f : SchemaField}
    (h : s.fieldWithTag tag = some f) : f ∈ s.fields ∧ f.tag = tag := by
  obtain ⟨idx, hidx, hget⟩ := Option.bind_eq_some_iff.mp h
  obtain ⟨g, hg, htag⟩ := (hs.byTag tag idx).mp hidx
  cases hg.symm.trans hget
  exact ⟨List.mem_of_getElem? hget, htag⟩

/-- A store into an empty map shows the field. -/
theorem name_of_addValue {f g : SchemaField} {val val' : Value}
    (h : addValue .empty f val = addValue .empty g val') : f.name = g.name := by
  by_contra hne
  have hget := congrArg (fun out => out.get? f.name) h
  simp only [get?_addValue, Column.get?_addValue_of_ne hne, Dict.get?_empty, merged] at hget
  cases hget

/-- What makes an iteration store a value of another field. -/
theorem ownNumber_iff (hs : s.Valid) : OwnNumber s data ↔ ¬Aliases s data := by
  constructor
  · rintro hown ⟨key, k, g, val', n', hkey, hlarge, hfield, hval⟩
    have hstore : decodeField s 0 data .empty = .ok (addValue .empty g val', k + n') :=
      decodeField_of_takes ⟨key, k, n', hkey, hfield, hval, rfl⟩
    obtain ⟨hg, -⟩ := tag_of_fieldWithTag hs hfield
    rcases hown with herr | ⟨n, hskip⟩ | ⟨f, val, n, hf, hnumber, hown⟩
    · obtain ⟨err, herr⟩ := herr 0 .empty
      cases hstore.symm.trans herr
    · have hsame := congrArg Prod.fst (Except.ok.inj (hstore.symm.trans (hskip 0 .empty)))
      have hget := congrArg (fun out => out.get? g.name) hsame
      simp only [get?_addValue, Dict.get?_empty, merged] at hget
      cases hget
    · -- The number would be the tag of the field, which has 32 bits.
      have hsame := congrArg Prod.fst (Except.ok.inj ((hown 0 .empty).symm.trans hstore))
      obtain rfl := List.inj_on_of_nodup_map hs.accepted.names hf hg (name_of_addValue hsame)
      rw [fieldNumber, hkey, Option.map_some] at hnumber
      have htag := f.tag.toNat_lt
      have hsame : (key >>> 3).toNat = f.tag.toNat := Option.some.inj hnumber
      omega
  · intro hnot
    by_cases hok : ∃ i out p, decodeField s i data out = .ok p
    · obtain ⟨i, out, ⟨out', n⟩, hstep⟩ := hok
      rcases decodeField_cases hstep with ⟨hskips, -⟩ | ⟨f, val, htakes, -⟩
      · exact .inr (.inl ⟨n, fun i out => decodeField_of_skips hskips⟩)
      · refine .inr (.inr ⟨f, val, n, ?_⟩)
        have hstore (i : Nat) (out : Dict Bytes Value) :
            decodeField s i data out = .ok (addValue out f val, n) := decodeField_of_takes htakes
        obtain ⟨key, k, consumed, hkey, hfield, hval, -⟩ := htakes
        obtain ⟨hf, htag⟩ := tag_of_fieldWithTag hs hfield
        have hsmall : (key >>> 3).toNat < 2 ^ 32 := by
          by_contra hlarge
          exact hnot ⟨key, k, f, val, consumed, hkey, Nat.not_lt.mp hlarge, hfield, hval⟩
        refine ⟨hf, ?_, hstore⟩
        rw [fieldNumber, hkey, Option.map_some, htag, UInt64.toNat_toUInt32,
          Nat.mod_eq_of_lt hsmall]
    · left
      intro i out
      cases hstep : decodeField s i data out with
      | error err => exact ⟨err, rfl⟩
      | ok p => exact absurd ⟨i, out, p, hstep⟩ hok

/-! ## `DynamicReader` -/

/-- The complete field number of the record that a reader is at. -/
def readerNumber (varInt : ProtoVarInt) (mem : Mem) (r : DynamicReader) : Option Nat :=
  (r.parseVarInt varInt mem).map fun p : UInt64 × Nat => (p.1 >>> 3).toNat

theorem readerNumber_iff {varInt : ProtoVarInt} {mem : Mem} {r r' : DynamicReader}
    {f : DynamicField} (h : r.next varInt mem = (r', some f)) :
    readerNumber varInt mem r = some f.tag.toNat ↔
      ∃ number < 2 ^ 32, readerNumber varInt mem r = some number := by
  obtain ⟨tagFull, n, hparse, htag⟩ := DynamicReader.next_tag h
  rw [readerNumber, hparse, Option.map_some, htag, UInt64.toNat_toUInt32]
  constructor
  · intro hsame
    exact ⟨_, Nat.mod_lt _ (by decide), hsame⟩
  · rintro ⟨number, hnumber, hsame⟩
    cases hsame
    rw [Nat.mod_eq_of_lt hnumber]

/-! ## Aliases -/

/-- A record with the field number `2 ^ 32 + 1`. -/
def aliasRecord : Bytes := [0x88, 0x80, 0x80, 0x80, 0x80, 0x01, 0x02]

/-- The value of a field with the number `2 ^ 32 + 1` is stored for the field with the tag 1; and
the other reader returns it as the field 1. -/
theorem number_cut_down :
    (∃ s, newSchema (utf8 "numbers") numberFields = .ok s ∧ ¬OwnNumber s aliasRecord ∧
      fieldNumber aliasRecord = some (2 ^ 32 + 1) ∧
      decodeProto s aliasRecord =
        .ok (addValue .empty ⟨utf8 "offset", utf8 "sint32", 1, false⟩ (.int64 1))) ∧
    readerNumber .standard (fun i => aliasRecord.getD i 0) ⟨0, 7, false⟩ = some (2 ^ 32 + 1) ∧
    (DynamicReader.next .standard (fun i => aliasRecord.getD i 0) ⟨0, 7, false⟩).2 =
      some { tag := 1, rawVarint := 2 } := by
  obtain ⟨s, hs⟩ := newSchema_of_accepted accepted_numberFields
  obtain ⟨-, hfields, hvalid⟩ := valid_of_newSchema hs
  have hmem : ⟨utf8 "offset", utf8 "sint32", 1, false⟩ ∈ s.fields := by
    rw [hfields]
    exact List.mem_cons_self
  have hfield := fieldWithTag_of_mem hvalid hmem
  have hread : readVarint aliasRecord = some ((2 ^ 32 + 1) * 8, 6) := by decide
  have hval : decodeValue (aliasRecord.drop 6) (utf8 "sint32")
      (((2 ^ 32 + 1) * 8 : UInt64) &&& 7).toNat = .ok (.int64 1, 1) :=
    decodeValue_eq_ok_iff.mpr ⟨_, .varint 2, fieldType_sint32, by decide, rfl⟩
  refine ⟨⟨s, hs, fun hown => ?_, by decide, ?_⟩, by decide, by decide⟩
  · exact (ownNumber_iff hvalid).mp hown ⟨_, 6, _, _, 1, hread, by decide, hfield, hval⟩
  · have htakes : Takes s aliasRecord ⟨utf8 "offset", utf8 "sint32", 1, false⟩ (.int64 1) 7 :=
      ⟨_, 6, 1, hread, hfield, hval, rfl⟩
    exact decodeProto_iff.mpr ⟨[(_, _)], .take htakes .done, rfl⟩

/-- **A value is stored, or a field returned, for the complete field number only if and only if**
no record that the loop comes by has a number that is a tag of the schema in its lower 32 bits
alone; and the number of the record that `next` is at fits into 32 bits. -/
theorem own_numbers_iff {id : Bytes} {fields : List SchemaField} (h : newSchema id fields = .ok s)
    (body : Bytes) {varInt : ProtoVarInt} {mem : Mem} {r r' : DynamicReader} {f : DynamicField}
    (hnext : r.next varInt mem = (r', some f)) :
    ((∀ data, Reaches s body data → data ≠ [] → OwnNumber s data) ↔
      ∀ data, Reaches s body data → ¬Aliases s data) ∧
    (readerNumber varInt mem r = some f.tag.toNat ↔
      ∃ number < 2 ^ 32, readerNumber varInt mem r = some number) := by
  obtain ⟨-, -, hs⟩ := valid_of_newSchema h
  refine ⟨⟨fun hown data hreach halias => ?_, fun hnot data hreach _ => ?_⟩, readerNumber_iff hnext⟩
  · have hne : data ≠ [] := by
      obtain ⟨key, k, f, val, n, hkey, -⟩ := halias
      exact ne_nil_of_readVarint hkey
    exact (ownNumber_iff hs).mp (hown data hreach hne) halias
  · exact (ownNumber_iff hs).mpr (hnot data hreach)

/-- A record of the field 1, for both readers. -/
theorem own_numbers_record :
    ∃ s, newSchema (utf8 "numbers") numberFields = .ok s ∧
      (∀ data, Reaches s [0x08, 0x02] data → data ≠ [] → OwnNumber s data) ∧
      readerNumber .standard (fun i => ([0x08, 0x02] : Bytes).getD i 0) ⟨0, 2, false⟩ = some 1 := by
  obtain ⟨s, hs⟩ := newSchema_of_accepted accepted_numberFields
  obtain ⟨-, hfields, hvalid⟩ := valid_of_newSchema hs
  have hmem : ⟨utf8 "offset", utf8 "sint32", 1, false⟩ ∈ s.fields := by
    rw [hfields]
    exact List.mem_cons_self
  have htakes : Takes s [0x08, 0x02] ⟨utf8 "offset", utf8 "sint32", 1, false⟩ (.int64 1) 2 :=
    takes_of_parts 0x08 1 (.varint 2) 1 hvalid hmem (by decide) rfl fieldType_sint32 (by decide) rfl
  have hnext : DynamicReader.next .standard (fun i => ([0x08, 0x02] : Bytes).getD i 0)
      ⟨0, 2, false⟩ = (⟨2, 2, false⟩, some { tag := 1, rawVarint := 2 }) := by decide
  obtain ⟨hloop, hreader⟩ := own_numbers_iff hs [0x08, 0x02] hnext
  refine ⟨s, hs, hloop.mpr fun data hreach halias => ?_, hreader.mpr ⟨1, by decide, by decide⟩⟩
  -- The loop comes by the record, and by the end of the body.
  have hdata : data = [0x08, 0x02] ∨ data = [] := by
    clear halias
    induction hreach with
    | start => exact .inl rfl
    | next h hstep ih =>
      right
      rcases ih with rfl | rfl
      · cases (decodeField_of_takes htakes).symm.trans hstep
        rfl
      · exact List.drop_nil
  obtain ⟨key, k, f, val, n, hkey, hlarge, -⟩ := halias
  rcases hdata with rfl | rfl
  · have hone : readVarint [0x08, 0x02] = some (8, 1) := by decide
    cases hone.symm.trans hkey
    exact absurd hlarge (by decide)
  · cases hkey

end Mpubsub.Theorems
