import Mpubsub.Bridge.Body
import Mpubsub.Theorems.GoRoundTrip

/-!
# Decoding a concatenation is merging

Bodies that `DecodeProto` takes can be put one behind the other, and what comes out is the merge
of what comes out of each. A record of an unknown field has no part in it, wherever it stands.
-/

namespace Mpubsub.Theorems

open Mpubsub.Lib Mpubsub.Lib.Protobuf Mpubsub.Bridge

/-- What two decoded bodies make together: a singular field has the later value, a repeated one
both lists. -/
structure Merges (s : Schema) (a b out : Dict Bytes Value) : Prop where
  field : ∀ f ∈ s.fields, out.get? f.name = merged f.repeated (a.get? f.name) (b.get? f.name)
  other : ∀ name, name ∉ s.fields.map SchemaField.name → out.get? name = none

/-- A well-formed record, with a field number of protobuf that the schema does not have. A varint
may be longer than it has to be, and the length of a slice is an `int`. -/
structure UnknownRecord (s : Schema) (r : Bytes) : Prop where
  length : r.length < 2 ^ 63
  parts : ∃ key n w, parseVarint 10 r = some (key, n) ∧
    parseValue (key % 8) (r.drop n) = some (w, r.length - n) ∧
    (1 ≤ key / 8 ∧ key / 8 ≤ 2 ^ 29 - 1) ∧ ∀ f ∈ s.fields, f.tag.toNat ≠ key / 8

variable {s : Schema}

theorem readValue_of_parseValue {wt n : Nat} {data : Bytes} {w : WireValue}
    (hlen : data.length < 2 ^ 63) (h : parseValue wt data = some (w, n)) :
    readValue wt data = some (w, n) := by
  unfold parseValue at h
  unfold readValue
  split at h
  · rw [readVarint_eq, Option.map_map]
    exact h
  · obtain ⟨p, hp, h⟩ := Option.bind_eq_some_iff.mp h
    obtain ⟨hroom, heq⟩ := Option.ite_none_right_eq_some.mp h
    cases heq
    have hsame : (UInt64.ofNat p.1).toNat = p.1 := by
      rw [UInt64.toNat_ofNat', Nat.mod_eq_of_lt (by omega)]
    simp only [readVarint_eq, hp, Option.map_some, Option.bind_some, hsame]
    rw [if_pos (by omega)]
  · exact h
  · cases h

theorem skips_of_unknownRecord (hs : s.Valid) {r : Bytes} (h : UnknownRecord s r) :
    Skips s r r.length := by
  obtain ⟨key, n, w, hkey, hvalue, ⟨-, hle⟩, hnew⟩ := h.parts
  have hn := (parseVarint_bounds hkey).2
  have hsmall : (UInt64.ofNat key).toNat = key := by
    rw [UInt64.toNat_ofNat', Nat.mod_eq_of_lt (by omega)]
  have hread : readVarint r = some (UInt64.ofNat key, n) := by
    rw [readVarint_eq, hkey, Option.map_some]
  have hwt : (UInt64.ofNat key &&& 7).toNat = key % 8 := by
    rw [UInt64.toNat_and, hsmall, show (7 : UInt64).toNat = 2 ^ 3 - 1 from rfl,
      Nat.and_two_pow_sub_one_eq_mod]
  have htag : (UInt64.ofNat key >>> 3).toUInt32.toNat = key / 8 := by
    rw [UInt64.toNat_toUInt32, UInt64.toNat_shiftRight, hsmall,
      show (3 : UInt64).toNat % 64 = 3 from rfl, Nat.shiftRight_eq_div_pow, Nat.mod_eq_of_lt
      (by omega)]
  have hfield : s.fieldWithTag (UInt64.ofNat key >>> 3).toUInt32 = none := by
    have hnone : s.byTag.get? (UInt64.ofNat key >>> 3).toUInt32 = none := by
      rw [hs.byTag.get?_eq_none_iff]
      intro hin
      obtain ⟨f, hf, heq⟩ := List.mem_map.mp hin
      exact hnew f hf (heq ▸ htag)
    rw [Schema.fieldWithTag, hnone]
    rfl
  have hrest : (r.drop n).length < 2 ^ 63 := by
    have := h.length
    rw [List.length_drop]
    omega
  refine ⟨UInt64.ofNat key, n, r.length - n, hread, hfield, ?_, by omega⟩
  rw [hwt]
  exact skipField_eq_ok_iff.mpr ⟨w, readValue_of_parseValue hrest hvalue⟩

/-- A record that is skipped passes with nothing. -/
theorem passes_of_skips {r : Bytes} (h : Skips s r r.length) : Passes s r [] := by
  refine .skip h ?_
  rw [List.drop_length]
  exact .done

/-- **`DecodeProto` is a homomorphism from concatenation to merge**, and skips the records of
unknown fields. -/
theorem decode_merges {id : Bytes} {fields : List SchemaField} (h : newSchema id fields = .ok s) :
    (∀ a b outA outB, decodeProto s a = .ok outA → decodeProto s b = .ok outB →
      ∃ out, decodeProto s (a ++ b) = .ok out ∧ Merges s outA outB out) ∧
    ∀ r, UnknownRecord s r → decodeProto s r = .ok .empty ∧
      ∀ a b outA, decodeProto s a = .ok outA →
        ∀ out, decodeProto s (a ++ r ++ b) = .ok out ↔ decodeProto s (a ++ b) = .ok out := by
  obtain ⟨-, -, hs⟩ := valid_of_newSchema h
  constructor
  · intro a b outA outB ha hb
    obtain ⟨va, hva, rfl⟩ := decodeProto_iff.mp ha
    obtain ⟨vb, hvb, rfl⟩ := decodeProto_iff.mp hb
    have hstore : store .empty (va ++ vb) = store (store .empty va) vb := List.foldl_append
    refine ⟨_, decodeProto_iff.mpr ⟨_, hva.append hvb, rfl⟩, fun f hf => ?_, fun name hname => ?_⟩
    · rw [hstore]
      exact get?_store hs.accepted.names hf hvb.mem_fields _
    · exact get?_store_of_notMem (hva.append hvb).mem_fields hname _
  · intro r hr
    have hpass := passes_of_skips (skips_of_unknownRecord hs hr)
    refine ⟨decodeProto_iff.mpr ⟨[], hpass, rfl⟩, fun a b outA ha out => ?_⟩
    obtain ⟨va, hva, -⟩ := decodeProto_iff.mp ha
    have hvar := hva.append hpass
    rw [List.append_nil] at hvar
    constructor
    · intro hout
      obtain ⟨vals, hvals, rfl⟩ := decodeProto_iff.mp hout
      obtain ⟨vb, hvb, rfl⟩ := hvar.of_append hvals
      exact decodeProto_iff.mpr ⟨_, hva.append hvb, rfl⟩
    · intro hout
      obtain ⟨vals, hvals, rfl⟩ := decodeProto_iff.mp hout
      obtain ⟨vb, hvb, rfl⟩ := hva.of_append hvals
      exact decodeProto_iff.mpr ⟨_, hvar.append hvb, rfl⟩

/-- The two fields of the schema of numbers. -/
def offsetField : SchemaField := ⟨utf8 "offset", utf8 "sint32", 1, false⟩

def countsField : SchemaField := ⟨utf8 "counts", utf8 "uint64", 2, true⟩

/-- Of two messages the later offset is left and both counts, and a record of a field with the
number 3, whose key takes two bytes, is nothing between them. -/
theorem decode_merges_numbers :
    ∃ s out, newSchema (utf8 "numbers") numberFields = .ok s ∧
      decodeProto s ([0x08, 0x09, 0x10, 0x07] ++ [0x98, 0x00, 0x05] ++
        [0x08, 0x04, 0x10, 0xAC, 0x02]) = .ok out ∧
      out.get? (utf8 "offset") = some (.int64 2) ∧
      out.get? (utf8 "counts") = some (.list [.uint64 7, .uint64 300]) := by
  obtain ⟨s, hs⟩ := newSchema_of_accepted accepted_numberFields
  obtain ⟨-, hfields, hvalid⟩ := valid_of_newSchema hs
  obtain ⟨hoffset, hcounts⟩ : offsetField ∈ s.fields ∧ countsField ∈ s.fields := by
    rw [hfields]
    exact ⟨List.mem_cons_self, List.mem_cons_of_mem _ List.mem_cons_self⟩
  have hunknown : UnknownRecord s [0x98, 0x00, 0x05] := by
    refine ⟨by decide, 24, 2, .varint 5, by decide, by decide, by decide, ?_⟩
    rw [hfields]
    decide
  have hfirst : Passes s [0x08, 0x09, 0x10, 0x07]
      [(offsetField, .int64 (-5)), (countsField, .uint64 7)] :=
    .take (takes_of_parts 0x08 1 (.varint 9) 1 hvalid hoffset (by decide) rfl fieldType_sint32
      (by decide) rfl) (.take (takes_of_parts 0x10 1 (.varint 7) 1 hvalid hcounts (by decide) rfl
        fieldType_uint64 (by decide) rfl) .done)
  have hsecond : Passes s [0x08, 0x04, 0x10, 0xAC, 0x02]
      [(offsetField, .int64 2), (countsField, .uint64 300)] :=
    .take (takes_of_parts 0x08 1 (.varint 4) 1 hvalid hoffset (by decide) rfl fieldType_sint32
      (by decide) rfl) (.take (takes_of_parts 0x10 1 (.varint 300) 2 hvalid hcounts (by decide)
        rfl fieldType_uint64 (by decide) rfl) .done)
  obtain ⟨hmerge, hskip⟩ := decode_merges hs
  have ha := decodeProto_iff.mpr ⟨_, hfirst, rfl⟩
  obtain ⟨out, hout, hmerged⟩ := hmerge _ _ _ _ ha (decodeProto_iff.mpr ⟨_, hsecond, rfl⟩)
  refine ⟨s, out, hs, ((hskip _ hunknown).2 _ _ _ ha out).mpr hout, ?_, ?_⟩
  · exact hmerged.field offsetField hoffset
  · exact hmerged.field countsField hcounts

end Mpubsub.Theorems
