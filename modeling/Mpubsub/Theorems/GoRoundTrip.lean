import Mpubsub.Bridge.Columns

/-!
# The bridge reads what it writes

A map whose keys are fields of a schema and whose values are in range goes through
`EncodeProto` and `DecodeProto` unchanged, but for the kind of its numbers and the empty lists.
-/

namespace Mpubsub.Theorems

open Mpubsub.Lib Mpubsub.Bridge

/-- `EncodeProto` and `DecodeProto` succeed, and under every name is what was there. -/
theorem go_round_trip {id : Bytes} {fields : List SchemaField} {s : Schema}
    (h : newSchema id fields = .ok s) (conv : FloatConversion) {values : Dict Bytes Value}
    (hvalues : ∀ name v, values.get? name = some v →
      ∃ f ∈ fields, f.name = name ∧ f.InRange v) :
    ∃ body out, encodeProto conv s values = .ok body ∧ decodeProto s body = .ok out ∧
      (∀ f ∈ fields, out.get? f.name = (values.get? f.name).bind f.decoded) ∧
      ∀ name, values.get? name = none → out.get? name = none := by
  obtain ⟨-, rfl, hs⟩ := valid_of_newSchema h
  -- The values of a field are in range for that field, since no other has its name.
  have hrange : ∀ f ∈ s.fields, ∀ v, values.get? f.name = some v → f.InRange v := by
    intro f hf v hv
    obtain ⟨g, hg, hname, hin⟩ := hvalues f.name v hv
    rwa [List.inj_on_of_nodup_map hs.accepted.names hg hf hname] at hin
  obtain ⟨body, out, hencode, hdecode, hfield, hother⟩ := decodeProto_encodeProto conv hs hrange
  refine ⟨body, out, hencode, hdecode, hfield, fun name hnone => ?_⟩
  by_cases hname : name ∈ s.fields.map SchemaField.name
  · obtain ⟨f, hf, rfl⟩ := List.mem_map.mp hname
    rw [hfield f hf, hnone]
    rfl
  · exact hother name hname

/-- A schema with a singular and a repeated field. -/
def numberFields : List SchemaField :=
  [⟨utf8 "offset", utf8 "sint32", 1, false⟩, ⟨utf8 "counts", utf8 "uint64", 2, true⟩]

theorem accepted_numberFields : Accepted (utf8 "numbers") numberFields where
  named := by decide +kernel
  nonempty := List.cons_ne_nil _ _
  each := by
    simp only [numberFields, List.forall_mem_cons]
    exact ⟨⟨by decide, by decide, by decide +kernel⟩, ⟨by decide, by decide, by decide +kernel⟩,
      fun f hf => absurd hf List.not_mem_nil⟩
  tags := by decide
  names := by decide +kernel

theorem fieldType_sint32 : fieldType (utf8 "sint32") = some .sint32 := by decide +kernel

theorem fieldType_uint64 : fieldType (utf8 "uint64") = some .uint64 := by decide +kernel

/-- A map for it. -/
def numbers : Dict Bytes Value :=
  (Dict.empty.set (utf8 "offset") (.int (-5))).set (utf8 "counts") (.list [.uint 7, .uint32 300])

theorem numbers_inRange (name : Bytes) (v : Value) (h : numbers.get? name = some v) :
    ∃ f ∈ numberFields, f.name = name ∧ f.InRange v := by
  rw [numbers, Dict.get?_set, Dict.get?_set] at h
  split at h
  · rename_i hname
    cases h
    refine ⟨_, List.mem_cons_of_mem _ List.mem_cons_self, hname.symm, .uint64, fieldType_uint64,
      _, rfl, ?_⟩
    simp only [List.forall_mem_cons]
    exact ⟨⟨7, rfl, by decide, by decide⟩, ⟨300, rfl, by decide, by decide⟩,
      fun elem helem => absurd helem List.not_mem_nil⟩
  split at h
  · rename_i hname
    cases h
    exact ⟨_, List.mem_cons_self, hname.symm, .sint32, fieldType_sint32, -5, rfl, by decide,
      by decide⟩
  · cases h

/-- An `int` and two unsigned numbers come back as an `int64` and two `uint64`s. -/
theorem go_round_trip_numbers :
    ∃ s body out, newSchema (utf8 "numbers") numberFields = .ok s ∧
      encodeProto ⟨fun _ => 0, fun _ => 0⟩ s numbers = .ok body ∧
      decodeProto s body = .ok out ∧
      out.get? (utf8 "offset") = some (.int64 (-5)) ∧
      out.get? (utf8 "counts") = some (.list [.uint64 7, .uint64 300]) := by
  obtain ⟨s, hs⟩ := newSchema_of_accepted accepted_numberFields
  obtain ⟨body, out, hencode, hdecode, hout, -⟩ :=
    go_round_trip hs ⟨fun _ => 0, fun _ => 0⟩ numbers_inRange
  have hne : utf8 "offset" ≠ utf8 "counts" := by decide +kernel
  simp only [numberFields, List.forall_mem_cons, numbers, Dict.get?_set, if_neg hne, if_true,
    Option.bind_some, SchemaField.decoded, fieldType_sint32, fieldType_uint64] at hout
  exact ⟨s, body, out, hs, hencode, hdecode, hout.1, hout.2.1⟩

end Mpubsub.Theorems
