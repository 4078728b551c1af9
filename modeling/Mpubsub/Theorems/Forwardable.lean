import Mpubsub.Bridge.Json

/-!
# What the bridge can forward

A body that is decoded is to become a JSON object with a member for every decoded field. It does
not where a `float` is a NaN or an infinity, of which JSON has none: `json.Marshal` fails and takes
the whole message with it.
-/

namespace Mpubsub.Theorems

open Mpubsub.Lib Mpubsub.Bridge

/-- `ProtoToJSON` succeeds with the names in a decoded map for its keys. -/
def Forwards (s : Schema) (body : Bytes) (out : Dict Bytes Value) : Prop :=
  ∃ members, protoToJSON s body = .ok (.object members) ∧
    (members.map Prod.fst).Perm (out.entries.map Prod.fst)

theorem map_fst_sortMembers (members : List (Bytes × Json)) :
    ((sortMembers members).map Prod.fst).Perm ((members.map Prod.fst).map toValid) := by
  have hkeys : (sortMembers members).map Prod.fst =
      (members.mergeSort fun p q => p.1 ≤ q.1).map (toValid ∘ Prod.fst) := by
    rw [sortMembers, List.map_map]
    rfl
  rw [hkeys, List.map_map]
  exact (List.mergeSort_perm members _).map _

theorem forwards_iff {s : Schema} (hs : s.Valid) {body : Bytes} {out : Dict Bytes Value}
    (h : decodeProto s body = .ok out) :
    Forwards s body out ↔ ∀ name v, out.get? name = some v → ValidUtf8 name ∧ v.Finite := by
  have hnone := mapSnd_marshal_eq_none_iff hs (owned_of_decodeProto hs.accepted.names h)
  unfold Forwards
  rw [protoToJSON_eq h]
  cases hmembers : mapSnd marshal (valuesToJSON s out).entries with
  | none =>
    obtain ⟨name, v, hv, hnot⟩ := hnone.mp hmembers
    refine iff_of_false ?_ fun hall => hnot (hall name v hv).2
    rintro ⟨members, hok, -⟩
    cases hok
  | some members =>
    have hfinite : ∀ name v, out.get? name = some v → v.Finite := by
      intro name v hv
      by_contra hnot
      rw [hnone.mpr ⟨name, v, hv, hnot⟩] at hmembers
      cases hmembers
    have hkeys : members.map Prod.fst = out.entries.map Prod.fst :=
      (mapSnd_spec hmembers).1.trans (map_fst_valuesToJSON s out)
    have hperm := map_fst_sortMembers members
    rw [hkeys] at hperm
    constructor
    · rintro ⟨members', hok, hsame⟩ name v hv
      cases hok
      refine ⟨?_, hfinite name v hv⟩
      have hmem : name ∈ out.entries.map Prod.fst :=
        List.mem_map.mpr ⟨(name, v), Dict.mem_entries_iff.mpr hv, rfl⟩
      obtain ⟨k, -, hk⟩ := List.mem_map.mp ((hsame.symm.trans hperm).mem_iff.mp hmem)
      rw [← hk]
      exact validUtf8_toValid k
    · intro hall
      refine ⟨_, rfl, ?_⟩
      have hvalid : (out.entries.map Prod.fst).map toValid = out.entries.map Prod.fst := by
        refine (List.map_congr_left fun k hk => ?_).trans (List.map_id _)
        obtain ⟨⟨k, v⟩, hmem, rfl⟩ := List.mem_map.mp hk
        exact toValid_eq_iff.mpr (hall k v (Dict.mem_entries_iff.mp hmem)).1
      rwa [hvalid] at hperm

/-! ## A message that is lost -/

/-- A schema with a measured value and a count. -/
def sensorFields : List SchemaField :=
  [⟨utf8 "state", utf8 "float", 1, false⟩, ⟨utf8 "total", utf8 "int64", 2, false⟩]

theorem accepted_sensorFields : Accepted (utf8 "sensor") sensorFields where
  named := by decide +kernel
  nonempty := List.cons_ne_nil _ _
  each := by
    simp only [sensorFields, List.forall_mem_cons]
    exact ⟨⟨by decide, by decide, by decide +kernel⟩, ⟨by decide, by decide, by decide +kernel⟩,
      fun f hf => absurd hf List.not_mem_nil⟩
  tags := by decide
  names := by decide +kernel

theorem fieldType_float : fieldType (utf8 "float") = some .float := by decide +kernel

theorem fieldType_int64 : fieldType (utf8 "int64") = some .int64 := by decide +kernel

/-- A body of a schema with these fields that has the `float` only. -/
theorem decodeProto_state {s : Schema} (hs : s.Valid) (hfields : s.fields = sensorFields)
    {b₀ b₁ b₂ b₃ : UInt8} {bits : UInt32} (hload : loadU32leAt [b₀, b₁, b₂, b₃] 0 = bits) :
    decodeProto s [0x0D, b₀, b₁, b₂, b₃] =
      .ok (Dict.empty.set (utf8 "state") (.float64 (Ieee754.widen bits))) := by
  have hmem : ⟨utf8 "state", utf8 "float", 1, false⟩ ∈ s.fields := by
    rw [hfields]
    exact List.mem_cons_self
  have hval : decodeValue [b₀, b₁, b₂, b₃] (utf8 "float") 5 =
      .ok (.float64 (Ieee754.widen bits), 4) :=
    decodeValue_eq_ok_iff.mpr ⟨_, .fixed32 bits, fieldType_float, by rw [← hload]; rfl, rfl⟩
  have hpasses : Passes s [0x0D, b₀, b₁, b₂, b₃]
      [(⟨utf8 "state", utf8 "float", 1, false⟩, .float64 (Ieee754.widen bits))] :=
    .take ⟨0x0D, 1, 4, rfl, fieldWithTag_of_mem hs hmem, hval, rfl⟩ .done
  exact decodeProto_iff.mpr ⟨_, hpasses, rfl⟩

/-- The one member of the map. -/
theorem eq_of_get?_state {x v : Value} {name : Bytes}
    (h : (Dict.empty.set (utf8 "state") x).get? name = some v) : name = utf8 "state" ∧ v = x := by
  rw [Dict.get?_set] at h
  obtain ⟨rfl, heq⟩ := Option.ite_none_right_eq_some.mp h
  cases heq
  exact ⟨rfl, rfl⟩

/-- JSON can say what the map has if it is a number. -/
theorem finite_state {bits : UInt64} (hfinite : isFinite bits = true) {name : Bytes} {v : Value}
    (h : (Dict.empty.set (utf8 "state") (.float64 bits)).get? name = some v) :
    ValidUtf8 name ∧ v.Finite := by
  obtain ⟨rfl, rfl⟩ := eq_of_get?_state h
  exact ⟨⟨_, rfl⟩, hfinite⟩

/-- A body with a NaN is decoded, and not forwarded. -/
theorem nan_is_lost :
    ∃ s out, newSchema (utf8 "sensor") sensorFields = .ok s ∧
      decodeProto s [0x0D, 0x00, 0x00, 0xC0, 0x7F] = .ok out ∧
      ¬Forwards s [0x0D, 0x00, 0x00, 0xC0, 0x7F] out ∧
      protoToJSON s [0x0D, 0x00, 0x00, 0xC0, 0x7F] = .error (.marshal .unsupportedValue) := by
  obtain ⟨s, hs⟩ := newSchema_of_accepted accepted_sensorFields
  obtain ⟨-, hfields, hvalid⟩ := valid_of_newSchema hs
  have hload : loadU32leAt [0x00, 0x00, 0xC0, 0x7F] 0 = 0x7FC00000 := by decide
  have hdecode := decodeProto_state hvalid hfields hload
  have hnot : ¬Value.Finite (.float64 (Ieee754.widen 0x7FC00000)) := by
    rw [Value.Finite]
    decide +kernel
  have hget : (Dict.empty.set (utf8 "state") (Value.float64 (Ieee754.widen 0x7FC00000))).get?
      (utf8 "state") = some (.float64 (Ieee754.widen 0x7FC00000)) := by
    rw [Dict.get?_set, if_pos rfl]
  refine ⟨s, _, hs, hdecode, fun hforwards => ?_, ?_⟩
  · exact hnot ((forwards_iff hvalid hdecode).mp hforwards _ _ hget).2
  · rw [protoToJSON_eq hdecode, (mapSnd_marshal_eq_none_iff hvalid
      (owned_of_decodeProto hvalid.accepted.names hdecode)).mpr ⟨_, _, hget, hnot⟩]

/-- **A decoded body is forwarded with its fields if and only if** no decoded value is a NaN or an
infinity or has one among its elements, and the names are valid UTF-8. -/
theorem forwards_exactly {id : Bytes} {fields : List SchemaField} {s : Schema}
    (h : newSchema id fields = .ok s) {body : Bytes} {out : Dict Bytes Value}
    (hdecode : decodeProto s body = .ok out) :
    Forwards s body out ↔ ∀ name v, out.get? name = some v → ValidUtf8 name ∧ v.Finite := by
  obtain ⟨-, -, hs⟩ := valid_of_newSchema h
  exact forwards_iff hs hdecode

/-- A body with a number. -/
theorem forwards_exactly_sensor :
    ∃ s out, newSchema (utf8 "sensor") sensorFields = .ok s ∧
      decodeProto s [0x0D, 0x00, 0x00, 0xC0, 0x3F] = .ok out ∧
      Forwards s [0x0D, 0x00, 0x00, 0xC0, 0x3F] out := by
  obtain ⟨s, hs⟩ := newSchema_of_accepted accepted_sensorFields
  obtain ⟨-, hfields, hvalid⟩ := valid_of_newSchema hs
  have hload : loadU32leAt [0x00, 0x00, 0xC0, 0x3F] 0 = 0x3FC00000 := by decide
  have hdecode := decodeProto_state hvalid hfields hload
  refine ⟨s, _, hs, hdecode, (forwards_exactly hs hdecode).mpr fun name v hv => ?_⟩
  exact finite_state (by decide +kernel) hv

end Mpubsub.Theorems
