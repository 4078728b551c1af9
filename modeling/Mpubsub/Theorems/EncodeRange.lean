import Mpubsub.Bridge.Body
import Mpubsub.Bridge.Ranges
import Mpubsub.Theorems.GoRoundTrip

/-!
# Numbers outside the range of a field

`EncodeProto` is to report an error for a value that the type of its field does not have. It
reports a wrong kind, and a negative number for an unsigned type, but no other number that is out
of range: those are written, and read back as other numbers.
-/

namespace Mpubsub.Theorems

open Mpubsub.Lib Mpubsub.Bridge

/-- `EncodeProto` fails exactly where a value is not representable in its field, and what it writes
is read back with the same numbers. -/
def Faithful (conv : FloatConversion) (s : Schema) (values : Dict Bytes Value) : Prop :=
  ((∃ err, encodeProto conv s values = .error err) ↔
    ∃ f ∈ s.fields, ∃ v, values.get? f.name = some v ∧ ¬f.Every Value.Representable v) ∧
  ∀ body, encodeProto conv s values = .ok body → ∃ out, decodeProto s body = .ok out ∧
    ∀ f ∈ s.fields, f.ReadBack (values.get? f.name) (out.get? f.name)

/-- A number of the field, or of its list, is of a kind and a sign that the type has, and out of
its range. -/
def SlipsIn (f : SchemaField) (v : Value) : Prop :=
  ∃ type, fieldType f.type = some type ∧
    if f.repeated then ∃ l, v = .list l ∧ ∃ elem ∈ l, elem.Slips type else v.Slips type

section

variable {f : SchemaField} {v : Value}

/-- Where every value passes, those that slip are the ones that are not representable. -/
theorem every_representable_iff (hplain : v.Plain) (h : f.Every Value.Accepted v) :
    f.Every Value.Representable v ↔ ¬SlipsIn f v := by
  obtain ⟨type, htype, hacc⟩ := h
  simp only [SchemaField.Every, SlipsIn, htype, Option.some.injEq, exists_eq_left']
  by_cases hrep : f.repeated = true
  · simp only [if_pos hrep] at hacc ⊢
    obtain ⟨l, rfl, hacc⟩ := hacc
    cases hplain with
    | list helems =>
      simp only [Value.list.injEq, exists_eq_left', not_exists, not_and]
      exact forall₂_congr fun elem helem =>
        representable_iff (helems elem helem) (hacc elem helem)
  · simp only [if_neg hrep] at hacc ⊢
    exact representable_iff hplain hacc

theorem every_accepted (h : f.Every Value.Representable v) : f.Every Value.Accepted v := by
  obtain ⟨type, htype, hevery⟩ := h
  refine ⟨type, htype, ?_⟩
  by_cases hrep : f.repeated = true
  · rw [if_pos hrep] at hevery ⊢
    obtain ⟨l, rfl, hl⟩ := hevery
    exact ⟨l, rfl, fun elem helem => (hl elem helem).accepted⟩
  · rw [if_neg hrep] at hevery ⊢
    exact hevery.accepted

end

theorem faithful_iff {s : Schema} (hs : s.Valid) (conv : FloatConversion)
    {values : Dict Bytes Value} (hplain : ∀ name v, values.get? name = some v → v.Plain) :
    Faithful conv s values ↔
      (∃ f ∈ s.fields, ∃ v, values.get? f.name = some v ∧ ¬f.Every Value.Accepted v) ∨
      ∀ f ∈ s.fields, ∀ v, values.get? f.name = some v → ¬SlipsIn f v := by
  by_cases hacc : ∀ f ∈ s.fields, ∀ v, values.get? f.name = some v → f.Every Value.Accepted v
  · have hiff : (∀ f ∈ s.fields, ∀ v, values.get? f.name = some v →
          f.Every Value.Representable v) ↔
        ∀ f ∈ s.fields, ∀ v, values.get? f.name = some v → ¬SlipsIn f v :=
      forall₂_congr fun f hf => forall₂_congr fun v hv =>
        every_representable_iff (hplain _ v hv) (hacc f hf v hv)
    rw [or_iff_right (by push Not; exact hacc), ← hiff]
    constructor
    · rintro ⟨herror, -⟩
      by_contra hnot
      push Not at hnot
      exact exists_error_iff.mp (herror.mpr hnot) ((encodeProto_ok_iff hplain).mpr hacc)
    · intro hrep
      obtain ⟨body, out, hencode, hdecode, hback⟩ := encodeProto_representable conv hs hplain hrep
      refine ⟨iff_of_false ?_ ?_, fun body' hbody => ?_⟩
      · exact fun h => exists_error_iff.mp h ⟨body, hencode⟩
      · push Not
        exact hrep
      · cases hencode.symm.trans hbody
        exact ⟨out, hdecode, hback⟩
  · refine iff_of_true ⟨iff_of_true ?_ ?_, fun body hbody => ?_⟩ (.inl ?_)
    · exact exists_error_iff.mpr fun h => hacc ((encodeProto_ok_iff hplain).mp h)
    · push Not at hacc
      obtain ⟨f, hf, v, hv, hnot⟩ := hacc
      exact ⟨f, hf, v, hv, fun h => hnot (every_accepted h)⟩
    · exact absurd ((encodeProto_ok_iff hplain).mp ⟨body, hbody⟩) hacc
    · push Not at hacc
      exact hacc

/-! ## A number that wraps -/

/-- A map with the least number that an `sint32` does not have. -/
def largeOffset : Dict Bytes Value := Dict.empty.set (utf8 "offset") (.int64 2147483648)

/-- It is written, and read back as the least number that an `sint32` has. -/
theorem large_offset_wraps :
    ∃ s body out, newSchema (utf8 "numbers") numberFields = .ok s ∧
      ¬Faithful ⟨fun _ => 0, fun _ => 0⟩ s largeOffset ∧
      encodeProto ⟨fun _ => 0, fun _ => 0⟩ s largeOffset = .ok body ∧
      decodeProto s body = .ok out ∧ out.get? (utf8 "offset") = some (.int64 (-2147483648)) := by
  obtain ⟨s, hs⟩ := newSchema_of_accepted accepted_numberFields
  obtain ⟨-, hfields, hvalid⟩ := valid_of_newSchema hs
  have hmem : ⟨utf8 "offset", utf8 "sint32", 1, false⟩ ∈ s.fields := by
    rw [hfields]
    exact List.mem_cons_self
  have hget : largeOffset.get? (utf8 "offset") = some (.int64 2147483648) := rfl
  have hencode : encodeProto ⟨fun _ => 0, fun _ => 0⟩ s largeOffset =
      .ok [0x08, 0xFF, 0xFF, 0xFF, 0xFF, 0x0F] := by
    have hnone : largeOffset.get? (utf8 "counts") = none := by decide +kernel
    rw [encodeProto, hfields]
    simp only [numberFields, List.foldlM_cons, List.foldlM_nil, encodeField, hget, hnone,
      wireTypeFor, appendValue, fieldType_sint32, toInt64]
    have hbytes : appendVarint (appendTag [] 1 wireVarint)
        (zigzag32 (2147483648 : Int64).toInt32).toUInt64 =
          [0x08, 0xFF, 0xFF, 0xFF, 0xFF, 0x0F] := by decide
    exact congrArg Except.ok hbytes
  have htakes : Takes s [0x08, 0xFF, 0xFF, 0xFF, 0xFF, 0x0F]
      ⟨utf8 "offset", utf8 "sint32", 1, false⟩ (.int64 (-2147483648)) 6 := by
    have hval : decodeValue [0xFF, 0xFF, 0xFF, 0xFF, 0x0F] (utf8 "sint32") 0 =
        .ok (.int64 (-2147483648), 5) :=
      decodeValue_eq_ok_iff.mpr ⟨_, .varint 0xFFFFFFFF, fieldType_sint32, by decide, rfl⟩
    exact ⟨8, 1, 5, by decide, fieldWithTag_of_mem hvalid hmem, hval, rfl⟩
  refine ⟨s, _, _, hs, fun hfaithful => ?_, hencode,
    decodeProto_iff.mpr ⟨[(_, _)], .take htakes .done, rfl⟩, rfl⟩
  have herror := hfaithful.1.mpr ⟨_, hmem, _, hget, ?_⟩
  · exact exists_error_iff.mp herror ⟨_, hencode⟩
  · rintro ⟨type, htype, hrep⟩
    cases fieldType_sint32.symm.trans htype
    obtain ⟨n, hn, -, hhigh⟩ : Value.InRange .sint32 (.int64 2147483648) := hrep
    cases hn
    exact absurd hhigh (by decide)

/-- **`EncodeProto` fails exactly on the values that are not representable, and is read back,
if and only if** it finds a value of a wrong kind or sign, or none is out of range. -/
theorem faithful_exactly {id : Bytes} {fields : List SchemaField} {s : Schema}
    (h : newSchema id fields = .ok s) (conv : FloatConversion) {values : Dict Bytes Value}
    (hvalues : ∀ name v, values.get? name = some v →
      (∃ f ∈ fields, f.name = name) ∧ v.Plain) :
    Faithful conv s values ↔
      (∃ f ∈ fields, ∃ v, values.get? f.name = some v ∧ ¬f.Every Value.Accepted v) ∨
      ∀ f ∈ fields, ∀ v, values.get? f.name = some v → ¬SlipsIn f v := by
  obtain ⟨-, rfl, hs⟩ := valid_of_newSchema h
  exact faithful_iff hs conv fun name v hv => (hvalues name v hv).2

/-- A map that is written faithfully. -/
theorem faithful_exactly_numbers :
    ∃ s, newSchema (utf8 "numbers") numberFields = .ok s ∧
      Faithful ⟨fun _ => 0, fun _ => 0⟩ s (Dict.empty.set (utf8 "offset") (.int64 5)) := by
  obtain ⟨s, hs⟩ := newSchema_of_accepted accepted_numberFields
  refine ⟨s, hs, (faithful_exactly hs _ fun name v hv => ?_).mpr (.inr fun f hf v hv => ?_)⟩
  · rw [Dict.get?_set] at hv
    obtain ⟨rfl, heq⟩ := Option.ite_none_right_eq_some.mp hv
    cases heq
    exact ⟨⟨_, List.mem_cons_self, rfl⟩, .int64 5⟩
  · rw [Dict.get?_set] at hv
    obtain ⟨hname, heq⟩ := Option.ite_none_right_eq_some.mp hv
    cases heq
    rw [numberFields, List.mem_cons, List.mem_singleton] at hf
    rcases hf with rfl | rfl
    · rintro ⟨type, htype, hslips⟩
      cases fieldType_sint32.symm.trans htype
      obtain ⟨n, hn, hout⟩ : Value.Slips .sint32 (.int64 5) := hslips
      cases hn
      exact absurd hout (by decide)
    · exact absurd hname (by decide +kernel)

end Mpubsub.Theorems
