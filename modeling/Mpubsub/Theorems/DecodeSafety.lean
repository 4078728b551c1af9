import Mpubsub.Bridge.Slices
import Mpubsub.Theorems.GoRoundTrip

/-!
# `DecodeProto` on hostile bytes

It returns, evaluates no slice or index expression out of range, and comes forward with every
iteration; and the strings that come out lie in the body.
-/

namespace Mpubsub.Theorems

open Mpubsub.Lib Mpubsub.Lib.Protobuf Mpubsub.Bridge

/-- The offset and the map before a condition of the loop. -/
inductive AtOffset (s : Schema) (body : Bytes) : Int64 → Dict Bytes Value → Prop
  | start : AtOffset s body 0 .empty
  | next {i i' : Int64} {out out' : Dict Bytes Value} (h : AtOffset s body i out)
      (hlt : i < (View.whole body).len)
      (hstep : decodeFieldAt s body i out = some (.ok (out', i'))) : AtOffset s body i' out'

/-- The string or the bytes of a value that is no list. -/
def text? : Value → Option Bytes
  | .string s | .bytes s => some s
  | _ => none

/-- The strings and bytes in a value. -/
def texts (v : Value) : List Bytes := (text? v).toList ++ v.elements.filterMap text?

variable {s : Schema} {body : Bytes}

/-! ## Offsets -/

theorem ofNat_lt_iff {i j : Nat} (hi : i < 2 ^ 63) (hj : j < 2 ^ 63) :
    Int64.ofNat i < Int64.ofNat j ↔ i < j := by
  rw [Int64.lt_iff_toInt_lt, Int64.toInt_ofNat_of_lt hi, Int64.toInt_ofNat_of_lt hj]
  exact Int.ofNat_lt

/-- An iteration at an offset in the body. -/
theorem decodeFieldAt_cases (hs : s.Valid) (hbody : body.length < 2 ^ 63) {i : Nat}
    (hi : i ≤ body.length) (out : Dict Bytes Value) :
    (∃ err, decodeFieldAt s body (Int64.ofNat i) out = some (.error err)) ∨
    ∃ out' j, decodeFieldAt s body (Int64.ofNat i) out = some (.ok (out', Int64.ofNat j)) ∧
      i < j ∧ j ≤ body.length := by
  rw [decodeFieldAt_eq hs hbody hi]
  cases hstep : decodeField s i (body.drop i) out with
  | error err => exact .inl ⟨err, rfl⟩
  | ok p =>
    obtain ⟨hpos, hle⟩ := decodeField_le hstep
    rw [List.length_drop] at hle
    exact .inr ⟨p.1, i + p.2, rfl, by omega, by omega⟩

theorem AtOffset.exists_nat (hs : s.Valid) (hbody : body.length < 2 ^ 63) {i : Int64}
    {out : Dict Bytes Value} (h : AtOffset s body i out) :
    ∃ j ≤ body.length, i = Int64.ofNat j := by
  induction h with
  | start => exact ⟨0, Nat.zero_le _, rfl⟩
  | next h hlt hstep ih =>
    obtain ⟨j, hj, rfl⟩ := ih
    rcases decodeFieldAt_cases hs hbody hj _ with ⟨err, herr⟩ | ⟨out₁, k, hok, -, hk⟩
    · cases herr.symm.trans hstep
    · cases hok.symm.trans hstep
      exact ⟨k, hk, rfl⟩

/-! ## Strings -/

theorem text_of_valueOf {type : Proto.FieldType} {w : WireValue} {val : Value} {t : Bytes}
    (h : valueOf type w = some val) (ht : text? val = some t) : w = .len t := by
  cases type with
  | string | bytes =>
    cases w with
    | len payload =>
      cases h
      cases ht
      rfl
    | varint v | fixed32 bits => cases h
  | bool | int32 | int64 | uint32 | uint64 | sint32 | sint64 =>
    cases w with
    | varint v =>
      cases h
      cases ht
    | len payload | fixed32 bits => cases h
  | float =>
    cases w with
    | fixed32 bits =>
      cases h
      cases ht
    | varint v | len payload => cases h

theorem infix_of_readValue {wt n : Nat} {data t : Bytes}
    (h : readValue wt data = some (.len t, n)) : t <:+: data := by
  unfold readValue at h
  split at h
  · obtain ⟨p, -, heq⟩ := Option.map_eq_some_iff.mp h
    cases heq
  · obtain ⟨p, -, h⟩ := Option.bind_eq_some_iff.mp h
    cases (Option.ite_none_right_eq_some.mp h).2
    exact (List.take_prefix _ _).isInfix.trans (List.drop_suffix _ _).isInfix
  · cases (Option.ite_none_right_eq_some.mp h).2
  · cases h

/-- A value that is taken out of a body has its bytes there. -/
theorem infix_of_passes {data : Bytes} {vals : List (SchemaField × Value)}
    (h : Passes s data vals) : ∀ p ∈ vals, ∀ t, text? p.2 = some t → t <:+: data := by
  induction h with
  | done => exact fun p hp => absurd hp List.not_mem_nil
  | skip h rest ih =>
    exact fun p hp t ht => (ih p hp t ht).trans (List.drop_suffix _ _).isInfix
  | take h rest ih =>
    rw [List.forall_mem_cons]
    refine ⟨fun t ht => ?_, fun p hp t ht => (ih p hp t ht).trans (List.drop_suffix _ _).isInfix⟩
    obtain ⟨key, k, consumed, -, -, hval, -⟩ := h
    obtain ⟨type, w, -, hread, hvalue⟩ := decodeValue_eq_ok_iff.mp hval
    rw [text_of_valueOf hvalue ht] at hread
    exact (infix_of_readValue hread).trans (List.drop_suffix _ _).isInfix

/-- The values of a body are scalars. -/
theorem elements_of_passes {data : Bytes} {vals : List (SchemaField × Value)}
    (h : Passes s data vals) : ∀ p ∈ vals, p.2.elements = [] := by
  induction h with
  | done => exact fun p hp => absurd hp List.not_mem_nil
  | skip h rest ih => exact ih
  | take h rest ih =>
    refine List.forall_mem_cons.mpr ⟨?_, ih⟩
    obtain ⟨key, k, consumed, -, -, hval, -⟩ := h
    obtain ⟨type, w, -, -, hvalue⟩ := decodeValue_eq_ok_iff.mp hval
    cases type <;> cases w <;> cases hvalue <;> rfl

/-- Storing values adds no other strings. -/
theorem texts_of_store {vals : List (SchemaField × Value)} {P : Bytes → Prop}
    (hvals : ∀ p ∈ vals, ∀ t ∈ texts p.2, P t) {out : Dict Bytes Value}
    (hout : ∀ name v, out.get? name = some v → ∀ t ∈ texts v, P t) :
    ∀ name v, (store out vals).get? name = some v → ∀ t ∈ texts v, P t := by
  induction vals generalizing out with
  | nil => exact hout
  | cons p vals ih =>
    rw [List.forall_mem_cons] at hvals
    refine ih hvals.2 fun name v hv t ht => ?_
    by_cases hname : name = p.1.name
    · subst hname
      rw [get?_addValue] at hv
      have hval (ht : text? p.2 = some t) : P t :=
        hvals.1 t (List.mem_append_left _ (Option.mem_toList.mpr ht))
      -- The new value stands alone, or behind those that were there.
      have hlist {l : List Value} (hl : ∀ t ∈ l.filterMap text?, P t)
          (ht : t ∈ texts (.list (l ++ [p.2]))) : P t := by
        obtain ⟨e, he, het⟩ := List.mem_filterMap.mp ht
        rcases List.mem_append.mp he with he | he
        · exact hl t (List.mem_filterMap.mpr ⟨e, he, het⟩)
        · rw [List.mem_singleton.mp he] at het
          exact hval het
      cases hget : out.get? p.1.name with
      | none =>
        rw [hget] at hv
        cases hrep : p.1.repeated with
        | true =>
          rw [hrep] at hv
          cases hv
          exact hlist (l := []) (fun t ht => absurd ht List.not_mem_nil) ht
        | false =>
          rw [hrep] at hv
          cases hv
          exact hvals.1 t ht
      | some a =>
        rw [hget] at hv
        cases hrep : p.1.repeated with
        | true =>
          rw [hrep] at hv
          cases hv
          exact hlist (fun t ht => hout _ a hget t (List.mem_append_right _ ht)) ht
        | false =>
          rw [hrep] at hv
          cases hv
          exact hvals.1 t ht
    · rw [Column.get?_addValue_of_ne hname] at hv
      exact hout name v hv t ht

/-- **Hostile bodies do no harm.** `DecodeProto` returns, and does not panic; an iteration moves
the offset forward and not past the end; strings and bytes that come out are parts of the
body. -/
theorem decode_safe {id : Bytes} {fields : List SchemaField} (h : newSchema id fields = .ok s)
    (hbody : body.length < 2 ^ 63) :
    decodeProtoAt s body (body.length + 1) = .returned (decodeProto s body) ∧
    (∀ i out, AtOffset s body i out → 0 ≤ i ∧ i ≤ (View.whole body).len ∧
      decodeFieldAt s body i out ≠ none ∧
      ∀ out' i', decodeFieldAt s body i out = some (.ok (out', i')) → i < i') ∧
    ∀ out, decodeProto s body = .ok out → ∀ name v, out.get? name = some v →
      ∀ t ∈ texts v, t <:+: body := by
  obtain ⟨-, -, hs⟩ := valid_of_newSchema h
  refine ⟨?_, ?_, ?_⟩
  · exact decodeLoopAt_eq hs hbody (Nat.zero_le _) (by omega) .empty
  · intro i out hat
    obtain ⟨j, hj, rfl⟩ := hat.exists_nat hs hbody
    have hle : Int64.ofNat j ≤ (View.whole body).len := by
      rw [View.len_eq, View.bytes_whole, Int64.le_iff_toInt_le, Int64.toInt_ofNat_of_lt (by omega),
        Int64.toInt_ofNat_of_lt hbody]
      exact Int.ofNat_le.mpr hj
    have hnonneg : 0 ≤ Int64.ofNat j := by
      rw [Int64.le_iff_toInt_le, Int64.toInt_ofNat_of_lt (by omega)]
      exact Int.natCast_nonneg j
    refine ⟨hnonneg, hle, ?_⟩
    rcases decodeFieldAt_cases hs hbody hj out with ⟨err, herr⟩ | ⟨out₁, k, hok, hlt, hk⟩
    · rw [herr]
      exact ⟨Option.some_ne_none _, fun out' i' heq => by cases heq⟩
    · rw [hok]
      refine ⟨Option.some_ne_none _, fun out' i' heq => ?_⟩
      cases heq
      exact (ofNat_lt_iff (by omega) (by omega)).mpr hlt
  · intro out hout
    obtain ⟨vals, hpasses, rfl⟩ := decodeProto_iff.mp hout
    refine texts_of_store (fun p hp t ht => ?_) fun name v hv => by cases hv
    rw [texts, elements_of_passes hpasses p hp, List.filterMap_nil, List.append_nil,
      Option.mem_toList] at ht
    exact infix_of_passes hpasses p hp t ht

/-- A length that would be negative as an `int`, for the schema of numbers. -/
theorem decode_safe_numbers :
    ∃ s, newSchema (utf8 "numbers") numberFields = .ok s ∧
      decodeProtoAt s ([0x1A] ++ varint (2 ^ 63)) 12 =
        .returned (decodeProto s ([0x1A] ++ varint (2 ^ 63))) := by
  obtain ⟨s, hs⟩ := newSchema_of_accepted accepted_numberFields
  have hlen : ([0x1A] ++ varint (2 ^ 63)).length = 11 := by decide +kernel
  have hbound : ([0x1A] ++ varint (2 ^ 63)).length < 2 ^ 63 := by
    rw [hlen]
    decide
  have hsafe := (decode_safe hs hbound).1
  rw [hlen] at hsafe
  exact ⟨s, hs, hsafe⟩

end Mpubsub.Theorems
