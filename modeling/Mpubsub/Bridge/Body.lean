import Mpubsub.Bridge.Columns

/-!
# What `DecodeProto` takes out of a body

The loop goes through a body record by record: it skips those of unknown fields and takes a value
out of each of the others (`Passes`). What comes out is what the values are folded to
(`decodeLoop_iff`), so that a concatenation is passed part by part (`Passes.append`), and what a
field has in the end is put together from the parts (`get?_store`).
-/

namespace Mpubsub.Bridge

open Mpubsub.Lib Mpubsub.Lib.Protobuf
open Mpubsub.Proto (FieldType)

variable {s : Schema} {i : Nat} {data : Bytes} {out : Dict Bytes Value}

/-! ## Values on the wire -/

/-- The value of a wire type at the start of the data, and the number of bytes. -/
def readValue (wt : Nat) (data : Bytes) : Option (WireValue × Nat) :=
  match wt with
  | 0 => (readVarint data).map fun p => (.varint p.1, p.2)
  | 2 => (readVarint data).bind fun p =>
    if p.1.toNat ≤ data.length - p.2 then
      some (.len ((data.drop p.2).take p.1.toNat), p.2 + p.1.toNat)
    else none
  | 5 => if 4 ≤ data.length then some (.fixed32 (loadU32leAt data 0), 4) else none
  | _ => none

/-- What a field of a type takes out of it. -/
def valueOf : FieldType → WireValue → Option Value
  | .bool, .varint v => some (.bool (v != 0))
  | .int32, .varint v => some (.int64 v.toUInt32.toInt32.toInt64)
  | .int64, .varint v => some (.int64 v.toInt64)
  | .uint32, .varint v => some (.uint64 v.toUInt32.toUInt64)
  | .uint64, .varint v => some (.uint64 v)
  | .sint32, .varint v => some (.int64 (unzigzag32 v.toUInt32).toInt64)
  | .sint64, .varint v => some (.int64 (unzigzag64 v))
  | .float, .fixed32 bits => some (.float64 (Ieee754.widen bits))
  | .string, .len payload => some (.string payload)
  | .bytes, .len payload => some (.bytes payload)
  | _, _ => none

theorem readValue_bounds {wt n : Nat} {w : WireValue} (h : readValue wt data = some (w, n)) :
    n ≤ data.length := by
  unfold readValue at h
  split at h
  · obtain ⟨p, hp, heq⟩ := Option.map_eq_some_iff.mp h
    cases heq
    exact (readVarint_bounds hp).2
  · obtain ⟨p, hp, h⟩ := Option.bind_eq_some_iff.mp h
    have := (readVarint_bounds hp).2
    obtain ⟨hroom, heq⟩ := Option.ite_none_right_eq_some.mp h
    cases heq
    omega
  · obtain ⟨hroom, heq⟩ := Option.ite_none_right_eq_some.mp h
    cases heq
    exact hroom
  · cases h

/-- What comes behind a value does not matter. -/
theorem readValue_append {wt : Nat} {p : WireValue × Nat} (h : readValue wt data = some p)
    (rest : Bytes) : readValue wt (data ++ rest) = some p := by
  unfold readValue at h ⊢
  split at h
  · obtain ⟨q, hq, rfl⟩ := Option.map_eq_some_iff.mp h
    rw [readVarint_append hq, Option.map_some]
  · obtain ⟨q, hq, h⟩ := Option.bind_eq_some_iff.mp h
    have hle := (readVarint_bounds hq).2
    obtain ⟨hroom, heq⟩ := Option.ite_none_right_eq_some.mp h
    cases heq
    have htake : ((data ++ rest).drop q.2).take q.1.toNat = (data.drop q.2).take q.1.toNat := by
      rw [List.drop_append_of_le_length hle,
        List.take_append_of_le_length (by rw [List.length_drop]; exact hroom)]
    rw [readVarint_append hq, Option.bind_some, htake, List.length_append, if_pos (by omega)]
  · obtain ⟨hroom, heq⟩ := Option.ite_none_right_eq_some.mp h
    cases heq
    rw [loadU32leAt_append (by omega), List.length_append, if_pos (by omega)]
  · cases h

theorem readValue_wireType {wt n : Nat} {w : WireValue} (h : readValue wt data = some (w, n)) :
    w.wireType = wt := by
  unfold readValue at h
  split at h
  · obtain ⟨p, -, heq⟩ := Option.map_eq_some_iff.mp h
    cases heq
    rfl
  · obtain ⟨p, -, h⟩ := Option.bind_eq_some_iff.mp h
    cases (Option.ite_none_right_eq_some.mp h).2
    rfl
  · cases (Option.ite_none_right_eq_some.mp h).2
    rfl
  · cases h

/-- A type takes values of its own wire type. -/
theorem valueOf_wireType {type : FieldType} {w : WireValue} {val : Value}
    (h : valueOf type w = some val) : w.wireType = (type.wireValue type.default).wireType := by
  cases type <;> cases w <;> first | rfl | cases h

/-- `skipField` knows three wire types. -/
theorem skipField_eq_ok_iff {wt n : Nat} :
    skipField data wt = .ok n ↔ ∃ w, readValue wt data = some (w, n) := by
  by_cases hvarint : wt = wireVarint
  · subst hvarint
    cases hread : readVarint data <;> simp [skipField, readValue, wireVarint, hread]
  by_cases hfixed : wt = wireFixed32
  · subst hfixed
    by_cases hroom : data.length < 4
    · simp [skipField, readValue, wireVarint, wireFixed32, hroom]
    · simp [skipField, readValue, wireVarint, wireFixed32, hroom, Nat.not_lt.mp hroom]
  by_cases hlen : wt = wireLen
  · subst hlen
    cases hread : readVarint data with
    | none => simp [skipField, readValue, wireVarint, wireFixed32, wireLen, hread]
    | some p =>
      by_cases hroom : p.1.toNat > data.length - p.2
      · simp [skipField, readValue, wireVarint, wireFixed32, wireLen, hread, hroom]
      · simp [skipField, readValue, wireVarint, wireFixed32, wireLen, hread, hroom,
          Nat.not_lt.mp hroom]
  · have hnone : readValue wt data = none := by
      unfold readValue
      split <;> first | contradiction | rfl
    rw [skipField, if_neg hvarint, if_neg hfixed, if_neg hlen, hnone]
    simp

/-- `decodeValue` takes the value that the field's type has for it. -/
theorem decodeValue_eq_ok_iff {typ : Bytes} {wt n : Nat} {val : Value} :
    decodeValue data typ wt = .ok (val, n) ↔
      ∃ type w, fieldType typ = some type ∧ readValue wt data = some (w, n) ∧
        valueOf type w = some val := by
  -- A type takes one of three kinds of values, and has its own function of it.
  have hvarint (what : String) (value : UInt64 → Value) :
      decodeVarint what data value = .ok (val, n) ↔
        ∃ v, readValue 0 data = some (.varint v, n) ∧ value v = val := by
    cases hread : readVarint data <;> simp [decodeVarint, readValue, hread, and_comm]
  have hlen (what : String) (value : Bytes → Value) :
      decodeLen what data value = .ok (val, n) ↔
        ∃ payload, readValue 2 data = some (.len payload, n) ∧ value payload = val := by
    cases hread : readVarint data with
    | none => simp [decodeLen, readValue, hread]
    | some p =>
      by_cases hroom : p.1.toNat > data.length - p.2
      · simp [decodeLen, readValue, hread, hroom]
      · simp [decodeLen, readValue, hread, hroom, Nat.not_lt.mp hroom, and_comm]
  have hfixed : (if data.length < 4 then .error (.truncated "float")
      else .ok (.float64 (Ieee754.widen (loadU32leAt data 0)), 4) :
        Except ProtoError (Value × Nat)) = .ok (val, n) ↔
        ∃ bits, readValue 5 data = some (.fixed32 bits, n) ∧
          Value.float64 (Ieee754.widen bits) = val := by
    by_cases hroom : data.length < 4
    · simp [readValue, hroom]
    · simp [readValue, hroom, Nat.not_lt.mp hroom, and_comm]
  unfold decodeValue
  constructor
  · intro h
    obtain ⟨expected, hexpected, hvalue⟩ := bind_eq_ok.mp h
    by_cases hwt : wt ≠ expected
    · rw [if_pos hwt] at hvalue
      cases hvalue
    rw [if_neg hwt] at hvalue
    obtain rfl := not_not.mp hwt
    cases htype : fieldType typ with
    | none =>
      rw [wireTypeFor, htype] at hexpected
      cases hexpected
    | some type =>
      rw [htype] at hvalue
      have hsame := hexpected.symm.trans (wireTypeFor_eq htype type.default)
      cases type with
      | bool | int32 | int64 | uint32 | uint64 | sint32 | sint64 =>
        cases hsame
        obtain ⟨v, hv, hval⟩ := (hvarint _ _).mp hvalue
        exact ⟨_, _, rfl, hv, congrArg some hval⟩
      | float =>
        cases hsame
        obtain ⟨bits, hbits, hval⟩ := hfixed.mp hvalue
        exact ⟨_, _, rfl, hbits, congrArg some hval⟩
      | string | bytes =>
        cases hsame
        obtain ⟨payload, hpayload, hval⟩ := (hlen _ _).mp hvalue
        exact ⟨_, _, rfl, hpayload, congrArg some hval⟩
  · rintro ⟨type, w, htype, hw, hval⟩
    have hwt : (type.wireValue type.default).wireType = wt :=
      (valueOf_wireType hval).symm.trans (readValue_wireType hw)
    have hwire := wireTypeFor_eq htype type.default
    rw [hwt] at hwire
    rw [hwire, htype]
    refine (if_neg (not_not.mpr rfl)).trans ?_
    rw [← hwt] at hw
    cases type with
    | bool | int32 | int64 | uint32 | uint64 | sint32 | sint64 =>
      cases w with
      | varint v => exact (hvarint _ _).mpr ⟨v, hw, Option.some.inj hval⟩
      | len payload | fixed32 bits => cases hval
    | float =>
      cases w with
      | fixed32 bits => exact hfixed.mpr ⟨bits, hw, Option.some.inj hval⟩
      | varint v | len payload => cases hval
    | string | bytes =>
      cases w with
      | len payload => exact (hlen _ _).mpr ⟨payload, hw, Option.some.inj hval⟩
      | varint v | fixed32 bits => cases hval

/-! ## An iteration -/

/-- The iteration at `data` skips a record of `n` bytes. -/
def Skips (s : Schema) (data : Bytes) (n : Nat) : Prop :=
  ∃ key k skip, readVarint data = some (key, k) ∧
    s.fieldWithTag (key >>> 3).toUInt32 = none ∧
    skipField (data.drop k) (key &&& 7).toNat = .ok skip ∧ n = k + skip

/-- The iteration at `data` takes a value of a field out of a record of `n` bytes. -/
def Takes (s : Schema) (data : Bytes) (f : SchemaField) (val : Value) (n : Nat) : Prop :=
  ∃ key k consumed, readVarint data = some (key, k) ∧
    s.fieldWithTag (key >>> 3).toUInt32 = some f ∧
    decodeValue (data.drop k) f.type (key &&& 7).toNat = .ok (val, consumed) ∧ n = k + consumed

/-- A record of a field from its key, its type and its value on the wire. -/
theorem takes_of_parts (key : UInt64) (k : Nat) (w : WireValue) (n : Nat) (hs : s.Valid)
    {f : SchemaField} (hf : f ∈ s.fields) {type : FieldType} {val : Value}
    (hkey : readVarint data = some (key, k)) (htag : (key >>> 3).toUInt32 = f.tag)
    (htype : fieldType f.type = some type)
    (hw : readValue (key &&& 7).toNat (data.drop k) = some (w, n))
    (hval : valueOf type w = some val) : Takes s data f val (k + n) :=
  ⟨key, k, n, hkey, by rw [htag]; exact fieldWithTag_of_mem hs hf,
    decodeValue_eq_ok_iff.mpr ⟨type, w, htype, hw, hval⟩, rfl⟩

theorem decodeField_of_skips {n : Nat} (h : Skips s data n) :
    decodeField s i data out = .ok (out, n) := by
  obtain ⟨key, k, skip, hkey, hfield, hskip, rfl⟩ := h
  unfold decodeField
  simp only [hkey, hfield, hskip]

theorem decodeField_of_takes {f : SchemaField} {val : Value} {n : Nat} (h : Takes s data f val n) :
    decodeField s i data out = .ok (addValue out f val, n) := by
  obtain ⟨key, k, consumed, hkey, hfield, hval, rfl⟩ := h
  unfold decodeField
  simp only [hkey, hfield, hval]
  rfl

/-- An iteration that succeeds does one or the other. -/
theorem decodeField_cases {out' : Dict Bytes Value} {n : Nat}
    (h : decodeField s i data out = .ok (out', n)) :
    (Skips s data n ∧ out' = out) ∨ ∃ f val, Takes s data f val n ∧ out' = addValue out f val := by
  unfold decodeField at h
  split at h
  · cases h
  rename_i key k hkey
  simp only at h
  split at h
  · rename_i hfield
    split at h
    · cases h
    · rename_i skip hskip
      cases h
      exact .inl ⟨⟨key, k, skip, hkey, hfield, hskip, rfl⟩, rfl⟩
  · rename_i f hfield
    obtain ⟨⟨val, consumed⟩, hval, h⟩ := bind_eq_ok.mp h
    cases h
    cases hdecode : decodeValue (data.drop k) f.type (key &&& 7).toNat with
    | error err =>
      rw [hdecode] at hval
      cases hval
    | ok p =>
      rw [hdecode] at hval
      cases hval
      exact .inr ⟨f, val, ⟨key, k, consumed, hkey, hfield, hdecode, rfl⟩, rfl⟩

/-! ## A body -/

/-- The loop passes through a body, and takes out the values of a list. -/
inductive Passes (s : Schema) : Bytes → List (SchemaField × Value) → Prop
  | done : Passes s [] []
  | skip {data : Bytes} {n : Nat} {vals : List (SchemaField × Value)} (h : Skips s data n)
      (rest : Passes s (data.drop n) vals) : Passes s data vals
  | take {data : Bytes} {f : SchemaField} {val : Value} {n : Nat}
      {vals : List (SchemaField × Value)} (h : Takes s data f val n)
      (rest : Passes s (data.drop n) vals) : Passes s data ((f, val) :: vals)

/-- What the loop makes of the values. -/
def store (out : Dict Bytes Value) (vals : List (SchemaField × Value)) : Dict Bytes Value :=
  vals.foldl (fun out p => addValue out p.1 p.2) out

theorem ne_nil_of_readVarint {p : UInt64 × Nat} (h : readVarint data = some p) : data ≠ [] := by
  rintro rfl
  cases h

theorem Skips.ne_nil {n : Nat} (h : Skips s data n) : data ≠ [] := by
  obtain ⟨key, k, skip, hkey, -⟩ := h
  exact ne_nil_of_readVarint hkey

theorem Takes.ne_nil {f : SchemaField} {val : Value} {n : Nat} (h : Takes s data f val n) :
    data ≠ [] := by
  obtain ⟨key, k, consumed, hkey, -⟩ := h
  exact ne_nil_of_readVarint hkey

theorem decodeLoop_of_passes {vals : List (SchemaField × Value)} (h : Passes s data vals) :
    decodeLoop s i data out = .ok (store out vals) := by
  induction h generalizing i out with
  | done => rfl
  | skip h rest ih => rw [decodeLoop_step h.ne_nil (decodeField_of_skips h), ih]
  | take h rest ih =>
    rw [decodeLoop_step h.ne_nil (decodeField_of_takes h), ih]
    rfl

theorem passes_of_decodeLoop {out' : Dict Bytes Value} (h : decodeLoop s i data out = .ok out') :
    ∃ vals, Passes s data vals ∧ out' = store out vals := by
  induction hlen : data.length using Nat.strongRecOn generalizing data i out with
  | ind len ih =>
    by_cases hnil : data = []
    · subst hnil
      cases h
      exact ⟨[], .done, rfl⟩
    cases hstep : decodeField s i data out with
    | error err =>
      obtain ⟨fuel, hfuel⟩ := Nat.exists_eq_add_of_le' (List.length_pos_iff.mpr hnil)
      rw [decodeLoop, hfuel, decodeFields, if_neg hnil, hstep] at h
      cases h
    | ok step =>
      obtain ⟨out₁, n⟩ := step
      have hpos := decodeField_pos hstep
      have hshorter : (data.drop n).length < len := by
        have := List.length_pos_iff.mpr hnil
        rw [List.length_drop]
        omega
      rw [decodeLoop_step hnil hstep] at h
      obtain ⟨vals, hpasses, hstore⟩ := ih _ hshorter h rfl
      rcases decodeField_cases hstep with ⟨hskip, rfl⟩ | ⟨f, val, htake, rfl⟩
      · exact ⟨vals, .skip hskip hpasses, hstore⟩
      · exact ⟨(f, val) :: vals, .take htake hpasses, hstore⟩

/-- The loop succeeds on what it passes through. -/
theorem decodeLoop_iff {out' : Dict Bytes Value} :
    decodeLoop s i data out = .ok out' ↔ ∃ vals, Passes s data vals ∧ out' = store out vals := by
  constructor
  · exact passes_of_decodeLoop
  · rintro ⟨vals, hpasses, rfl⟩
    exact decodeLoop_of_passes hpasses

theorem decodeProto_iff {body : Bytes} :
    decodeProto s body = .ok out ↔ ∃ vals, Passes s body vals ∧ out = store .empty vals :=
  decodeLoop_iff

/-! ## One record -/

theorem Skips.unique {n n' : Nat} (h : Skips s data n) (h' : Skips s data n') : n = n' := by
  obtain ⟨key, k, skip, hkey, -, hskip, rfl⟩ := h
  obtain ⟨key', k', skip', hkey', -, hskip', rfl⟩ := h'
  cases hkey.symm.trans hkey'
  cases hskip.symm.trans hskip'
  rfl

theorem Skips.not_takes {f : SchemaField} {val : Value} {n n' : Nat} (h : Skips s data n) :
    ¬Takes s data f val n' := by
  obtain ⟨key, k, skip, hkey, hfield, -⟩ := h
  rintro ⟨key', k', consumed, hkey', hfield', -⟩
  cases hkey.symm.trans hkey'
  cases hfield.symm.trans hfield'

theorem Takes.unique {f f' : SchemaField} {val val' : Value} {n n' : Nat}
    (h : Takes s data f val n) (h' : Takes s data f' val' n') : f = f' ∧ val = val' ∧ n = n' := by
  obtain ⟨key, k, consumed, hkey, hfield, hval, rfl⟩ := h
  obtain ⟨key', k', consumed', hkey', hfield', hval', rfl⟩ := h'
  cases hkey.symm.trans hkey'
  cases hfield.symm.trans hfield'
  cases hval.symm.trans hval'
  exact ⟨rfl, rfl, rfl⟩

/-! A record ends inside the data. -/

theorem Skips.le {n : Nat} (h : Skips s data n) : n ≤ data.length := by
  obtain ⟨key, k, skip, hkey, -, hskip, rfl⟩ := h
  obtain ⟨w, hw⟩ := skipField_eq_ok_iff.mp hskip
  have hk := (readVarint_bounds hkey).2
  have hle := readValue_bounds hw
  rw [List.length_drop] at hle
  omega

theorem Takes.le {f : SchemaField} {val : Value} {n : Nat} (h : Takes s data f val n) :
    n ≤ data.length := by
  obtain ⟨key, k, consumed, hkey, -, hval, rfl⟩ := h
  obtain ⟨type, w, -, hw, -⟩ := decodeValue_eq_ok_iff.mp hval
  have hk := (readVarint_bounds hkey).2
  have hle := readValue_bounds hw
  rw [List.length_drop] at hle
  omega

/-! ## Concatenations -/

theorem readVarint_drop_append {p : UInt64 × Nat} (h : readVarint data = some p) (rest : Bytes) :
    readVarint (data ++ rest) = some p ∧ (data ++ rest).drop p.2 = data.drop p.2 ++ rest :=
  ⟨readVarint_append h rest, List.drop_append_of_le_length (readVarint_bounds h).2⟩

theorem skipField_append {wt n : Nat} (h : skipField data wt = .ok n) (rest : Bytes) :
    skipField (data ++ rest) wt = .ok n := by
  obtain ⟨w, hw⟩ := skipField_eq_ok_iff.mp h
  exact skipField_eq_ok_iff.mpr ⟨w, readValue_append hw rest⟩

theorem decodeValue_append {typ : Bytes} {wt : Nat} {p : Value × Nat}
    (h : decodeValue data typ wt = .ok p) (rest : Bytes) :
    decodeValue (data ++ rest) typ wt = .ok p := by
  obtain ⟨type, w, htype, hw, hval⟩ := decodeValue_eq_ok_iff.mp h
  exact decodeValue_eq_ok_iff.mpr ⟨type, w, htype, readValue_append hw rest, hval⟩

theorem Skips.append {n : Nat} (h : Skips s data n) (rest : Bytes) : Skips s (data ++ rest) n := by
  obtain ⟨key, k, skip, hkey, hfield, hskip, hn⟩ := h
  obtain ⟨hsame, hdrop⟩ := readVarint_drop_append hkey rest
  exact ⟨key, k, skip, hsame, hfield, hdrop ▸ skipField_append hskip rest, hn⟩

theorem Takes.append {f : SchemaField} {val : Value} {n : Nat} (h : Takes s data f val n)
    (rest : Bytes) : Takes s (data ++ rest) f val n := by
  obtain ⟨key, k, consumed, hkey, hfield, hval, hn⟩ := h
  obtain ⟨hsame, hdrop⟩ := readVarint_drop_append hkey rest
  exact ⟨key, k, consumed, hsame, hfield, hdrop ▸ decodeValue_append hval rest, hn⟩

theorem Passes.append {a b : Bytes} {va vb : List (SchemaField × Value)} (ha : Passes s a va)
    (hb : Passes s b vb) : Passes s (a ++ b) (va ++ vb) := by
  induction ha with
  | done => exact hb
  | skip h rest ih =>
    refine .skip (h.append b) ?_
    rw [List.drop_append_of_le_length h.le]
    exact ih
  | take h rest ih =>
    refine .take (h.append b) ?_
    rw [List.drop_append_of_le_length h.le]
    exact ih

/-- Behind what is passed, the rest of a body is passed too. -/
theorem Passes.of_append {a b : Bytes} {va vals : List (SchemaField × Value)} (ha : Passes s a va)
    (h : Passes s (a ++ b) vals) : ∃ vb, Passes s b vb ∧ vals = va ++ vb := by
  induction ha generalizing vals with
  | done => exact ⟨vals, h, rfl⟩
  | @skip data n va hskip rest ih =>
    have hsame := hskip.append b
    generalize hab : data ++ b = ab at h hsame
    cases h with
    | done => exact absurd (List.append_eq_nil_iff.mp hab).1 hskip.ne_nil
    | skip hskip' rest' =>
      obtain rfl := hsame.unique hskip'
      subst hab
      rw [List.drop_append_of_le_length hskip.le] at rest'
      exact ih rest'
    | take htake' rest' => exact absurd htake' hsame.not_takes
  | @take data f val n va htake rest ih =>
    have hsame := htake.append b
    generalize hab : data ++ b = ab at h hsame
    cases h with
    | done => exact absurd (List.append_eq_nil_iff.mp hab).1 htake.ne_nil
    | skip hskip' rest' => exact absurd hsame hskip'.not_takes
    | take htake' rest' =>
      obtain ⟨rfl, rfl, rfl⟩ := hsame.unique htake'
      subst hab
      rw [List.drop_append_of_le_length htake.le] at rest'
      obtain ⟨vb, hvb, rfl⟩ := ih rest'
      exact ⟨vb, hvb, rfl⟩

/-! ## What a field has in the end -/

/-- The elements of a list. -/
def Value.elements : Value → List Value
  | list l => l
  | _ => []

/-- What a field has after two parts of a body. -/
def merged (repeated : Bool) : Option Value → Option Value → Option Value
  | none, b => b
  | some a, none => some a
  | some a, some b => some (if repeated then .list (a.elements ++ b.elements) else b)

theorem listAt_eq (out : Dict Bytes Value) (name : Bytes) :
    listAt out name = ((out.get? name).map Value.elements).getD [] := by
  unfold listAt
  cases out.get? name with
  | none => rfl
  | some v => cases v <;> rfl

/-- One more value. -/
theorem get?_addValue (out : Dict Bytes Value) (f : SchemaField) (val : Value) :
    (addValue out f val).get? f.name =
      merged f.repeated (out.get? f.name) (some (if f.repeated then .list [val] else val)) := by
  have hself (v : Value) : (out.set f.name v).get? f.name = some v := by
    rw [Dict.get?_set, if_pos rfl]
  rw [addValue, listAt_eq]
  cases f.repeated with
  | true =>
    rw [if_pos rfl, if_pos rfl, hself]
    cases out.get? f.name <;> rfl
  | false =>
    rw [if_neg Bool.false_ne_true, if_neg Bool.false_ne_true, hself]
    cases out.get? f.name <;> rfl

theorem merged_assoc (repeated : Bool) (a b c : Option Value) :
    merged repeated (merged repeated a b) c = merged repeated a (merged repeated b c) := by
  cases a with
  | none => rfl
  | some a =>
    cases b with
    | none => rfl
    | some b =>
      cases c with
      | none => rfl
      | some c =>
        cases repeated with
        | true => simp [merged, Value.elements]
        | false => rfl

theorem Passes.mem_fields {vals : List (SchemaField × Value)} (h : Passes s data vals) :
    ∀ p ∈ vals, p.1 ∈ s.fields := by
  induction h with
  | done => exact fun p hp => absurd hp List.not_mem_nil
  | skip h rest ih => exact ih
  | take h rest ih =>
    obtain ⟨key, k, consumed, -, hfield, -⟩ := h
    obtain ⟨idx, -, hidx⟩ := Option.bind_eq_some_iff.mp hfield
    exact List.forall_mem_cons.mpr ⟨List.mem_of_getElem? hidx, ih⟩

/-- The values are added to what a field has. -/
theorem get?_store (hnames : (s.fields.map SchemaField.name).Nodup) {f : SchemaField}
    (hf : f ∈ s.fields) {vals : List (SchemaField × Value)} (hvals : ∀ p ∈ vals, p.1 ∈ s.fields)
    (out : Dict Bytes Value) :
    (store out vals).get? f.name =
      merged f.repeated (out.get? f.name) ((store .empty vals).get? f.name) := by
  induction vals using List.reverseRecOn with
  | nil => cases hget : out.get? f.name <;> simp [store, merged, hget]
  | append_singleton vals p ih =>
    have hlast (out : Dict Bytes Value) :
        store out (vals ++ [p]) = addValue (store out vals) p.1 p.2 := by
      rw [store, List.foldl_append]
      rfl
    have ih := ih fun q hq => hvals q (List.mem_append_left _ hq)
    rw [hlast, hlast]
    by_cases hname : f.name = p.1.name
    · obtain rfl := List.inj_on_of_nodup_map hnames hf
        (hvals p (List.mem_append_right _ List.mem_cons_self)) hname
      rw [get?_addValue, get?_addValue, ih, merged_assoc]
    · rw [Column.get?_addValue_of_ne hname, Column.get?_addValue_of_ne hname, ih]

/-- Nothing is stored under another name. -/
theorem get?_store_of_notMem {vals : List (SchemaField × Value)}
    (hvals : ∀ p ∈ vals, p.1 ∈ s.fields) {name : Bytes}
    (hname : name ∉ s.fields.map SchemaField.name) (out : Dict Bytes Value) :
    (store out vals).get? name = out.get? name := by
  induction vals generalizing out with
  | nil => rfl
  | cons p vals ih =>
    rw [List.forall_mem_cons] at hvals
    have hne : name ≠ p.1.name := fun heq => hname (List.mem_map.mpr ⟨p.1, hvals.1, heq.symm⟩)
    exact (ih hvals.2 _).trans (Column.get?_addValue_of_ne hne)

/-! ## What the values are -/

/-- A value that a field of a type takes out of at most `bound` bytes. -/
def Value.ReadFrom (bound : Nat) (type : FieldType) (v : Value) : Prop :=
  ∃ w, valueOf type w = some v ∧ ∀ payload, w = .len payload → payload.length ≤ bound

/-- What a map has for a field: such a value, or a list of at least one. -/
def SchemaField.Has (bound : Nat) (f : SchemaField) (v : Value) : Prop :=
  ∃ type, fieldType f.type = some type ∧
    if f.repeated then ∃ l, v = .list l ∧ l ≠ [] ∧ ∀ elem ∈ l, elem.ReadFrom bound type
    else v.ReadFrom bound type

theorem Takes.readFrom {f : SchemaField} {val : Value} {n : Nat} (h : Takes s data f val n) :
    ∃ type, fieldType f.type = some type ∧ val.ReadFrom data.length type := by
  obtain ⟨key, k, consumed, -, -, hval, -⟩ := h
  obtain ⟨type, w, htype, hw, hvalue⟩ := decodeValue_eq_ok_iff.mp hval
  refine ⟨type, htype, w, hvalue, ?_⟩
  rintro payload rfl
  have hwt := readValue_wireType hw
  unfold readValue at hw
  rw [← hwt] at hw
  obtain ⟨p, -, hp⟩ := Option.bind_eq_some_iff.mp hw
  obtain ⟨hroom, heq⟩ := Option.ite_none_right_eq_some.mp hp
  cases heq
  simp only [List.length_take, List.length_drop]
  omega

theorem Value.ReadFrom.mono {bound bound' : Nat} {type : FieldType} {v : Value}
    (h : v.ReadFrom bound type) (hle : bound ≤ bound') : v.ReadFrom bound' type := by
  obtain ⟨w, hw, hlen⟩ := h
  exact ⟨w, hw, fun payload heq => Nat.le_trans (hlen payload heq) hle⟩

theorem Passes.readFrom {vals : List (SchemaField × Value)} (h : Passes s data vals) :
    ∀ p ∈ vals, ∃ type, fieldType p.1.type = some type ∧ p.2.ReadFrom data.length type := by
  have hmono {data : Bytes} {n : Nat} {p : SchemaField × Value}
      (h : ∃ type, fieldType p.1.type = some type ∧ p.2.ReadFrom (data.drop n).length type) :
      ∃ type, fieldType p.1.type = some type ∧ p.2.ReadFrom data.length type := by
    obtain ⟨type, htype, hread⟩ := h
    exact ⟨type, htype, hread.mono (by rw [List.length_drop]; omega)⟩
  induction h with
  | done => exact fun p hp => absurd hp List.not_mem_nil
  | skip h rest ih => exact fun p hp => hmono (ih p hp)
  | take h rest ih => exact List.forall_mem_cons.mpr ⟨h.readFrom, fun p hp => hmono (ih p hp)⟩

/-- Everything in a map belongs to a field. -/
def Owned (s : Schema) (bound : Nat) (out : Dict Bytes Value) : Prop :=
  ∀ name v, out.get? name = some v → ∃ f ∈ s.fields, f.name = name ∧ f.Has bound v

theorem Owned.addValue (hnames : (s.fields.map SchemaField.name).Nodup) {bound : Nat}
    (h : Owned s bound out) {f : SchemaField} (hf : f ∈ s.fields) {type : FieldType}
    (htype : fieldType f.type = some type) {val : Value} (hval : val.ReadFrom bound type) :
    Owned s bound (addValue out f val) := by
  intro name v hv
  by_cases hname : name = f.name
  · subst hname
    refine ⟨f, hf, rfl, type, htype, ?_⟩
    unfold Bridge.addValue at hv
    by_cases hrep : f.repeated = true
    · rw [if_pos hrep, Dict.get?_set, if_pos rfl] at hv
      cases hv
      have hlist : ∀ elem ∈ listAt out f.name, elem.ReadFrom bound type := by
        intro elem helem
        unfold listAt at helem
        split at helem
        · rename_i cur hcur
          obtain ⟨g, hg, hname, type', htype', hhas⟩ := h _ _ hcur
          obtain rfl := List.inj_on_of_nodup_map hnames hg hf hname
          cases htype.symm.trans htype'
          rw [if_pos hrep] at hhas
          obtain ⟨l, heq, -, hall⟩ := hhas
          cases heq
          exact hall elem helem
        · cases helem
      rw [if_pos hrep]
      refine ⟨_, rfl, List.append_ne_nil_of_right_ne_nil _ (List.cons_ne_nil _ _), ?_⟩
      intro elem helem
      rcases List.mem_append.mp helem with hold | hnew
      · exact hlist elem hold
      · rw [List.mem_singleton.mp hnew]
        exact hval
    · rw [if_neg hrep, Dict.get?_set, if_pos rfl] at hv
      cases hv
      rw [if_neg hrep]
      exact hval
  · rw [Column.get?_addValue_of_ne hname] at hv
    exact h name v hv

theorem owned_of_decodeProto (hnames : (s.fields.map SchemaField.name).Nodup) {body : Bytes}
    (h : decodeProto s body = .ok out) : Owned s body.length out := by
  obtain ⟨vals, hpasses, rfl⟩ := decodeProto_iff.mp h
  have hread := hpasses.readFrom
  have hfields := hpasses.mem_fields
  have hstore : ∀ out, Owned s body.length out → Owned s body.length (store out vals) := by
    clear hpasses h
    induction vals with
    | nil => exact fun out h => h
    | cons p vals ih =>
      rw [List.forall_mem_cons] at hread hfields
      intro out h
      obtain ⟨type, htype, hval⟩ := hread.1
      exact ih hread.2 hfields.2 _ (h.addValue hnames hfields.1 htype hval)
  exact hstore _ fun name v hv => by cases hv

end Mpubsub.Bridge
