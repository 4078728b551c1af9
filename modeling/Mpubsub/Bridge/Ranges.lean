import Mpubsub.Bridge.Columns

/-!
# What `EncodeProto` accepts

`appendValue` looks at the kind of a value, and for an unsigned type at the sign
(`Value.Accepted`); a number that is outside the range of the type passes (`Value.Slips`). A value
that passes and is not outside is representable (`representable_iff`), and a map of such values
is written and read back (`encodeProto_representable`).
-/

namespace Mpubsub.Bridge

open Mpubsub.Lib Mpubsub.Lib.Ieee754
open Mpubsub.Proto (FieldType)

/-- A value without floating-point numbers. The length of a string is an `int`. -/
inductive Value.Plain : Value → Prop
  | bool (b : Bool) : Plain (.bool b)
  | int (n : Int64) : Plain (.int n)
  | int32 (n : Int32) : Plain (.int32 n)
  | int64 (n : Int64) : Plain (.int64 n)
  | uint32 (n : UInt32) : Plain (.uint32 n)
  | uint64 (n : UInt64) : Plain (.uint64 n)
  | string {s : Bytes} (h : s.length < 2 ^ 63) : Plain (.string s)
  | bytes {b : Bytes} (h : b.length < 2 ^ 63) : Plain (.bytes b)
  | list {l : List Value} (h : ∀ elem ∈ l, elem.Plain) : Plain (.list l)

/-- A value that the type has: of its kind, in its range, and for a `float` exact. -/
def Value.Representable : FieldType → Value → Prop
  | .float, v => ∃ n, v.integer? = some n ∧ binary32.Exact n.natAbs
  | type, v => v.InRange type

/-- What `appendValue` takes. -/
def Value.Accepted : FieldType → Value → Prop
  | .bool, v => ∃ b, v = .bool b
  | .int32, v | .int64, v | .sint32, v | .sint64, v | .float, v => ∃ n, v.integer? = some n
  | .uint32, v | .uint64, v => ∃ n, v.integer? = some n ∧ 0 ≤ n
  | .string, v => ∃ s, v = .string s
  | .bytes, v => ∃ b, v = .bytes b

/-- A number that the type does not have, of a kind and a sign that it does. -/
def Value.Slips : FieldType → Value → Prop
  | .int32, v | .sint32, v => ∃ n, v.integer? = some n ∧ (n < -2 ^ 31 ∨ 2 ^ 31 ≤ n)
  | .int64, v | .sint64, v => ∃ n, v.integer? = some n ∧ 2 ^ 63 ≤ n
  | .uint32, v => ∃ n, v.integer? = some n ∧ 2 ^ 32 ≤ n
  | .float, v => ∃ n, v.integer? = some n ∧ ¬binary32.Exact n.natAbs
  | _, _ => False

/-- The value of a field, or each element of its list. -/
def SchemaField.Every (P : FieldType → Value → Prop) (f : SchemaField) (v : Value) : Prop :=
  ∃ type, fieldType f.type = some type ∧
    if f.repeated then ∃ l, v = .list l ∧ ∀ elem ∈ l, P type elem else P type v

/-! ## Values -/

section

variable {conv : FloatConversion} {v : Value} {type : FieldType}

theorem Value.Plain.integer_range (h : v.Plain) {n : Int} (hn : v.integer? = some n) :
    -2 ^ 63 ≤ n ∧ n < 2 ^ 64 := by
  cases h with
  | int n | int64 n =>
    cases hn
    have := n.le_toInt
    have := n.toInt_lt
    omega
  | int32 n =>
    cases hn
    have := n.le_toInt
    have := n.toInt_lt
    omega
  | uint32 n =>
    cases hn
    have := n.toNat_lt
    omega
  | uint64 n =>
    cases hn
    have := n.toNat_lt
    omega
  | bool b | string h | bytes h | list h => cases hn

theorem Value.Plain.unsigned_eq (h : v.Plain) : v.unsigned? = v.integer? := by
  cases h <;> rfl

/-- What passes and does not slip is representable. -/
theorem representable_iff (h : v.Plain) (hacc : v.Accepted type) :
    v.Representable type ↔ ¬v.Slips type := by
  have hiff {P Q : Int → Prop} {n : Int} (hn : v.integer? = some n) (hPQ : P n ↔ ¬Q n) :
      (∃ n, v.integer? = some n ∧ P n) ↔ ¬∃ n, v.integer? = some n ∧ Q n := by
    simp only [hn, Option.some.injEq, exists_eq_left']
    exact hPQ
  cases type with
  | bool => exact iff_of_true hacc not_false
  | int32 | sint32 =>
    obtain ⟨n, hn⟩ := hacc
    exact hiff hn (by omega)
  | int64 | sint64 =>
    obtain ⟨n, hn⟩ := hacc
    have := (h.integer_range hn).1
    exact hiff hn (by omega)
  | uint32 =>
    obtain ⟨n, hn, hpos⟩ := hacc
    simp only [Value.Representable, Value.InRange, h.unsigned_eq]
    exact hiff hn (by omega)
  | uint64 =>
    obtain ⟨n, hn, hpos⟩ := hacc
    exact iff_of_true ⟨n, h.unsigned_eq.trans hn, hpos, (h.integer_range hn).2⟩ not_false
  | float =>
    obtain ⟨n, hn⟩ := hacc
    exact hiff hn not_not.symm
  | string =>
    obtain ⟨s, rfl⟩ := hacc
    cases h with
    | string h => exact iff_of_true ⟨s, rfl, h⟩ not_false
  | bytes =>
    obtain ⟨b, rfl⟩ := hacc
    cases h with
    | bytes h => exact iff_of_true ⟨b, rfl, h⟩ not_false

/-- What is representable passes. -/
theorem Value.Representable.accepted (h : v.Representable type) : v.Accepted type := by
  cases type with
  | bool => exact h
  | int32 | int64 | sint32 | sint64 | float =>
    obtain ⟨n, hn, -⟩ := h
    exact ⟨n, hn⟩
  | uint32 | uint64 =>
    obtain ⟨n, hn, hlow, -⟩ := h
    refine ⟨n, ?_, hlow⟩
    cases v with
    | float32 => cases hn
    | _ => exact hn
  | string =>
    obtain ⟨s, hs, -⟩ := h
    exact ⟨s, hs⟩
  | bytes =>
    obtain ⟨b, hb, -⟩ := h
    exact ⟨b, hb⟩

theorem toInt64_ok_iff (h : v.Plain) :
    (∃ n, toInt64 conv v = .ok n) ↔ ∃ n, v.integer? = some n := by
  cases h <;> simp [toInt64, Value.integer?]

theorem toUint64_ok_iff (h : v.Plain) :
    (∃ n, toUint64 conv v = .ok n) ↔ ∃ n, v.integer? = some n ∧ 0 ≤ n := by
  cases h with
  | int n | int64 n =>
    by_cases hneg : n < 0
    · have := Int64.lt_iff_toInt_lt.mp hneg
      simpa [toUint64, Value.integer?, hneg] using this
    · have := Int64.le_iff_toInt_le.mp (Int64.not_lt.mp hneg)
      simpa [toUint64, Value.integer?, hneg] using this
  | int32 n =>
    by_cases hneg : n < 0
    · have := Int32.lt_iff_toInt_lt.mp hneg
      simpa [toUint64, Value.integer?, hneg] using this
    · have := Int32.le_iff_toInt_le.mp (Int32.not_lt.mp hneg)
      simpa [toUint64, Value.integer?, hneg] using this
  | uint32 n | uint64 n => simp [toUint64, Value.integer?]
  | bool b | string h | bytes h | list h => simp [toUint64, Value.integer?]

theorem toFloat64_of_integer (h : v.Plain) {n : Int} (hn : v.integer? = some n) :
    toFloat64 v = .ok (floatOfInt n) := by
  cases h with
  | int n | int32 n | int64 n | uint32 n | uint64 n =>
    cases hn
    rfl
  | bool b | string h | bytes h | list h => cases hn

theorem toFloat64_ok_iff (h : v.Plain) :
    (∃ x, toFloat64 v = .ok x) ↔ ∃ n, v.integer? = some n := by
  cases h <;> simp [toFloat64, Value.integer?]

theorem appendValue_ok_iff (h : v.Plain) (buf : Bytes) {typ : Bytes}
    (htype : fieldType typ = some type) :
    (∃ b, appendValue conv buf typ v = .ok b) ↔ v.Accepted type := by
  unfold appendValue
  rw [htype]
  cases type with
  | bool => cases v <;> simp [Value.Accepted]
  | int32 | int64 | sint32 | sint64 =>
    exact exists_bind_pure_eq_ok_iff.trans (toInt64_ok_iff h)
  | uint32 | uint64 => exact exists_bind_pure_eq_ok_iff.trans (toUint64_ok_iff h)
  | float => exact exists_bind_pure_eq_ok_iff.trans (toFloat64_ok_iff h)
  | string => cases v <;> simp [Value.Accepted]
  | bytes => cases v <;> simp [Value.Accepted]

end

/-! ## Maps -/

theorem exists_inField_eq_ok_iff {α : Type} {name : Bytes} {x : Except ProtoError α} :
    (∃ b, inField name x = .ok b) ↔ ∃ b, x = .ok b := by
  cases x <;> simp [inField]

section

variable {s : Schema} {conv : FloatConversion} {values : Dict Bytes Value}

theorem encodeField_ok_iff (hplain : ∀ name v, values.get? name = some v → v.Plain)
    (f : SchemaField) (buf : Bytes) :
    (∃ b, encodeField conv values buf f = .ok b) ↔
      ∀ v, values.get? f.name = some v → f.Every Value.Accepted v := by
  unfold encodeField
  cases hv : values.get? f.name with
  | none => exact iff_of_true ⟨buf, rfl⟩ fun v h => by cases h
  | some v =>
    have hplain := hplain _ _ hv
    simp only [Option.some.injEq, forall_eq']
    cases htype : fieldType f.type with
    | none =>
      have hwt : wireTypeFor f.type = .error (.noWireType f.type) := by
        unfold wireTypeFor
        rw [htype]
      rw [hwt]
      refine iff_of_false ?_ ?_
      · rintro ⟨b, hb⟩
        cases hb
      · rintro ⟨type, h, -⟩
        cases htype.symm.trans h
    | some type =>
      rw [wireTypeFor_eq htype type.default]
      simp only [ok_bind, SchemaField.Every, htype, Option.some.injEq, exists_eq_left']
      by_cases hrep : f.repeated = true
      · simp only [if_pos hrep]
        cases hplain with
        | list helems =>
          refine (foldlM_eq_ok_iff (P := Value.Accepted type) ?_ buf).trans ?_
          · exact fun elem helem buf =>
              exists_inField_eq_ok_iff.trans (appendValue_ok_iff (helems elem helem) _ htype)
          · simp
        | _ =>
          refine iff_of_false ?_ ?_
          · rintro ⟨b, hb⟩
            cases hb
          · rintro ⟨l, hl, -⟩
            cases hl
      · simp only [if_neg hrep]
        exact exists_inField_eq_ok_iff.trans (appendValue_ok_iff hplain _ htype)

/-- `EncodeProto` succeeds exactly where every value passes. -/
theorem encodeProto_ok_iff (hplain : ∀ name v, values.get? name = some v → v.Plain) :
    (∃ body, encodeProto conv s values = .ok body) ↔
      ∀ f ∈ s.fields, ∀ v, values.get? f.name = some v → f.Every Value.Accepted v :=
  foldlM_eq_ok_iff (fun f _ buf => encodeField_ok_iff hplain f buf) []

end

/-! ## Integers for a `float` -/

/-- A number as a `float64`. -/
def Value.asFloat (v : Value) : Value :=
  match toFloat64 v with
  | .ok x => .float64 x
  | .error _ => v

/-- The same for a `float` only. -/
def Value.floatedFor (type : FieldType) (v : Value) : Value :=
  if type = .float then v.asFloat else v

/-- The value of a field with its numbers as `float64`s where the type is `float`. -/
def SchemaField.floated (f : SchemaField) (v : Value) : Value :=
  match fieldType f.type with
  | none => v
  | some type =>
    if f.repeated then
      match v with
      | .list l => .list (l.map (Value.floatedFor type))
      | v => v
    else v.floatedFor type

/-- The field with a name. -/
def Schema.fieldNamed (s : Schema) (name : Bytes) : Option SchemaField :=
  (s.byName.get? name).bind fun idx => s.fields[idx]?

/-- The map with the numbers for every `float` as `float64`s. -/
def Schema.floated (s : Schema) (values : Dict Bytes Value) : Dict Bytes Value :=
  values.mapVal fun name v =>
    match s.fieldNamed name with
    | some f => f.floated v
    | none => v

theorem toFloat64_asFloat (v : Value) : toFloat64 v.asFloat = toFloat64 v := by
  cases v <;> rfl

theorem fieldNamed_of_mem {s : Schema} (hs : s.Valid) {f : SchemaField} (hf : f ∈ s.fields) :
    s.fieldNamed f.name = some f := by
  obtain ⟨idx, hidx⟩ := List.mem_iff_getElem?.mp hf
  rw [Schema.fieldNamed, (hs.byName f.name idx).mpr ⟨f, hidx, rfl⟩]
  exact hidx

section

variable {s : Schema} {values : Dict Bytes Value} {f : SchemaField}

theorem get?_floated (hs : s.Valid) (hf : f ∈ s.fields) :
    (s.floated values).get? f.name = (values.get? f.name).map f.floated := by
  rw [Schema.floated, Dict.get?_mapVal]
  simp only [fieldNamed_of_mem hs hf]

variable {conv : FloatConversion}

theorem appendValue_floatedFor {typ : Bytes} {type : FieldType} (h : fieldType typ = some type)
    (buf : Bytes) (v : Value) :
    appendValue conv buf typ (v.floatedFor type) = appendValue conv buf typ v := by
  unfold Value.floatedFor
  split
  · rename_i hfloat
    subst hfloat
    simp only [appendValue, h, toFloat64_asFloat]
  · rfl

/-- The map is written the same way. -/
theorem encodeProto_floated (hs : s.Valid) :
    encodeProto conv s (s.floated values) = encodeProto conv s values := by
  refine foldlM_congr (fun f hf buf => ?_) []
  unfold encodeField
  rw [get?_floated hs hf]
  cases values.get? f.name with
  | none => rfl
  | some v =>
    obtain ⟨type, htype⟩ := Option.ne_none_iff_exists'.mp (hs.accepted.each f hf).type
    simp only [Option.map_some, SchemaField.floated, htype]
    by_cases hrep : f.repeated = true
    · simp only [if_pos hrep]
      cases v with
      | list l => simp only [List.foldlM_map, appendValue_floatedFor htype]
      | _ => rfl
    · simp only [if_neg hrep, appendValue_floatedFor htype]

end

/-! ## What is read back -/

/-- The same number, or the same value. -/
def Value.Same (v w : Value) : Prop :=
  w = v ∨ ∃ n, v.integer? = some n ∧ w.integer? = some n

/-- What a map has for a field is what another has: an empty list is nothing. -/
def SchemaField.ReadBack (f : SchemaField) : Option Value → Option Value → Prop
  | none, w => w = none
  | some v, w =>
    if f.repeated then
      ∃ l, v = .list l ∧
        (l = [] ∧ w = none ∨ ∃ l', w = some (.list l') ∧ List.Forall₂ Value.Same l l')
    else ∃ v', w = some v' ∧ v.Same v'

theorem toNat_floatOfInt (n : Int) : (floatOfInt n).toNat = binary64.ofInt n :=
  (UInt64.toNat_ofNat' ..).trans (Nat.mod_eq_of_lt (binary64.ofInt_lt n))

section

variable {v : Value} {type : FieldType}

/-- An integer of 64 bits that is exact in a `float` is one of the widened ones. -/
theorem floatOfInt_of_exact {n : Int} (hlow : -2 ^ 63 ≤ n) (hhigh : n < 2 ^ 64)
    (hexact : binary32.Exact n.natAbs) :
    binary64.toInt? (floatOfInt n).toNat = some n ∧ ∃ bits, floatOfInt n = widen bits := by
  have hsmall : n.natAbs < 2 ^ 65 := by omega
  constructor
  · rw [toNat_floatOfInt]
    exact Format.toInt?_ofInt (hexact.embeds binary32_embeds)
      (Format.mul_scale_lt hsmall (by decide)) (by decide)
  · refine ⟨UInt32.ofNat (binary32.ofInt n), UInt64.toNat_inj.mp ?_⟩
    rw [toNat_floatOfInt, toNat_widen, UInt32.toNat_ofNat',
      Nat.mod_eq_of_lt (show binary32.ofInt n < 2 ^ 32 from binary32.ofInt_lt n),
      Format.convertBits_ofInt binary32_embeds hexact (Format.mul_scale_lt hsmall (by decide))]

/-- A representable value is in range, and is read back. -/
theorem representable_floated (h : v.Plain) (hrep : v.Representable type) :
    (v.floatedFor type).InRange type ∧ v.Same ((v.floatedFor type).decoded type) := by
  cases type with
  | bool | string | bytes => exact ⟨hrep, .inl rfl⟩
  | int32 | int64 | sint32 | sint64 =>
    obtain ⟨n, hn, hlow, hhigh⟩ := hrep
    refine ⟨⟨n, hn, hlow, hhigh⟩, .inr ⟨n, hn, ?_⟩⟩
    show some (Int64.ofInt (v.integer?.getD 0)).toInt = some n
    rw [hn, Option.getD_some, Int64.toInt_ofInt_of_le (by simp; omega) (by simp; omega)]
  | uint32 | uint64 =>
    obtain ⟨n, hn, hlow, hhigh⟩ := hrep
    refine ⟨⟨n, hn, hlow, hhigh⟩, .inr ⟨n, h.unsigned_eq ▸ hn, ?_⟩⟩
    show some ((UInt64.ofNat (v.unsigned?.getD 0).toNat).toNat : Int) = some n
    rw [hn, Option.getD_some, UInt64.toNat_ofNat', Nat.mod_eq_of_lt (by omega),
      Int.toNat_of_nonneg hlow]
  | float =>
    obtain ⟨n, hn, hexact⟩ := hrep
    obtain ⟨hlow, hhigh⟩ := h.integer_range hn
    obtain ⟨hint, bits, hbits⟩ := floatOfInt_of_exact hlow hhigh hexact
    have hfloat : v.floatedFor .float = .float64 (floatOfInt n) := by
      rw [Value.floatedFor, if_pos rfl, Value.asFloat, toFloat64_of_integer h hn]
    rw [hfloat]
    exact ⟨⟨bits, congrArg some hbits⟩, .inr ⟨n, hn, hint⟩⟩

end

/-- A map of representable values is written and read back. -/
theorem encodeProto_representable {s : Schema} (conv : FloatConversion) (hs : s.Valid)
    {values : Dict Bytes Value} (hplain : ∀ name v, values.get? name = some v → v.Plain)
    (h : ∀ f ∈ s.fields, ∀ v, values.get? f.name = some v → f.Every Value.Representable v) :
    ∃ body out, encodeProto conv s values = .ok body ∧ decodeProto s body = .ok out ∧
      ∀ f ∈ s.fields, f.ReadBack (values.get? f.name) (out.get? f.name) := by
  have hvalue : ∀ f ∈ s.fields, ∀ v, values.get? f.name = some v →
      f.InRange (f.floated v) ∧ f.ReadBack (some v) (f.decoded (f.floated v)) := by
    intro f hf v hv
    obtain ⟨type, htype, hevery⟩ := h f hf v hv
    have hplain := hplain _ _ hv
    simp only [SchemaField.InRange, SchemaField.floated, SchemaField.decoded,
      SchemaField.ReadBack, htype, Option.some.injEq, exists_eq_left']
    by_cases hrep : f.repeated = true
    · simp only [if_pos hrep] at hevery ⊢
      obtain ⟨l, rfl, hl⟩ := hevery
      cases hplain with
      | list helems =>
        refine ⟨⟨_, rfl, fun elem helem => ?_⟩, l, rfl, ?_⟩
        · obtain ⟨elem', helem', rfl⟩ := List.mem_map.mp helem
          exact (representable_floated (helems _ helem') (hl _ helem')).1
        · cases l with
          | nil => exact .inl ⟨rfl, rfl⟩
          | cons elem l =>
            refine .inr ⟨_, rfl, ?_⟩
            rw [List.map_map, List.forall₂_map_right_iff, List.forall₂_same]
            exact fun elem helem => (representable_floated (helems _ helem) (hl _ helem)).2
    · simp only [if_neg hrep] at hevery ⊢
      obtain ⟨hrange, hsame⟩ := representable_floated hplain hevery
      exact ⟨hrange, _, rfl, hsame⟩
  have hrange : ∀ f ∈ s.fields, ∀ v, (s.floated values).get? f.name = some v → f.InRange v := by
    intro f hf v hv
    rw [get?_floated hs hf] at hv
    obtain ⟨v', hv', rfl⟩ := Option.map_eq_some_iff.mp hv
    exact (hvalue f hf v' hv').1
  obtain ⟨body, out, hencode, hdecode, hout, -⟩ := decodeProto_encodeProto conv hs hrange
  refine ⟨body, out, (encodeProto_floated hs).symm.trans hencode, hdecode, fun f hf => ?_⟩
  rw [hout f hf, get?_floated hs hf]
  cases hv : values.get? f.name with
  | none => rfl
  | some v => exact (hvalue f hf v hv).2

end Mpubsub.Bridge
