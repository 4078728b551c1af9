import Mpubsub.Bridge.Records

/-!
# Bodies on the bridge

A body has, for each field of the schema in turn, the records of the values it has for the field
(`Column`). `DecodeProto` goes through it record by record (`decodeLoop_record`) and comes out
with the values of each field under its name (`decodeProto_columns`). `EncodeProto` writes such a
body for a map whose values are in range (`encodeProto_columns`).
-/

namespace Mpubsub.Bridge

open Mpubsub.Lib Mpubsub.Lib.Protobuf
open Mpubsub.Proto (FieldType)

variable {s : Schema} {i : Nat} {data : Bytes} {out : Dict Bytes Value}

/-! ## The loop -/

theorem decodeField_pos {out' : Dict Bytes Value} {n : Nat}
    (h : decodeField s i data out = .ok (out', n)) : 0 < n := by
  unfold decodeField at h
  split at h
  · cases h
  rename_i key n' hkey
  have hpos := (readVarint_bounds hkey).1
  simp only at h
  split at h
  · split at h
    · cases h
    · cases h
      exact Nat.lt_of_lt_of_le hpos (Nat.le_add_right _ _)
  · obtain ⟨⟨val, consumed⟩, -, h⟩ := bind_eq_ok.mp h
    cases h
    exact Nat.lt_of_lt_of_le hpos (Nat.le_add_right _ _)

theorem decodeFields_congr {fuel fuel' : Nat} (h : data.length ≤ fuel) (h' : data.length ≤ fuel') :
    decodeFields s fuel i data out = decodeFields s fuel' i data out := by
  induction fuel generalizing fuel' i data out with
  | zero =>
    obtain rfl := List.eq_nil_of_length_eq_zero (Nat.eq_zero_of_le_zero h)
    cases fuel' with
    | zero => rfl
    | succ fuel' => rw [decodeFields, decodeFields, if_pos rfl]
  | succ fuel ih =>
    cases fuel' with
    | zero =>
      obtain rfl := List.eq_nil_of_length_eq_zero (Nat.eq_zero_of_le_zero h')
      rw [decodeFields, decodeFields, if_pos rfl]
    | succ fuel' =>
      rw [decodeFields, decodeFields]
      by_cases hnil : data = []
      · rw [if_pos hnil, if_pos hnil]
      · rw [if_neg hnil, if_neg hnil]
        cases hstep : decodeField s i data out with
        | error err => rfl
        | ok step =>
          have hpos := decodeField_pos hstep
          have hdrop : (data.drop step.2).length < data.length := by
            have := List.length_pos_iff.mpr hnil
            rw [List.length_drop]
            omega
          exact ih (by omega) (by omega)

/-- The loop of `DecodeProto` with enough fuel. -/
def decodeLoop (s : Schema) (i : Nat) (data : Bytes) (out : Dict Bytes Value) :
    Except ProtoError (Dict Bytes Value) := decodeFields s data.length i data out

/-- An iteration of the loop. -/
theorem decodeLoop_step {out' : Dict Bytes Value} {n : Nat} (hnil : data ≠ [])
    (h : decodeField s i data out = .ok (out', n)) :
    decodeLoop s i data out = decodeLoop s (i + n) (data.drop n) out' := by
  obtain ⟨fuel, hfuel⟩ := Nat.exists_eq_add_of_le' (List.length_pos_iff.mpr hnil)
  have hpos := decodeField_pos h
  rw [decodeLoop, hfuel, decodeFields, if_neg hnil, h]
  exact decodeFields_congr (by rw [List.length_drop]; omega) (Nat.le_refl _)

/-! ## Records -/

theorem fieldWithTag_of_mem (hs : s.Valid) {f : SchemaField} (hf : f ∈ s.fields) :
    s.fieldWithTag f.tag = some f := by
  obtain ⟨idx, hidx⟩ := List.mem_iff_getElem?.mp hf
  rw [Schema.fieldWithTag, (hs.byTag f.tag idx).mpr ⟨f, hidx, rfl⟩]
  exact hidx

variable {f : SchemaField} {type : FieldType}

/-- An iteration takes a record of a field. -/
theorem decodeLoop_record (hs : s.Valid) (hf : f ∈ s.fields) (htype : fieldType f.type = some type)
    (x : type.Cpp) (hfits : (type.wireValue x).Fits) (rest : Bytes) :
    decodeLoop s i (record f.tag (type.wireValue x) ++ rest) out =
      decodeLoop s (i + (record f.tag (type.wireValue x)).length) rest
        (addValue out f (goValue type x)) := by
  have hsplit : record f.tag (type.wireValue x) ++ rest =
      varint (key f.tag (type.wireValue x).wireType) ++ ((type.wireValue x).encode ++ rest) := by
    rw [record, List.append_assoc]
  have hnil : record f.tag (type.wireValue x) ++ rest ≠ [] :=
    List.append_ne_nil_of_left_ne_nil (record_ne_nil _ _) _
  have hstep : decodeField s i (record f.tag (type.wireValue x) ++ rest) out =
      .ok (addValue out f (goValue type x), (record f.tag (type.wireValue x)).length) := by
    obtain ⟨k, hkey, htag, hwt⟩ := exists_key f.tag (type.wireValue x)
    have hread := readVarint_varint k ((type.wireValue x).encode ++ rest)
    rw [hkey] at hread
    have hdrop : (varint (Protobuf.key f.tag (type.wireValue x).wireType) ++
        ((type.wireValue x).encode ++ rest)).drop
          (varintSize (Protobuf.key f.tag (type.wireValue x).wireType)) =
        (type.wireValue x).encode ++ rest := List.drop_left' (length_varint _)
    rw [hsplit]
    unfold decodeField
    rw [hread]
    simp only [htag, hwt, fieldWithTag_of_mem hs hf, hdrop, decodeValue_encode htype x hfits]
    rw [length_record]
    rfl
  rw [decodeLoop_step hnil hstep, List.drop_left]

/-! ## Columns -/

/-- A field with the values that a body has for it. -/
structure Column where
  field : SchemaField
  type : FieldType
  values : List type.Cpp

namespace Column

/-- What a body of a schema has. -/
structure Ok (c : Column) : Prop where
  type : fieldType c.field.type = some c.type
  singular : c.field.repeated = false → c.values.length ≤ 1
  fits : ∀ x ∈ c.values, (c.type.wireValue x).Fits

/-- The records of the values. -/
def encoding (c : Column) : Bytes :=
  c.values.flatMap fun x => record c.field.tag (c.type.wireValue x)

/-- What the map has under the name of the field. -/
def decoded (c : Column) : Option Value :=
  if c.values = [] then none
  else if c.field.repeated then some (.list (c.values.map (goValue c.type)))
  else c.values.head?.map (goValue c.type)

/-- The values are what the map has under the name of the field. -/
def Holds (c : Column) : Option Value → Prop
  | none => c.values = []
  | some v =>
    if c.field.repeated then ∃ l, v = .list l ∧ List.Forall₂ (Value.Holds c.type) l c.values
    else ∃ x, c.values = [x] ∧ v.Holds c.type x

/-- What the loop of `DecodeProto` makes of the records. -/
def add (out : Dict Bytes Value) (c : Column) : Dict Bytes Value :=
  c.values.foldl (fun out x => addValue out c.field (goValue c.type x)) out

theorem decodeLoop_encoding (hs : s.Valid) {c : Column} (hc : c.Ok) (hf : c.field ∈ s.fields)
    (rest : Bytes) :
    decodeLoop s i (c.encoding ++ rest) out =
      decodeLoop s (i + c.encoding.length) rest (add out c) := by
  have hvalues : ∀ values : List c.type.Cpp, (∀ x ∈ values, (c.type.wireValue x).Fits) →
      ∀ i out, decodeLoop s i
        (values.flatMap (fun x => record c.field.tag (c.type.wireValue x)) ++ rest) out =
          decodeLoop s
            (i + (values.flatMap fun x => record c.field.tag (c.type.wireValue x)).length) rest
            (values.foldl (fun out x => addValue out c.field (goValue c.type x)) out) := by
    intro values hfits
    induction values with
    | nil => exact fun i out => rfl
    | cons x values ih =>
      intro i out
      rw [List.forall_mem_cons] at hfits
      rw [List.flatMap_cons, List.append_assoc, decodeLoop_record hs hf hc.type x hfits.1,
        ih hfits.2, List.length_append, Nat.add_assoc, List.foldl_cons]
  exact hvalues c.values hc.fits i out

theorem decodeLoop_columns (hs : s.Valid) {cs : List Column} (hcs : ∀ c ∈ cs, c.Ok)
    (hfields : ∀ c ∈ cs, c.field ∈ s.fields) :
    decodeLoop s i (cs.flatMap encoding) out = .ok (cs.foldl add out) := by
  induction cs generalizing i out with
  | nil => rfl
  | cons c cs ih =>
    rw [List.forall_mem_cons] at hcs hfields
    rw [List.flatMap_cons, decodeLoop_encoding hs hcs.1 hfields.1, ih hcs.2 hfields.2,
      List.foldl_cons]

/-! What the map has in the end. -/

theorem get?_addValue_of_ne {f : SchemaField} {val : Value} {name : Bytes} (h : name ≠ f.name) :
    (addValue out f val).get? name = out.get? name := by
  unfold addValue
  split
  · rw [Dict.get?_set, if_neg h]
  · rw [Dict.get?_set, if_neg h]

theorem get?_add_of_ne {c : Column} {name : Bytes} (h : name ≠ c.field.name) :
    (add out c).get? name = out.get? name := by
  unfold add
  induction c.values generalizing out with
  | nil => rfl
  | cons x values ih => rw [List.foldl_cons, ih, get?_addValue_of_ne h]

theorem get?_foldl_repeated {f : SchemaField} (hrep : f.repeated = true) (vals : List Value)
    (hnil : vals ≠ []) (out : Dict Bytes Value) :
    (vals.foldl (fun out val => addValue out f val) out).get? f.name =
      some (.list (listAt out f.name ++ vals)) := by
  induction vals generalizing out with
  | nil => exact absurd rfl hnil
  | cons val vals ih =>
    have hset : (addValue out f val).get? f.name =
        some (.list (listAt out f.name ++ [val])) := by
      rw [addValue, if_pos hrep, Dict.get?_set, if_pos rfl]
    rw [List.foldl_cons]
    by_cases hlast : vals = []
    · rw [hlast, List.foldl_nil, hset]
    · have hcur : listAt (addValue out f val) f.name = listAt out f.name ++ [val] := by
        rw [listAt, hset]
      rw [ih hlast, hcur, List.append_assoc, List.singleton_append]

theorem get?_add_self {c : Column} (hc : c.Ok) (hnone : out.get? c.field.name = none) :
    (add out c).get? c.field.name = c.decoded := by
  have hfold : add out c =
      (c.values.map (goValue c.type)).foldl (fun out val => addValue out c.field val) out := by
    rw [List.foldl_map]
    rfl
  rw [decoded]
  by_cases hnil : c.values = []
  · rw [if_pos hnil, add, hnil, List.foldl_nil, hnone]
  rw [if_neg hnil]
  by_cases hrep : c.field.repeated = true
  · have hcur : listAt out c.field.name = [] := by
      unfold listAt
      rw [hnone]
    rw [if_pos hrep, hfold, get?_foldl_repeated hrep _ (by simpa using hnil), hcur,
      List.nil_append]
  · -- A singular field has just one value.
    have hone := hc.singular (Bool.eq_false_of_not_eq_true hrep)
    obtain ⟨x, hx⟩ := List.length_eq_one_iff.mp
      (Nat.le_antisymm hone (List.length_pos_iff.mpr hnil))
    rw [if_neg hrep, add, hx, List.foldl_cons, List.foldl_nil, addValue, if_neg hrep,
      Dict.get?_set, if_pos rfl]
    rfl

theorem get?_foldl_add (out : Dict Bytes Value) {cs : List Column} (hcs : ∀ c ∈ cs, c.Ok)
    (hnames : (cs.map fun c => c.field.name).Nodup)
    (hnone : ∀ c ∈ cs, out.get? c.field.name = none) :
    (∀ c ∈ cs, (cs.foldl add out).get? c.field.name = c.decoded) ∧
      ∀ name, (∀ c ∈ cs, name ≠ c.field.name) → (cs.foldl add out).get? name = out.get? name := by
  induction cs generalizing out with
  | nil => exact ⟨fun c hc => absurd hc List.not_mem_nil, fun name _ => rfl⟩
  | cons c cs ih =>
    rw [List.forall_mem_cons] at hcs hnone
    rw [List.map_cons, List.nodup_cons] at hnames
    have hother : ∀ c' ∈ cs, c'.field.name ≠ c.field.name := by
      intro c' hc' heq
      exact hnames.1 (List.mem_map.mpr ⟨c', hc', heq⟩)
    obtain ⟨hrest, hframe⟩ := ih (add out c) hcs.2 hnames.2 fun c' hc' => by
      rw [get?_add_of_ne (hother c' hc'), hnone.2 c' hc']
    rw [List.foldl_cons]
    constructor
    · rw [List.forall_mem_cons]
      refine ⟨?_, hrest⟩
      rw [hframe _ fun c' hc' => (hother c' hc').symm, get?_add_self hcs.1 hnone.1]
    · intro name hname
      rw [List.forall_mem_cons] at hname
      rw [hframe name hname.2, get?_add_of_ne hname.1]

end Column

/-- `DecodeProto` of a body in columns: under each name what the column has. -/
theorem decodeProto_columns (hs : s.Valid) {cs : List Column}
    (hfields : cs.map Column.field = s.fields) (hcs : ∀ c ∈ cs, c.Ok) :
    ∃ out, decodeProto s (cs.flatMap Column.encoding) = .ok out ∧
      (∀ c ∈ cs, out.get? c.field.name = c.decoded) ∧
      ∀ name, name ∉ s.fields.map SchemaField.name → out.get? name = none := by
  have hnames : (cs.map fun c => c.field.name).Nodup := by
    have hnodup := hs.accepted.names
    rwa [← hfields, List.map_map] at hnodup
  obtain ⟨hall, hother⟩ := Column.get?_foldl_add .empty hcs hnames fun _ _ => rfl
  refine ⟨_, Column.decodeLoop_columns hs hcs fun c hc => ?_, hall, fun name hname => ?_⟩
  · rw [← hfields]
    exact List.mem_map_of_mem hc
  · refine hother name fun c hc heq => hname ?_
    rw [← hfields, List.map_map, heq]
    exact List.mem_map.mpr ⟨c, hc, rfl⟩

/-! ## Encoding -/

/-- A value in range for a field. -/
def SchemaField.InRange (f : SchemaField) (v : Value) : Prop :=
  ∃ type, fieldType f.type = some type ∧
    if f.repeated then ∃ l, v = .list l ∧ ∀ elem ∈ l, elem.InRange type else v.InRange type

/-- The value as it comes out of the decoder: an empty list does not. -/
def SchemaField.decoded (f : SchemaField) (v : Value) : Option Value :=
  match fieldType f.type with
  | none => none
  | some type =>
    if f.repeated then
      match v with
      | .list [] => none
      | .list l => some (.list (l.map (Value.decoded type)))
      | _ => none
    else some (v.decoded type)

theorem map_goValue_of_holds {l : List Value} {xs : List type.Cpp}
    (h : List.Forall₂ (Value.Holds type) l xs) :
    xs.map (goValue type) = l.map (Value.decoded type) := by
  induction h with
  | nil => rfl
  | cons hx _ ih => rw [List.map_cons, List.map_cons, goValue_of_holds hx, ih]

theorem Column.decoded_of_holds {c : Column} (hc : c.Ok) {v : Option Value} (h : c.Holds v) :
    c.decoded = v.bind c.field.decoded := by
  cases v with
  | none =>
    have hnil : c.values = [] := h
    rw [Column.decoded, if_pos hnil]
    rfl
  | some v =>
    rw [Option.bind_some, Column.decoded, SchemaField.decoded, hc.type]
    unfold Column.Holds at h
    by_cases hrep : c.field.repeated = true
    · simp only [if_pos hrep] at h ⊢
      obtain ⟨l, rfl, hl⟩ := h
      have hmap := map_goValue_of_holds hl
      cases l with
      | nil => rw [if_pos (List.map_eq_nil_iff.mp hmap)]
      | cons elem l =>
        have hne : c.values ≠ [] := by
          intro hnil
          rw [hnil] at hmap
          cases hmap
        rw [if_neg hne, hmap]
    · simp only [if_neg hrep] at h ⊢
      obtain ⟨x, hvalues, hx⟩ := h
      rw [hvalues, if_neg (List.cons_ne_nil _ _), List.head?_cons, Option.map_some,
        goValue_of_holds hx]

section

variable (conv : FloatConversion) {values : Dict Bytes Value} {wt : Nat}

/-- A value goes into one record. -/
theorem appendValue_record (buf : Bytes) (htype : fieldType f.type = some type)
    (hwt : wireTypeFor f.type = .ok wt) {v : Value} {x : type.Cpp} (h : v.Holds type x) :
    inField f.name (appendValue conv (appendTag buf f.tag wt) f.type v) =
      .ok (buf ++ record f.tag (type.wireValue x)) := by
  have hsame : wt = (type.wireValue x).wireType :=
    Except.ok.inj (hwt.symm.trans (wireTypeFor_eq htype x))
  rw [appendTag_eq buf f.tag (hsame ▸ (type.wireValue x).wireType_lt), hsame,
    appendValue_of_holds conv _ htype h, List.append_assoc]
  rfl

/-- A list goes into a column. -/
theorem foldlM_appendValue (htype : fieldType f.type = some type)
    (hwt : wireTypeFor f.type = .ok wt) {l : List Value} (h : ∀ elem ∈ l, elem.InRange type) :
    ∃ xs : List type.Cpp, List.Forall₂ (Value.Holds type) l xs ∧
      (∀ x ∈ xs, (type.wireValue x).Fits) ∧
      ∀ buf, l.foldlM (fun buf elem =>
          inField f.name (appendValue conv (appendTag buf f.tag wt) f.type elem)) buf =
        .ok (buf ++ xs.flatMap fun x => record f.tag (type.wireValue x)) := by
  induction l with
  | nil => exact ⟨[], .nil, fun x hx => absurd hx List.not_mem_nil,
      fun buf => congrArg Except.ok (List.append_nil buf).symm⟩
  | cons elem l ih =>
    rw [List.forall_mem_cons] at h
    obtain ⟨x, hx⟩ := exists_holds h.1
    obtain ⟨xs, hxs, hfits, hfold⟩ := ih h.2
    refine ⟨x :: xs, .cons hx hxs, List.forall_mem_cons.mpr ⟨fits_of_holds hx, hfits⟩,
      fun buf => ?_⟩
    rw [List.foldlM_cons, appendValue_record conv buf htype hwt hx, List.flatMap_cons,
      ← List.append_assoc]
    exact hfold _

/-- An iteration of `EncodeProto` writes a column. -/
theorem encodeField_column (htype : fieldType f.type = some type)
    (h : ∀ v, values.get? f.name = some v → f.InRange v) :
    ∃ c : Column, c.field = f ∧ c.Ok ∧ c.Holds (values.get? f.name) ∧
      ∀ buf, encodeField conv values buf f = .ok (buf ++ c.encoding) := by
  unfold encodeField
  cases hv : values.get? f.name with
  | none =>
    exact ⟨⟨f, type, []⟩, rfl, ⟨htype, fun _ => Nat.zero_le _,
      fun x hx => absurd hx List.not_mem_nil⟩, rfl,
      fun buf => congrArg Except.ok (List.append_nil buf).symm⟩
  | some v =>
    obtain ⟨type', htype', hrange⟩ := h v hv
    obtain rfl := Option.some.inj (htype'.symm.trans htype)
    have hwt := wireTypeFor_eq htype type'.default
    simp only [hwt]
    by_cases hrep : f.repeated = true
    · rw [if_pos hrep] at hrange
      obtain ⟨l, rfl, hl⟩ := hrange
      obtain ⟨xs, hxs, hfits, hfold⟩ := foldlM_appendValue conv htype hwt hl
      refine ⟨⟨f, type', xs⟩, rfl, ⟨htype, fun hsing => ?_, hfits⟩, ?_, fun buf => ?_⟩
      · rw [hrep] at hsing
        cases hsing
      · exact (if_pos hrep).mpr ⟨l, rfl, hxs⟩
      · exact (if_pos hrep).trans (hfold buf)
    · rw [if_neg hrep] at hrange
      obtain ⟨x, hx⟩ := exists_holds hrange
      refine ⟨⟨f, type', [x]⟩, rfl, ⟨htype, fun _ => Nat.le_refl 1, fun y hy => ?_⟩, ?_,
        fun buf => ?_⟩
      · rw [List.mem_singleton.mp hy]
        exact fits_of_holds hx
      · exact (if_neg hrep).mpr ⟨x, rfl, hx⟩
      · refine (if_neg hrep).trans ((appendValue_record conv buf htype hwt hx).trans ?_)
        rw [Column.encoding, List.flatMap_singleton]

end

/-- `EncodeProto` of a map whose values are in range. -/
theorem encodeProto_columns (conv : FloatConversion) (hs : s.Valid) {values : Dict Bytes Value}
    (h : ∀ f ∈ s.fields, ∀ v, values.get? f.name = some v → f.InRange v) :
    ∃ cs : List Column, cs.map Column.field = s.fields ∧
      (∀ c ∈ cs, c.Ok ∧ c.Holds (values.get? c.field.name)) ∧
      encodeProto conv s values = .ok (cs.flatMap Column.encoding) := by
  have hfields : ∀ fields : List SchemaField, (∀ f ∈ fields, f ∈ s.fields) →
      ∃ cs : List Column, cs.map Column.field = fields ∧
        (∀ c ∈ cs, c.Ok ∧ c.Holds (values.get? c.field.name)) ∧
        ∀ buf, fields.foldlM (encodeField conv values) buf =
          .ok (buf ++ cs.flatMap Column.encoding) := by
    intro fields hmem
    induction fields with
    | nil => exact ⟨[], rfl, fun c hc => absurd hc List.not_mem_nil,
        fun buf => congrArg Except.ok (List.append_nil buf).symm⟩
    | cons f fields ih =>
      rw [List.forall_mem_cons] at hmem
      obtain ⟨type, htype⟩ := Option.ne_none_iff_exists'.mp (hs.accepted.each f hmem.1).type
      obtain ⟨c, rfl, hok, hholds, hencode⟩ :=
        encodeField_column conv htype (h f hmem.1)
      obtain ⟨cs, hcs, hall, hfold⟩ := ih hmem.2
      refine ⟨c :: cs, by rw [List.map_cons, hcs],
        List.forall_mem_cons.mpr ⟨⟨hok, hholds⟩, hall⟩, fun buf => ?_⟩
      rw [List.foldlM_cons, hencode, List.flatMap_cons, ← List.append_assoc]
      exact hfold _
  obtain ⟨cs, hcs, hall, hfold⟩ := hfields s.fields fun f hf => hf
  exact ⟨cs, hcs, hall, hfold []⟩

/-- What is written is read back, and nothing else. -/
theorem decodeProto_encodeProto (conv : FloatConversion) (hs : s.Valid) {values : Dict Bytes Value}
    (h : ∀ f ∈ s.fields, ∀ v, values.get? f.name = some v → f.InRange v) :
    ∃ body out, encodeProto conv s values = .ok body ∧ decodeProto s body = .ok out ∧
      (∀ f ∈ s.fields, out.get? f.name = (values.get? f.name).bind f.decoded) ∧
      ∀ name, name ∉ s.fields.map SchemaField.name → out.get? name = none := by
  obtain ⟨cs, hcs, hall, hencode⟩ := encodeProto_columns conv hs h
  obtain ⟨out, hdecode, hout, hother⟩ := decodeProto_columns hs hcs fun c hc => (hall c hc).1
  refine ⟨_, out, hencode, hdecode, fun f hf => ?_, hother⟩
  rw [← hcs] at hf
  obtain ⟨c, hc, rfl⟩ := List.mem_map.mp hf
  rw [hout c hc, Column.decoded_of_holds (hall c hc).1 (hall c hc).2]

end Mpubsub.Bridge
