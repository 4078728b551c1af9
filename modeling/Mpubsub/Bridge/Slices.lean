import Mpubsub.Bridge.Body
import Mpubsub.Lib.View

/-!
# The decoder with its slice and index expressions (`proto.go`)

`DecodeProto` over the body as a buffer, with offsets and lengths that are an `int`, and with
conversions and sums as the source has them. A slice or index expression out of range ends in
`none`, a panic. Each function does what the one of `Bridge.Proto` does with the bytes of its view
(`skipFieldAt_eq`, `decodeValueAt_eq`, `decodeFieldAt_eq`).
-/

namespace Mpubsub.Bridge

open Mpubsub.Lib

variable {body : Bytes}

/-- `skipField`. -/
def skipFieldAt (data : View body) (wt : Nat) : Option (Except ProtoError Int64) :=
  if wt = wireVarint then
    match readVarint data.bytes with
    | none => some (.error (.truncated "varint"))
    | some (_, n) => some (.ok (Int64.ofNat n))
  else if wt = wireFixed32 then
    if data.len < 4 then some (.error (.truncated "fixed32")) else some (.ok 4)
  else if wt = wireLen then
    match readVarint data.bytes with
    | none => some (.error (.truncated "length"))
    | some (l, n) =>
      if l > (data.len - Int64.ofNat n).toUInt64 then some (.error .lengthOverflow)
      else some (.ok (Int64.ofNat n + l.toInt64))
  else some (.error (.unsupportedSkip wt))

/-- A `case` of `decodeValue` for a varint. -/
def decodeVarintAt (what : String) (data : View body) (value : UInt64 → Value) :
    Option (Except ProtoError (Value × Int64)) :=
  match readVarint data.bytes with
  | none => some (.error (.truncated what))
  | some (v, n) => some (.ok (value v, Int64.ofNat n))

/-- A `case` of `decodeValue` for a length and as many bytes. -/
def decodeLenAt (what : String) (data : View body) (value : Bytes → Value) :
    Option (Except ProtoError (Value × Int64)) :=
  match readVarint data.bytes with
  | none => some (.error (.truncated (what ++ " length")))
  | some (l, n) =>
    if l > (data.len - Int64.ofNat n).toUInt64 then some (.error (.overruns what))
    else do
      let part ← data.slice (Int64.ofNat n) (Int64.ofNat n + l.toInt64)
      return .ok (value part.bytes, Int64.ofNat n + l.toInt64)

/-- `make([]byte, n)`, whose length must not be negative. -/
def makeBytes (n : Int64) : Option Unit := if n < 0 then none else some ()

/-- `decodeValue`. -/
def decodeValueAt (data : View body) (typ : Bytes) (wt : Nat) :
    Option (Except ProtoError (Value × Int64)) :=
  match wireTypeFor typ with
  | .error err => some (.error err)
  | .ok expectedWT =>
    if wt ≠ expectedWT then some (.error (.wireMismatch wt typ expectedWT))
    else
      match fieldType typ with
      | some .bool => decodeVarintAt "bool" data fun v => .bool (v != 0)
      | some .int32 => decodeVarintAt "int32" data fun v => .int64 v.toUInt32.toInt32.toInt64
      | some .int64 => decodeVarintAt "int64" data fun v => .int64 v.toInt64
      | some .uint32 => decodeVarintAt "uint32" data fun v => .uint64 v.toUInt32.toUInt64
      | some .uint64 => decodeVarintAt "uint64" data fun v => .uint64 v
      | some .sint32 =>
        decodeVarintAt "sint32" data fun v => .int64 (unzigzag32 v.toUInt32).toInt64
      | some .sint64 => decodeVarintAt "sint64" data fun v => .int64 (unzigzag64 v)
      | some .float =>
        if data.len < 4 then some (.error (.truncated "float"))
        else do
          let four ← data.slice 0 4
          return .ok (.float64 (Ieee754.widen (loadU32leAt four.bytes 0)), 4)
      | some .string => decodeLenAt "string" data .string
      | some .bytes =>
        match readVarint data.bytes with
        | none => some (.error (.truncated "bytes length"))
        | some (l, n) =>
          if l > (data.len - Int64.ofNat n).toUInt64 then some (.error (.overruns "bytes"))
          else do
            makeBytes l.toInt64
            let part ← data.slice (Int64.ofNat n) (Int64.ofNat n + l.toInt64)
            return .ok (.bytes part.bytes, Int64.ofNat n + l.toInt64)
      | none => some (.error (.unsupportedType typ))

/-- An iteration of `DecodeProto` at the offset `i`: the map and the new offset. -/
def decodeFieldAt (s : Schema) (body : Bytes) (i : Int64) (out : Dict Bytes Value) :
    Option (Except ProtoError (Dict Bytes Value × Int64)) := do
  let data := View.whole body
  let rest ← data.slice i data.len
  match readVarint rest.bytes with
  | none => return .error (.truncatedTag i.toInt.toNat)
  | some (key, n) =>
    let i := i + Int64.ofNat n
    let field := (key >>> 3).toUInt32
    let wt := (key &&& 7).toNat
    match s.byTag.get? field with
    | none =>
      let rest ← data.slice i data.len
      match ← skipFieldAt rest wt with
      | .error err => return .error (.skipUnknown field err)
      | .ok skip => return .ok (out, i + skip)
    | some idx =>
      let f ← s.fields[idx]?
      let rest ← data.slice i data.len
      match inField f.name (← decodeValueAt rest f.type wt) with
      | .error err => return .error err
      | .ok (val, consumed) => return .ok (addValue out f val, i + consumed)

/-- What has become of a call. -/
inductive Run where
  | running
  | panicked
  | returned (result : Except ProtoError (Dict Bytes Value))

/-- The loop of `DecodeProto`, for `fuel` conditions. -/
def decodeLoopAt (s : Schema) (body : Bytes) : Nat → Int64 → Dict Bytes Value → Run
  | 0, _, _ => .running
  | fuel + 1, i, out =>
    if i < (View.whole body).len then
      match decodeFieldAt s body i out with
      | none => .panicked
      | some (.error err) => .returned (.error err)
      | some (.ok (out, i)) => decodeLoopAt s body fuel i out
    else .returned (.ok out)

/-- `DecodeProto`. -/
def decodeProtoAt (s : Schema) (body : Bytes) (fuel : Nat) : Run :=
  decodeLoopAt s body fuel 0 .empty

/-! ## They do what the functions on bytes do -/

section

variable {data : View body}

theorem toInt64_eq (l : UInt64) : l.toInt64 = Int64.ofNat l.toNat := by
  rw [← UInt64.toInt64_ofNat', UInt64.ofNat_toNat]

theorem len_lt_iff (hbody : body.length < 2 ^ 63) : data.len < 4 ↔ data.bytes.length < 4 := by
  have hle := data.length_bytes_le
  rw [data.len_eq, Int64.lt_iff_toInt_lt, Int64.toInt_ofNat_of_lt (by omega)]
  exact Int.ofNat_lt

/-- The bound check, in which nothing wraps. -/
theorem overruns_iff (hbody : body.length < 2 ^ 63) {l : UInt64} {n : Nat}
    (hn : n ≤ data.bytes.length) :
    l > (data.len - Int64.ofNat n).toUInt64 ↔ l.toNat > data.bytes.length - n := by
  have hle := data.length_bytes_le
  rw [data.len_eq, ← Int64.ofNat_sub _ _ hn, Int64.toUInt64_ofNat', gt_iff_lt,
    UInt64.lt_iff_toNat_lt, UInt64.toNat_ofNat', Nat.mod_eq_of_lt (by omega)]

theorem skipFieldAt_eq (hbody : body.length < 2 ^ 63) (data : View body) (wt : Nat) :
    skipFieldAt data wt = some ((skipField data.bytes wt).map Int64.ofNat) := by
  unfold skipFieldAt skipField
  by_cases hvarint : wt = wireVarint
  · rw [if_pos hvarint, if_pos hvarint]
    cases readVarint data.bytes <;> rfl
  by_cases hfixed : wt = wireFixed32
  · rw [if_neg hvarint, if_neg hvarint, if_pos hfixed, if_pos hfixed]
    simp only [len_lt_iff hbody]
    split <;> rfl
  by_cases hlen : wt = wireLen
  · rw [if_neg hvarint, if_neg hvarint, if_neg hfixed, if_neg hfixed, if_pos hlen, if_pos hlen]
    cases hread : readVarint data.bytes with
    | none => rfl
    | some p =>
      obtain ⟨l, n⟩ := p
      simp only [overruns_iff hbody (readVarint_bounds hread).2]
      split
      · rfl
      · rw [toInt64_eq, ← Int64.ofNat_add]
        rfl
  · rw [if_neg hvarint, if_neg hvarint, if_neg hfixed, if_neg hfixed, if_neg hlen, if_neg hlen]
    rfl

/-- The value of a `case`, with the number of bytes as an `int`. -/
abbrev atInt (r : Except ProtoError (Value × Nat)) : Except ProtoError (Value × Int64) :=
  r.map fun p => (p.1, Int64.ofNat p.2)

theorem decodeVarintAt_eq (what : String) (data : View body) (value : UInt64 → Value) :
    decodeVarintAt what data value = some (atInt (decodeVarint what data.bytes value)) := by
  unfold decodeVarintAt decodeVarint
  cases readVarint data.bytes <;> rfl

/-- The slice of a length that has been checked. -/
theorem exists_part (hbody : body.length < 2 ^ 63) {l : UInt64} {n : Nat}
    (hn : n ≤ data.bytes.length) (hroom : ¬l.toNat > data.bytes.length - n) :
    ∃ part, data.slice (Int64.ofNat n) (Int64.ofNat n + l.toInt64) = some part ∧
      part.bytes = (data.bytes.drop n).take l.toNat := by
  rw [toInt64_eq, ← Int64.ofNat_add]
  have h := data.exists_slice hbody (Nat.le_add_right n l.toNat) (by omega)
  rwa [Nat.add_sub_cancel_left] at h

theorem decodeLenAt_eq (hbody : body.length < 2 ^ 63) (what : String) (data : View body)
    (value : Bytes → Value) :
    decodeLenAt what data value = some (atInt (decodeLen what data.bytes value)) := by
  unfold decodeLenAt decodeLen
  cases hread : readVarint data.bytes with
  | none => rfl
  | some p =>
    obtain ⟨l, n⟩ := p
    have hn := (readVarint_bounds hread).2
    simp only [overruns_iff hbody hn]
    by_cases hroom : l.toNat > data.bytes.length - n
    · rw [if_pos hroom, if_pos hroom]
      rfl
    · obtain ⟨part, hpart, hbytes⟩ := exists_part hbody hn hroom
      rw [if_neg hroom, if_neg hroom, hpart, toInt64_eq, ← Int64.ofNat_add]
      simp only [Option.bind_eq_bind, Option.bind_some, hbytes]
      rfl

/-- A length that has been checked is no negative `int`. -/
theorem makeBytes_eq {l : UInt64} (h : l.toNat < 2 ^ 63) : makeBytes l.toInt64 = some () := by
  refine if_neg ?_
  rw [toInt64_eq, Int64.lt_iff_toInt_lt, Int64.toInt_ofNat_of_lt h]
  exact Int.not_lt.mpr (Int.natCast_nonneg _)

theorem decodeValueAt_eq (hbody : body.length < 2 ^ 63) (data : View body) (typ : Bytes)
    (wt : Nat) :
    decodeValueAt data typ wt = some (atInt (decodeValue data.bytes typ wt)) := by
  unfold decodeValueAt decodeValue
  cases wireTypeFor typ with
  | error err => rfl
  | ok expectedWT =>
    show _ = some (atInt (if wt ≠ expectedWT then _ else _))
    by_cases hwt : wt ≠ expectedWT
    · rw [if_pos hwt]
      exact if_pos hwt
    rw [if_neg hwt]
    refine (if_neg hwt).trans ?_
    cases fieldType typ with
    | none => rfl
    | some type =>
      cases type with
      | bool | int32 | int64 | uint32 | uint64 | sint32 | sint64 => exact decodeVarintAt_eq _ _ _
      | string => exact decodeLenAt_eq hbody _ _ _
      | float =>
        simp only [len_lt_iff hbody]
        by_cases hroom : data.bytes.length < 4
        · rw [if_pos hroom, if_pos hroom]
          rfl
        · obtain ⟨four, hfour, hbytes⟩ := data.exists_slice hbody (Nat.zero_le 4)
            (Nat.not_lt.mp hroom)
          have hle : 0 + 4 ≤ (data.bytes.take 4).length := by
            rw [List.length_take]
            omega
          have hload := loadU32leAt_append hle (data.bytes.drop 4)
          rw [List.take_append_drop] at hload
          have hslice : data.slice 0 4 = some four := hfour
          rw [if_neg hroom, if_neg hroom, hslice]
          simp only [Option.bind_eq_bind, Option.bind_some, hbytes, List.drop_zero, hload]
          rfl
      | bytes =>
        unfold decodeLen
        cases hread : readVarint data.bytes with
        | none => rfl
        | some p =>
          obtain ⟨l, n⟩ := p
          have hn := (readVarint_bounds hread).2
          have hle := data.length_bytes_le
          simp only [overruns_iff hbody hn]
          by_cases hroom : l.toNat > data.bytes.length - n
          · rw [if_pos hroom, if_pos hroom]
            rfl
          · obtain ⟨part, hpart, hbytes⟩ := exists_part hbody hn hroom
            rw [if_neg hroom, if_neg hroom, makeBytes_eq (by omega), hpart, toInt64_eq,
              ← Int64.ofNat_add]
            simp only [Option.bind_eq_bind, Option.bind_some, hbytes]
            rfl

end

variable {s : Schema} {out : Dict Bytes Value}

/-- An iteration does what it does on the bytes that are left, without a panic. -/
theorem decodeFieldAt_eq (hs : s.Valid) (hbody : body.length < 2 ^ 63) {i : Nat}
    (hi : i ≤ body.length) (out : Dict Bytes Value) :
    decodeFieldAt s body (Int64.ofNat i) out =
      some ((decodeField s i (body.drop i) out).map fun p => (p.1, Int64.ofNat (i + p.2))) := by
  -- The view behind the offset.
  have hslice {i : Nat} (hi : i ≤ body.length) :
      ∃ rest, (View.whole body).slice (Int64.ofNat i) (View.whole body).len = some rest ∧
        rest.bytes = body.drop i := by
    have h := (View.whole body).exists_slice_len hbody (a := i)
    rw [View.bytes_whole] at h
    exact h hi
  obtain ⟨rest, hrest, hbytes⟩ := hslice hi
  unfold decodeFieldAt decodeField
  simp only [hrest, Option.bind_eq_bind, Option.bind_some, hbytes]
  cases hread : readVarint (body.drop i) with
  | none =>
    rw [Int64.toInt_ofNat_of_lt (by omega)]
    rfl
  | some p =>
    obtain ⟨key, n⟩ := p
    have hn := (readVarint_bounds hread).2
    rw [List.length_drop] at hn
    obtain ⟨rest', hrest', hbytes'⟩ := hslice (i := i + n) (by omega)
    simp only [← Int64.ofNat_add, hrest', Option.bind_some, List.drop_drop]
    cases htag : s.byTag.get? (key >>> 3).toUInt32 with
    | none =>
      have hfield : s.fieldWithTag (key >>> 3).toUInt32 = none := by
        rw [Schema.fieldWithTag, htag]
        rfl
      simp only [hfield, skipFieldAt_eq hbody, Option.bind_some, hbytes']
      cases skipField (body.drop (i + n)) (key &&& 7).toNat with
      | error err => rfl
      | ok skip =>
        have hsum : Int64.ofNat (i + n) + Int64.ofNat skip = Int64.ofNat (i + (n + skip)) := by
          rw [← Int64.ofNat_add, Nat.add_assoc]
        exact congrArg (fun j => some (Except.ok (out, j))) hsum
    | some idx =>
      obtain ⟨f, hf, -⟩ := (hs.byTag _ idx).mp htag
      have hfield : s.fieldWithTag (key >>> 3).toUInt32 = some f := by
        rw [Schema.fieldWithTag, htag]
        exact hf
      simp only [hfield, hf, decodeValueAt_eq hbody, Option.bind_some, hbytes']
      cases decodeValue (body.drop (i + n)) f.type (key &&& 7).toNat with
      | error err => rfl
      | ok p =>
        have hsum : Int64.ofNat (i + n) + Int64.ofNat p.2 = Int64.ofNat (i + (n + p.2)) := by
          rw [← Int64.ofNat_add, Nat.add_assoc]
        exact congrArg (fun j => some (Except.ok (addValue out f p.1, j))) hsum

/-- A record ends inside the body, and further on than it begins. -/
theorem decodeField_le {data : Bytes} {i n : Nat} {out' : Dict Bytes Value}
    (h : decodeField s i data out = .ok (out', n)) : 0 < n ∧ n ≤ data.length := by
  refine ⟨decodeField_pos h, ?_⟩
  rcases decodeField_cases h with ⟨hskips, -⟩ | ⟨f, val, htakes, -⟩
  · exact hskips.le
  · exact htakes.le

/-- The loop returns what it returns on the bytes, after as many conditions as there are bytes and
one more at most. -/
theorem decodeLoopAt_eq (hs : s.Valid) (hbody : body.length < 2 ^ 63) {i fuel : Nat}
    (hi : i ≤ body.length) (hfuel : body.length - i < fuel) (out : Dict Bytes Value) :
    decodeLoopAt s body fuel (Int64.ofNat i) out =
      .returned (decodeLoop s i (body.drop i) out) := by
  induction fuel generalizing i out with
  | zero => cases hfuel
  | succ fuel ih =>
    have hcondition : Int64.ofNat i < (View.whole body).len ↔ i < body.length := by
      rw [View.len_eq, View.bytes_whole, Int64.lt_iff_toInt_lt,
        Int64.toInt_ofNat_of_lt (by omega), Int64.toInt_ofNat_of_lt hbody]
      exact Int.ofNat_lt
    unfold decodeLoopAt
    by_cases hend : i < body.length
    · have hne : body.drop i ≠ [] := by
        rw [ne_eq, List.drop_eq_nil_iff]
        omega
      rw [if_pos (hcondition.mpr hend), decodeFieldAt_eq hs hbody hi]
      cases hstep : decodeField s i (body.drop i) out with
      | error err =>
        obtain ⟨k, hk⟩ := Nat.exists_eq_add_of_le' (List.length_pos_iff.mpr hne)
        rw [decodeLoop, hk, decodeFields, if_neg hne, hstep]
        rfl
      | ok step =>
        obtain ⟨hpos, hle⟩ := decodeField_le hstep
        rw [List.length_drop] at hle
        rw [decodeLoop_step hne hstep, List.drop_drop]
        exact ih (by omega) (by omega) _
    · have hnil : body.drop i = [] := List.drop_eq_nil_iff.mpr (Nat.not_lt.mp hend)
      rw [if_neg (fun h => hend (hcondition.mp h)), hnil]
      rfl

end Mpubsub.Bridge
