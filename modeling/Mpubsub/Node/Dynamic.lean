import Mpubsub.Node.PublishTyped
import Mpubsub.Proto.Decoding

/-!
# Messages without a schema (`dynamic_message.h`, `dynamic_message.cpp`)

`DynamicMessage` appends one record after the other to a vector, which it grows by a worst case
before ESPHome's encoder writes and cuts down afterwards. `DynamicReader` goes through records
with a pointer. It reads in a memory without bounds, so that the lengths it passes on matter.
-/

namespace Mpubsub.Node

open Mpubsub.Lib Mpubsub.Lib.Protobuf Mpubsub.Proto

/-! ## `DynamicMessage` -/

def TAG_MAX : Nat := 5
def VARINT_MAX : Nat := 10
def LENGTH_PREFIX_MAX : Nat := 5

/-- `std::vector::resize`. -/
def resize (buf : Bytes) (n : Nat) : Bytes := buf.take n ++ List.replicate (n - buf.length) 0

/-- `encode_into`. The vector lies at the start of a memory. -/
def encodeInto (buf : Bytes) (reserveBytes : Nat) (encode : Cursor → Cursor) : Bytes :=
  let grown := resize buf (buf.length + reserveBytes)
  let out := encode ⟨fun i => grown.getD i 0, buf.length⟩
  resize (out.mem.load 0 grown.length) out.pos

/-- `DynamicMessage`. -/
structure DynamicMessage where
  buf : Bytes := []

namespace DynamicMessage

variable (enc : ProtoEncode) (msg : DynamicMessage)

/-- An `add_*`, which reserves `reserveBytes`. -/
def add (reserveBytes : Nat) (type : FieldType) (tag : UInt32) (value : type.Cpp) :
    DynamicMessage :=
  ⟨encodeInto msg.buf reserveBytes fun pos => enc.encode type pos tag value true⟩

def addBool (tag : UInt32) (value : Bool) : DynamicMessage :=
  msg.add enc (TAG_MAX + 1) .bool tag value

def addInt32 (tag : UInt32) (value : Int32) : DynamicMessage :=
  msg.add enc (TAG_MAX + VARINT_MAX) .int32 tag value

def addInt64 (tag : UInt32) (value : Int64) : DynamicMessage :=
  msg.add enc (TAG_MAX + VARINT_MAX) .int64 tag value

def addUint32 (tag : UInt32) (value : UInt32) : DynamicMessage :=
  msg.add enc (TAG_MAX + VARINT_MAX) .uint32 tag value

def addUint64 (tag : UInt32) (value : UInt64) : DynamicMessage :=
  msg.add enc (TAG_MAX + VARINT_MAX) .uint64 tag value

def addSint32 (tag : UInt32) (value : Int32) : DynamicMessage :=
  msg.add enc (TAG_MAX + VARINT_MAX) .sint32 tag value

def addSint64 (tag : UInt32) (value : Int64) : DynamicMessage :=
  msg.add enc (TAG_MAX + VARINT_MAX) .sint64 tag value

def addFloat (tag : UInt32) (bits : UInt32) : DynamicMessage :=
  msg.add enc (TAG_MAX + 4) .float tag bits

def addString (tag : UInt32) (value : Bytes) : DynamicMessage :=
  msg.add enc (TAG_MAX + LENGTH_PREFIX_MAX + value.length) .string tag value

def addBytes (tag : UInt32) (data : Bytes) : DynamicMessage :=
  msg.add enc (TAG_MAX + LENGTH_PREFIX_MAX + data.length) .bytes tag data

def addMessage (tag : UInt32) (nested : DynamicMessage) : DynamicMessage :=
  msg.addBytes enc tag nested.buf

/-- `bytes`. -/
def bytes : Bytes := msg.buf

/-- The `add_*` of a type. -/
def addValue : (type : FieldType) → UInt32 → type.Cpp → DynamicMessage
  | .bool, tag, value => msg.addBool enc tag value
  | .int32, tag, value => msg.addInt32 enc tag value
  | .int64, tag, value => msg.addInt64 enc tag value
  | .uint32, tag, value => msg.addUint32 enc tag value
  | .uint64, tag, value => msg.addUint64 enc tag value
  | .sint32, tag, value => msg.addSint32 enc tag value
  | .sint64, tag, value => msg.addSint64 enc tag value
  | .float, tag, value => msg.addFloat enc tag value
  | .string, tag, value => msg.addString enc tag value
  | .bytes, tag, value => msg.addBytes enc tag value

end DynamicMessage

/-- A sequence of `add_*` calls. -/
inductive Adds where
  | done
  | value (type : FieldType) (tag : UInt32) (value : type.Cpp) (more : Adds)
  | message (tag : UInt32) (nested more : Adds)

namespace Adds

/-- The calls on a message; nested messages are built the same way from nothing. -/
def run (enc : ProtoEncode) : Adds → DynamicMessage → DynamicMessage
  | done, msg => msg
  | value type tag v more, msg => more.run enc (msg.addValue enc type tag v)
  | message tag nested more, msg => more.run enc (msg.addMessage enc tag (nested.run enc {}))

/-- All tags are field numbers of protobuf. -/
def TagsOk : Adds → Prop
  | done => True
  | value _ tag _ more => (1 ≤ tag ∧ tag ≤ 536870911) ∧ more.TagsOk
  | message tag nested more => (1 ≤ tag ∧ tag ≤ 536870911) ∧ nested.TagsOk ∧ more.TagsOk

/-- The records of the calls. -/
def encoding : Adds → Bytes
  | done => []
  | value type tag v more => record tag (type.wireValue v) ++ more.encoding
  | message tag nested more => record tag (.len nested.encoding) ++ more.encoding

end Adds

/-! What the calls write. -/

@[simp] theorem length_resize (buf : Bytes) (n : Nat) : (resize buf n).length = n := by
  rw [resize, List.length_append, List.length_take, List.length_replicate]
  omega

theorem length_encodeInto (buf : Bytes) (reserveBytes : Nat) (encode : Cursor → Cursor) :
    ∃ mem, (encodeInto buf reserveBytes encode).length = (encode ⟨mem, buf.length⟩).pos :=
  ⟨_, length_resize _ _⟩

/-- Where the record has room in what is reserved, it is appended. -/
theorem encodeInto_write {buf rec : Bytes} {reserveBytes : Nat} (h : rec.length ≤ reserveBytes) :
    encodeInto buf reserveBytes (fun pos => pos.write rec) = buf ++ rec := by
  obtain ⟨grown, hgrown⟩ : ∃ grown, grown = buf ++ List.replicate reserveBytes (0 : UInt8) :=
    ⟨_, rfl⟩
  have hresize : resize buf (buf.length + reserveBytes) = grown := by
    rw [resize, List.take_of_length_le (Nat.le_add_right _ _), Nat.add_sub_cancel_left, hgrown]
  have hlength : grown.length = buf.length + reserveBytes := by
    rw [hgrown, List.length_append, List.length_replicate]
  have hstore : (Mem.store (fun i => grown.getD i 0) (0 + buf.length) rec).load 0 grown.length =
      (Mem.load (fun i => grown.getD i 0) 0 grown.length).take buf.length ++ rec ++
        (Mem.load (fun i => grown.getD i 0) 0 grown.length).drop (buf.length + rec.length) :=
    Mem.load_store_inside _ 0 (by omega)
  have htake : grown.take buf.length = buf := by
    rw [hgrown]
    exact List.take_left
  rw [Nat.zero_add, Mem.load_getD, htake] at hstore
  simp only [encodeInto, Cursor.write, hresize, hstore]
  -- What is left of the reserved space is cut off.
  have hcut : (buf ++ rec ++ grown.drop (buf.length + rec.length)).take (buf.length + rec.length) =
      buf ++ rec := List.take_left' List.length_append
  have hfull : buf.length + rec.length -
      (buf ++ rec ++ grown.drop (buf.length + rec.length)).length = 0 := by
    simp only [List.length_append]
    omega
  rw [resize, hcut, hfull, List.replicate_zero, List.append_nil]

section Adds

variable {enc : ProtoEncode} {tag : UInt32} {type : FieldType}

theorem key_lt (htag : tag ≤ 536870911) (w : WireValue) : varintSize (key tag w.wireType) ≤ 5 := by
  have hle : tag.toNat ≤ 2 ^ 29 - 1 := UInt32.le_iff_toNat_le.mp htag
  have hwt := w.wireType_lt
  refine varintSize_le ?_
  rw [key]
  omega

/-- The record of a value has room in what its call reserves. -/
theorem DynamicMessage.addValue_eq (henc : enc.Standard) (msg : DynamicMessage)
    (htag : tag ≤ 536870911) (value : type.Cpp) (hsize : (type.wireValue value).size < 2 ^ 32) :
    msg.addValue enc type tag value = ⟨msg.buf ++ record tag (type.wireValue value)⟩ := by
  have hkey := key_lt htag (type.wireValue value)
  have hadd {reserveBytes : Nat} (h : (type.wireValue value).size + 5 ≤ reserveBytes) :
      msg.add enc reserveBytes type tag value = ⟨msg.buf ++ record tag (type.wireValue value)⟩ := by
    have hencode : (fun pos => enc.encode type pos tag value true) =
        fun pos : Cursor => pos.write (record tag (type.wireValue value)) := by
      funext pos
      rw [henc, if_neg (fun h => absurd h.2 (by decide))]
    rw [DynamicMessage.add, hencode, encodeInto_write]
    rw [length_record, recordSize]
    omega
  have hvarint (v : UInt64) : varintSize v.toNat ≤ 10 :=
    varintSize_le (Nat.lt_trans v.toNat_lt (by decide))
  have hprefix {payload : Bytes} (h : payload.length < 2 ^ 32) : varintSize payload.length ≤ 5 :=
    varintSize_le (Nat.lt_trans h (by decide))
  cases type with
  | bool =>
    have hone : varintSize (Bool.toUInt64 value).toNat = 1 :=
      varintSize_of_lt (by cases value <;> decide)
    exact hadd (Nat.add_le_add_right (Nat.le_of_eq hone) 5)
  | int32 | int64 | uint32 | uint64 | sint32 | sint64 =>
    exact hadd (Nat.add_le_add_right (hvarint _) 5)
  | float => exact hadd (Nat.le_refl _)
  | string | bytes =>
    simp only [FieldType.wireValue, WireValue.size] at hsize
    have hlen := hprefix (show List.length (α := UInt8) value < 2 ^ 32 by omega)
    refine hadd ?_
    simp only [FieldType.wireValue, WireValue.size, TAG_MAX, LENGTH_PREFIX_MAX]
    omega

theorem DynamicMessage.length_add (henc : enc.Standard) (msg : DynamicMessage)
    (reserveBytes : Nat) (value : type.Cpp) :
    (msg.add enc reserveBytes type tag value).buf.length =
      msg.buf.length + (record tag (type.wireValue value)).length := by
  obtain ⟨mem, hmem⟩ := length_encodeInto msg.buf reserveBytes
    fun pos => enc.encode type pos tag value true
  refine hmem.trans ?_
  rw [henc, if_neg (fun h => absurd h.2 (by decide))]
  rfl

theorem DynamicMessage.length_addValue (henc : enc.Standard) (msg : DynamicMessage)
    (value : type.Cpp) :
    (msg.addValue enc type tag value).buf.length =
      msg.buf.length + (record tag (type.wireValue value)).length := by
  cases type <;> exact DynamicMessage.length_add henc msg _ value

/-- A message is added as its bytes. -/
theorem DynamicMessage.addMessage_eq (henc : enc.Standard) (msg nested : DynamicMessage)
    (htag : tag ≤ 536870911) (hsize : (WireValue.len nested.buf).size < 2 ^ 32) :
    msg.addMessage enc tag nested = ⟨msg.buf ++ record tag (.len nested.buf)⟩ :=
  @DynamicMessage.addValue_eq enc tag .bytes henc msg htag nested.buf hsize

theorem DynamicMessage.length_addMessage (henc : enc.Standard) (msg nested : DynamicMessage) :
    (msg.addMessage enc tag nested).buf.length =
      msg.buf.length + (record tag (.len nested.buf)).length :=
  @DynamicMessage.length_addValue enc tag .bytes henc msg nested.buf

/-- The length does not depend on what there is room for, -/
theorem Adds.length_run (henc : enc.Standard) (adds : Adds) (msg : DynamicMessage) :
    (adds.run enc msg).buf.length = msg.buf.length + adds.encoding.length := by
  induction adds generalizing msg with
  | done => rfl
  | value type tag v more ih =>
    rw [Adds.run, ih, DynamicMessage.length_addValue henc, Adds.encoding, List.length_append,
      Nat.add_assoc]
  | message tag nested more ihn ih =>
    have hnested : (nested.run enc {}).buf.length = nested.encoding.length := by
      rw [ihn]
      exact Nat.zero_add _
    rw [Adds.run, ih, DynamicMessage.length_addMessage henc, Adds.encoding, List.length_append,
      Nat.add_assoc]
    simp only [length_record, recordSize, WireValue.size, WireValue.wireType, hnested]

/-- and there is room for what fits into a `size_t`. -/
theorem Adds.run_eq (henc : enc.Standard) {adds : Adds} (htags : adds.TagsOk)
    (hsize : adds.encoding.length < 2 ^ 32) (msg : DynamicMessage) :
    (adds.run enc msg).buf = msg.buf ++ adds.encoding := by
  induction adds generalizing msg with
  | done => exact (List.append_nil _).symm
  | value type tag v more ih =>
    rw [Adds.encoding, List.length_append, length_record, recordSize] at hsize
    rw [Adds.run, ih htags.2 (by omega),
      DynamicMessage.addValue_eq henc msg htags.1.2 v (by omega), Adds.encoding, List.append_assoc]
  | message tag nested more ihn ih =>
    rw [Adds.encoding, List.length_append, length_record, recordSize, WireValue.size] at hsize
    have hnested : (nested.run enc {}).buf = nested.encoding := ihn htags.2.1 (by omega) {}
    have hroom : (WireValue.len (nested.run enc {}).buf).size < 2 ^ 32 := by
      rw [hnested, WireValue.size]
      omega
    rw [Adds.run, ih htags.2.2 (by omega), DynamicMessage.addMessage_eq henc msg _ htags.1.2 hroom,
      hnested, Adds.encoding, List.append_assoc]

end Adds

/-! ## `DynamicReader` -/

/-- `WireType`. -/
inductive WireType where
  | VARINT
  | LENGTH_DELIMITED
  | FIXED32
deriving DecidableEq

/-- `std::span<const uint8_t>`. -/
structure ByteSpan where
  data : Nat := 0
  size : Nat := 0
deriving DecidableEq

/-- `DynamicReader::Field`. -/
structure DynamicField where
  tag : UInt32 := 0
  wireType : WireType := .VARINT
  rawVarint : UInt64 := 0
  rawFixed32 : UInt32 := 0
  rawLength : ByteSpan := {}
deriving DecidableEq

/-- `DynamicReader`. -/
structure DynamicReader where
  cur : Nat
  stop : Nat
  error : Bool := false
deriving DecidableEq

/-- `ProtoVarInt::parse` of ESPHome, on the bytes it may read: the value and the number of bytes
that were consumed. -/
structure ProtoVarInt where
  parse : Bytes → Option (UInt64 × Nat)

/-- It reads a varint that is there, and nothing behind the bytes it may read. -/
structure ProtoVarInt.Standard (varInt : ProtoVarInt) : Prop where
  parse_varint : ∀ v rest,
    varInt.parse (varint (UInt64.toNat v) ++ rest) = some (v, varintSize (UInt64.toNat v))
  bounds : ∀ data v n, varInt.parse data = some (v, n) → 0 < n ∧ n ≤ data.length

/-- A parser of at most ten groups. -/
def ProtoVarInt.standard : ProtoVarInt where
  parse data := (parseVarint 10 data).map fun p => (UInt64.ofNat p.1, p.2)

theorem ProtoVarInt.standard_standard : ProtoVarInt.standard.Standard where
  parse_varint v rest := by
    have hten : v.toNat < 128 ^ 10 := Nat.lt_trans v.toNat_lt (by decide)
    simp only [standard, parseVarint_varint hten, Option.map_some, UInt64.ofNat_toNat]
  bounds data v n h := by
    obtain ⟨p, hp, heq⟩ := Option.map_eq_some_iff.mp h
    cases heq
    exact parseVarint_bounds hp

namespace DynamicReader

variable (varInt : ProtoVarInt) (mem : Mem)

/-- The constructor from a span. -/
def ofSpan (data : ByteSpan) : DynamicReader := { cur := data.data, stop := data.data + data.size }

/-- The call of `ProtoVarInt::parse` at `cur_`, with a 32-bit length. -/
def parseVarInt (r : DynamicReader) : Option (UInt64 × Nat) :=
  varInt.parse (mem.load r.cur (UInt32.ofNat (r.stop - r.cur)).toNat)

/-- `next`. -/
def next (r : DynamicReader) : DynamicReader × Option DynamicField :=
  if r.error = true ∨ r.cur ≥ r.stop then (r, none)
  else
    match parseVarInt varInt mem r with
    | none => ({ r with error := true }, none)
    | some (tagFull, consumed) =>
      let r := { r with cur := r.cur + consumed }
      let fieldId := (tagFull >>> 3).toUInt32
      match (tagFull &&& 0x7).toNat with
      | 0 =>
        match parseVarInt varInt mem r with
        | none => ({ r with error := true }, none)
        | some (v, consumed) =>
          ({ r with cur := r.cur + consumed },
            some { tag := fieldId, wireType := .VARINT, rawVarint := v })
      | 2 =>
        match parseVarInt varInt mem r with
        | none => ({ r with error := true }, none)
        | some (len, consumed) =>
          let r := { r with cur := r.cur + consumed }
          if len.toNat > r.stop - r.cur then ({ r with error := true }, none)
          else ({ r with cur := r.cur + len.toNat },
            some { tag := fieldId, wireType := .LENGTH_DELIMITED, rawLength := ⟨r.cur, len.toNat⟩ })
      | 5 =>
        if r.stop - r.cur < 4 then ({ r with error := true }, none)
        else ({ r with cur := r.cur + 4 },
          some { tag := fieldId, wireType := .FIXED32, rawFixed32 := loadU32leAt (mem.load r.cur 4) 0 })
      | _ => ({ r with error := true }, none)

/-- The reader after `n` calls of `next`. -/
def after (r : DynamicReader) : Nat → DynamicReader
  | 0 => r
  | n + 1 => (next varInt mem (r.after n)).1

end DynamicReader

namespace DynamicField

variable (zigzag : Zigzag) (f : DynamicField)

/-! The accessors; none where they return false. -/

def asBool : Option Bool := if f.wireType ≠ .VARINT then none else some (f.rawVarint != 0)

def asInt32 : Option Int32 :=
  if f.wireType ≠ .VARINT then none else some f.rawVarint.toUInt32.toInt32

def asInt64 : Option Int64 := if f.wireType ≠ .VARINT then none else some f.rawVarint.toInt64

def asUint32 : Option UInt32 := if f.wireType ≠ .VARINT then none else some f.rawVarint.toUInt32

def asUint64 : Option UInt64 := if f.wireType ≠ .VARINT then none else some f.rawVarint

def asSint32 : Option Int32 :=
  if f.wireType ≠ .VARINT then none else some (zigzag.decode32 f.rawVarint.toUInt32)

def asSint64 : Option Int64 :=
  if f.wireType ≠ .VARINT then none else some (zigzag.decode64 f.rawVarint)

def asFloat : Option UInt32 := if f.wireType ≠ .FIXED32 then none else some f.rawFixed32

def asString : Option ByteSpan :=
  if f.wireType ≠ .LENGTH_DELIMITED then none else some f.rawLength

def asBytes : Option ByteSpan :=
  if f.wireType ≠ .LENGTH_DELIMITED then none else some f.rawLength

def asMessage : Option DynamicReader :=
  if f.wireType ≠ .LENGTH_DELIMITED then none else some (.ofSpan f.rawLength)

/-- The accessor of a type, with what the span views. -/
def as (mem : Mem) : (type : FieldType) → Option type.Cpp
  | .bool => f.asBool
  | .int32 => f.asInt32
  | .int64 => f.asInt64
  | .uint32 => f.asUint32
  | .uint64 => f.asUint64
  | .sint32 => f.asSint32 zigzag
  | .sint64 => f.asSint64 zigzag
  | .float => f.asFloat
  | .string => f.asString.map fun span => mem.load span.data span.size
  | .bytes => f.asBytes.map fun span => mem.load span.data span.size

end DynamicField

/-! What a call of `next` does. -/

namespace DynamicReader

variable {varInt : ProtoVarInt} {mem : Mem} {r : DynamicReader}

theorem parseVarInt_bounds (hvar : varInt.Standard) (hle : r.cur ≤ r.stop) {v : UInt64} {n : Nat}
    (h : parseVarInt varInt mem r = some (v, n)) : 0 < n ∧ r.cur + n ≤ r.stop := by
  have hbounds := hvar.bounds _ v n h
  rw [Mem.length_load, UInt32.toNat_ofNat'] at hbounds
  have := Nat.mod_le (r.stop - r.cur) (2 ^ 32)
  omega

/-- A call that returns nothing at a standstill, one that finds an error, and one that returns a
field. -/
theorem next_cases (hvar : varInt.Standard) (mem : Mem) (hle : r.cur ≤ r.stop) :
    (next varInt mem r = (r, none) ∧ (r.error = true ∨ r.cur = r.stop)) ∨
    (∃ r', next varInt mem r = (r', none) ∧ r'.error = true ∧ r'.stop = r.stop ∧
      r.error = false ∧ r.cur ≤ r'.cur ∧ r'.cur ≤ r.stop) ∨
    (∃ r' f, next varInt mem r = (r', some f) ∧ r'.error = false ∧ r'.stop = r.stop ∧
      r.error = false ∧ r.cur < r'.cur ∧ r'.cur ≤ r.stop ∧
      (f.wireType = .LENGTH_DELIMITED →
        r.cur ≤ f.rawLength.data ∧ f.rawLength.data + f.rawLength.size ≤ r.stop)) := by
  unfold next
  by_cases hstand : r.error = true ∨ r.cur ≥ r.stop
  · left
    rw [if_pos hstand]
    exact ⟨rfl, hstand.imp_right fun hge => Nat.le_antisymm hle hge⟩
  right
  rw [if_neg hstand]
  rw [not_or, Bool.not_eq_true] at hstand
  obtain ⟨hok, hlt⟩ := hstand
  cases htag : parseVarInt varInt mem r with
  | none => exact .inl ⟨_, rfl, rfl, rfl, hok, Nat.le_refl _, hle⟩
  | some tagRes =>
    obtain ⟨tagFull, consumed⟩ := tagRes
    obtain ⟨hpos, hcur⟩ := parseVarInt_bounds hvar hle htag
    simp only
    split
    · -- a varint
      split
      · exact .inl ⟨_, rfl, rfl, rfl, hok, by simp only; omega, by simp only; omega⟩
      · rename_i v n hv
        have hbounds := parseVarInt_bounds hvar (r := { r with cur := r.cur + consumed }) hcur hv
        simp only at hbounds
        exact .inr ⟨_, _, rfl, hok, rfl, hok, by simp only; omega, by simp only; omega,
          fun h => by cases h⟩
    · -- a length and as many bytes
      split
      · exact .inl ⟨_, rfl, rfl, rfl, hok, by simp only; omega, by simp only; omega⟩
      · rename_i len n hlen
        have hbounds := parseVarInt_bounds hvar (r := { r with cur := r.cur + consumed }) hcur hlen
        simp only at hbounds
        split
        · exact .inl ⟨_, rfl, rfl, rfl, hok, by simp only; omega, by simp only; omega⟩
        · rename_i hroom
          exact .inr ⟨_, _, rfl, hok, rfl, hok, by simp only; omega, by simp only; omega,
            fun _ => ⟨by simp only; omega, by simp only; omega⟩⟩
    · -- four bytes
      split
      · exact .inl ⟨_, rfl, rfl, rfl, hok, by simp only; omega, by simp only; omega⟩
      · rename_i hroom
        exact .inr ⟨_, _, rfl, hok, rfl, hok, by simp only; omega, by simp only; omega,
          fun h => by cases h⟩
    · exact .inl ⟨_, rfl, rfl, rfl, hok, by simp only; omega, by simp only; omega⟩

/-- A field has its tag from the key. -/
theorem next_tag {r' : DynamicReader} {f : DynamicField} (h : next varInt mem r = (r', some f)) :
    ∃ tagFull n, parseVarInt varInt mem r = some (tagFull, n) ∧
      f.tag = (tagFull >>> 3).toUInt32 := by
  unfold next at h
  split at h
  · cases h
  cases htag : parseVarInt varInt mem r with
  | none =>
    rw [htag] at h
    cases h
  | some tagRes =>
    refine ⟨tagRes.1, tagRes.2, rfl, ?_⟩
    simp only [htag] at h
    split at h
    · split at h
      · cases h
      · cases h
        rfl
    · split at h
      · cases h
      · split at h
        · cases h
        · cases h
          rfl
    · split at h
      · cases h
      · cases h
        rfl
    · cases h

/-! What it returns for a record. -/

/-- The field of a record at an address. -/
def fieldOf (cur : Nat) (tag : UInt32) : WireValue → DynamicField
  | .varint v => { tag := tag, wireType := .VARINT, rawVarint := v }
  | .len payload =>
    { tag := tag, wireType := .LENGTH_DELIMITED,
      rawLength := ⟨cur + varintSize (key tag 2) + varintSize payload.length, payload.length⟩ }
  | .fixed32 bits => { tag := tag, wireType := .FIXED32, rawFixed32 := bits }

theorem parseVarInt_varint (hvar : varInt.Standard) (hsize : r.stop - r.cur < 2 ^ 32) {v : UInt64}
    {rest : Bytes} (h : mem.load r.cur (r.stop - r.cur) = varint v.toNat ++ rest) :
    parseVarInt varInt mem r = some (v, varintSize v.toNat) := by
  rw [parseVarInt, UInt32.toNat_ofNat', Nat.mod_eq_of_lt hsize, h, hvar.parse_varint]

theorem next_record (hvar : varInt.Standard) (herror : r.error = false)
    (hsize : r.stop - r.cur < 2 ^ 32) {tag : UInt32} {w : WireValue} (hw : w.Fits) {rest : Bytes}
    (h : mem.load r.cur (r.stop - r.cur) = record tag w ++ rest) :
    next varInt mem r =
      ({ r with cur := r.cur + (record tag w).length }, some (fieldOf r.cur tag w)) := by
  obtain ⟨k, hk, htag, hwt⟩ := exists_key tag w
  have hlength := congrArg List.length h
  rw [Mem.length_load, List.length_append, length_record, recordSize] at hlength
  have hgo : ¬(r.error = true ∨ r.cur ≥ r.stop) := by
    have : 0 < varintSize (key tag w.wireType) := Nat.succ_pos _
    rw [herror]
    simp only [Bool.false_eq_true, false_or]
    omega
  rw [record, List.append_assoc, ← hk] at h
  obtain ⟨-, hvalue⟩ := Mem.load_eq_append h
  rw [length_varint, hk, Nat.sub_sub] at hvalue
  unfold next
  rw [if_neg hgo, parseVarInt_varint hvar hsize h]
  simp only [hk, htag]
  cases w with
  | varint v =>
    have hv : parseVarInt varInt mem { r with cur := r.cur + varintSize (key tag 0) } =
        some (v, varintSize v.toNat) :=
      parseVarInt_varint hvar (by simp only; omega) hvalue
    simp only [WireValue.wireType] at hwt ⊢
    simp only [hwt, hv, length_record, recordSize, WireValue.size, WireValue.wireType, fieldOf,
      Nat.add_assoc]
  | len payload =>
    have hlen : (UInt64.ofNat payload.length).toNat = payload.length := by
      rw [UInt64.toNat_ofNat', Nat.mod_eq_of_lt hw]
    simp only [WireValue.wireType, WireValue.size, WireValue.encode] at hwt hlength hvalue ⊢
    have hv : parseVarInt varInt mem { r with cur := r.cur + varintSize (key tag 2) } =
        some (UInt64.ofNat payload.length, varintSize payload.length) := by
      rw [List.append_assoc, ← hlen] at hvalue
      have hread := parseVarInt_varint (r := { r with cur := r.cur + varintSize (key tag 2) }) hvar
        (by simp only; omega) hvalue
      rw [hread, hlen]
    have hroom : ¬payload.length >
        r.stop - (r.cur + (varintSize (key tag 2) + varintSize payload.length)) := by omega
    simp only [hwt, hv, hlen, if_neg hroom, length_record, recordSize, WireValue.size,
      WireValue.wireType, fieldOf, Nat.add_assoc]
  | fixed32 bits =>
    simp only [WireValue.wireType, WireValue.size, WireValue.encode] at hwt hlength hvalue ⊢
    obtain ⟨hbits, -⟩ := Mem.load_eq_append hvalue
    rw [length_storeU32le] at hbits
    have hroom : ¬r.stop - (r.cur + varintSize (key tag 5)) < 4 := by omega
    have hload := loadU32leAt_storeU32le_append bits []
    rw [List.append_nil] at hload
    simp only [hwt, if_neg hroom, hbits, hload, length_record, recordSize, WireValue.size,
      WireValue.wireType, fieldOf, Nat.add_assoc]

/-! A run of calls. -/

/-- What keeps a call from returning anything keeps the next one from it. -/
theorem next_none {r' : DynamicReader} (hvar : varInt.Standard) (hle : r.cur ≤ r.stop)
    (h : next varInt mem r = (r', none)) : next varInt mem r' = (r', none) := by
  obtain ⟨hsame, -⟩ | ⟨r'', hnext, herror, -⟩ | ⟨r'', f, hnext, -⟩ := next_cases hvar mem hle
  · obtain rfl : r = r' := congrArg Prod.fst (hsame.symm.trans h)
    exact h
  · obtain rfl : r'' = r' := congrArg Prod.fst (hnext.symm.trans h)
    rw [next, if_pos (.inl herror)]
  · cases hnext.symm.trans h

theorem next_inside (hvar : varInt.Standard) (mem : Mem) (hle : r.cur ≤ r.stop) :
    r.cur ≤ (next varInt mem r).1.cur ∧ (next varInt mem r).1.cur ≤ r.stop ∧
      (next varInt mem r).1.stop = r.stop := by
  obtain ⟨hsame, -⟩ | ⟨r', hnext, -, hstop, -, hcur, hbound⟩ |
    ⟨r', f, hnext, -, hstop, -, hcur, hbound, -⟩ := next_cases hvar mem hle
  · rw [hsame]
    exact ⟨Nat.le_refl _, hle, rfl⟩
  · rw [hnext]
    exact ⟨hcur, hbound, hstop⟩
  · rw [hnext]
    exact ⟨Nat.le_of_lt hcur, hbound, hstop⟩

theorem after_inside (hvar : varInt.Standard) (mem : Mem) (hle : r.cur ≤ r.stop) (n : Nat) :
    r.cur ≤ (r.after varInt mem n).cur ∧ (r.after varInt mem n).cur ≤ r.stop ∧
      (r.after varInt mem n).stop = r.stop := by
  induction n with
  | zero => exact ⟨Nat.le_refl _, hle, rfl⟩
  | succ n ih =>
    obtain ⟨hcur, hbound, hstop⟩ := ih
    obtain ⟨hcur', hbound', hstop'⟩ := next_inside hvar mem (hstop.symm ▸ hbound)
    rw [hstop] at hbound' hstop'
    exact ⟨Nat.le_trans hcur hcur', hbound', hstop'⟩

/-- Once nothing is returned, nothing ever is. -/
theorem after_add (hvar : varInt.Standard) (hle : r.cur ≤ r.stop) {n : Nat}
    (h : (next varInt mem (r.after varInt mem n)).2 = none) (k : Nat) :
    (next varInt mem (r.after varInt mem (n + k))).2 = none := by
  induction k with
  | zero => exact h
  | succ k ih =>
    obtain ⟨-, hbound, hstop⟩ := after_inside hvar mem hle (n + k)
    have hnone := next_none hvar (hstop.symm ▸ hbound) (Prod.ext rfl ih)
    exact congrArg Prod.snd hnone

/-- As long as fields are returned, each takes a byte at least. -/
theorem after_advances (hvar : varInt.Standard) (hle : r.cur ≤ r.stop) (n : Nat)
    (h : ∀ k < n, (next varInt mem (r.after varInt mem k)).2 ≠ none) :
    r.cur + n ≤ (r.after varInt mem n).cur := by
  induction n with
  | zero => exact Nat.le_refl _
  | succ n ih =>
    have hbefore := ih fun k hk => h k (Nat.lt_succ_of_lt hk)
    obtain ⟨-, hbound, hstop⟩ := after_inside hvar mem hle n
    have hsome := h n (Nat.lt_succ_self n)
    obtain ⟨hsame, -⟩ | ⟨r', hnext, -⟩ | ⟨r', f, hnext, -, -, -, hcur, -⟩ :=
      next_cases hvar mem (r := r.after varInt mem n) (hstop.symm ▸ hbound)
    · exact absurd (congrArg Prod.snd hsame) hsome
    · exact absurd (congrArg Prod.snd hnext) hsome
    · rw [after, hnext]
      exact Nat.lt_of_le_of_lt hbefore hcur

/-- So there are no more fields than bytes. -/
theorem exists_none (hvar : varInt.Standard) (mem : Mem) (hle : r.cur ≤ r.stop) :
    ∃ n ≤ r.stop - r.cur, (next varInt mem (r.after varInt mem n)).2 = none := by
  by_contra hnever
  have hall : ∀ k < r.stop - r.cur + 1, (next varInt mem (r.after varInt mem k)).2 ≠ none :=
    fun k hk hnone => hnever ⟨k, Nat.le_of_lt_succ hk, hnone⟩
  have hfar := after_advances hvar hle _ hall
  have hbound := (after_inside hvar mem hle (r.stop - r.cur + 1)).2.1
  omega

end DynamicReader

/-! What was added comes out. -/

variable {varInt : ProtoVarInt} {zigzag : Zigzag} {mem : Mem} {r : DynamicReader}

/-- The accessor of the type returns the value of a record. -/
theorem DynamicField.as_fieldOf (hzigzag : zigzag.Standard) {type : FieldType} {tag : UInt32}
    (v : type.Cpp) {cur len : Nat} {rest : Bytes}
    (h : mem.load cur len = record tag (type.wireValue v) ++ rest) :
    (DynamicReader.fieldOf cur tag (type.wireValue v)).as zigzag mem type = some v := by
  -- A payload is what lies behind key and length.
  have hpayload {payload : Bytes} (h : mem.load cur len = record tag (.len payload) ++ rest) :
      mem.load (cur + varintSize (key tag 2) + varintSize payload.length) payload.length =
        payload := by
    rw [record, List.append_assoc] at h
    obtain ⟨-, hvalue⟩ := Mem.load_eq_append h
    rw [WireValue.encode, List.append_assoc] at hvalue
    obtain ⟨-, hbytes⟩ := Mem.load_eq_append hvalue
    have hload := (Mem.load_eq_append hbytes).1
    rwa [length_varint, length_varint] at hload
  cases type with
  | bool => exact congrArg some (toBool_toUInt64 v)
  | int32 => exact congrArg some (toInt32_toUInt64 v)
  | int64 => exact congrArg some (Int64.toInt64_toUInt64 v)
  | uint32 => exact congrArg some (UInt32.toUInt32_toUInt64 v)
  | uint64 => rfl
  | sint32 =>
    have hsame : zigzag.decode32 (zigzag32 v).toUInt64.toUInt32 = v := by
      rw [UInt32.toUInt32_toUInt64]
      exact hzigzag.decode32 v
    exact congrArg some hsame
  | sint64 => exact congrArg some (hzigzag.decode64 v)
  | float => rfl
  | string | bytes => exact congrArg some (hpayload h)

variable (varInt zigzag mem) in
/-- A reader yields what the calls add, and then nothing without an error. -/
def DynamicReader.Yields : Adds → DynamicReader → Prop
  | .done, r => next varInt mem r = (r, none) ∧ r.error = false
  | .value type tag v more, r =>
    ∃ r' f, next varInt mem r = (r', some f) ∧ f.tag = tag ∧ f.as zigzag mem type = some v ∧
      Yields more r'
  | .message tag nested more, r =>
    ∃ r' f inner, next varInt mem r = (r', some f) ∧ f.tag = tag ∧ f.asMessage = some inner ∧
      Yields nested inner ∧ Yields more r'

theorem DynamicReader.yields (hvar : varInt.Standard) (hzigzag : zigzag.Standard) {adds : Adds}
    (herror : r.error = false) (hle : r.cur ≤ r.stop) (hsize : r.stop - r.cur < 2 ^ 32)
    (h : mem.load r.cur (r.stop - r.cur) = adds.encoding) : r.Yields varInt zigzag mem adds := by
  -- The reader behind the first record.
  have hbehind {tag : UInt32} {w : WireValue} {rest : Bytes} {r : DynamicReader}
      (hle : r.cur ≤ r.stop) (h : mem.load r.cur (r.stop - r.cur) = record tag w ++ rest) :
      r.cur + (record tag w).length ≤ r.stop ∧
        mem.load (r.cur + (record tag w).length) (r.stop - (r.cur + (record tag w).length)) =
          rest := by
    have hlength := congrArg List.length h
    rw [Mem.length_load, List.length_append] at hlength
    have hrest := (Mem.load_eq_append h).2
    rw [Nat.sub_sub] at hrest
    exact ⟨by omega, hrest⟩
  induction adds generalizing r with
  | done =>
    have hnil := congrArg List.length h
    rw [Mem.length_load, Adds.encoding, List.length_nil] at hnil
    refine ⟨?_, herror⟩
    rw [next, if_pos (.inr (by omega))]
  | value type tag v more ih =>
    rw [Adds.encoding] at h
    obtain ⟨hbound, hrest⟩ := hbehind hle h
    have hfits : (type.wireValue v).Fits := by
      have hlength := congrArg List.length h
      rw [Mem.length_load, List.length_append, length_record, recordSize] at hlength
      cases type with
      | string | bytes =>
        show List.length (α := UInt8) v < 2 ^ 64
        simp only [FieldType.wireValue, WireValue.size] at hlength
        omega
      | _ => trivial
    refine ⟨_, _, next_record hvar herror hsize hfits h, ?_, DynamicField.as_fieldOf hzigzag v h,
      ih herror hbound (by simp only; omega) hrest⟩
    cases type <;> rfl
  | message tag nested more ihn ih =>
    rw [Adds.encoding] at h
    obtain ⟨hbound, hrest⟩ := hbehind hle h
    have hlength := congrArg List.length h
    rw [Mem.length_load, List.length_append, length_record, recordSize, WireValue.size] at hlength
    have hfits : (WireValue.len nested.encoding).Fits := by
      show nested.encoding.length < 2 ^ 64
      omega
    refine ⟨_, _, _, next_record hvar herror hsize hfits h, rfl, rfl, ?_,
      ih herror hbound (by simp only; omega) hrest⟩
    -- The nested message is read where its bytes lie.
    have hnested := @DynamicField.as_fieldOf _ _ hzigzag .bytes _ nested.encoding _ _ _ h
    refine ihn rfl (Nat.le_add_right _ _) ?_ ?_
    · simp only [ofSpan, fieldOf]
      omega
    · simp only [ofSpan, fieldOf, Nat.add_sub_cancel_left]
      exact Option.some.inj hnested

end Mpubsub.Node
