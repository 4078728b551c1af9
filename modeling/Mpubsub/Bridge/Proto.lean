import Mpubsub.Bridge.Schema
import Mpubsub.Lib.Except
import Mpubsub.Lib.Ieee754
import Mpubsub.Lib.Protobuf

/-!
# The protobuf codec of the bridge (`proto.go`)

`EncodeProto` and `DecodeProto` between the bytes of a body and a map from field names to
values of any type. A floating-point number is known by its bits.
-/

namespace Mpubsub.Bridge

open Mpubsub.Lib
open Mpubsub.Proto (FieldType)

/-- A value of type `any`. An `int` has 64 bits. -/
inductive Value where
  | null
  | bool (b : Bool)
  | int (n : Int64)
  | int32 (n : Int32)
  | int64 (n : Int64)
  | uint (n : UInt64)
  | uint32 (n : UInt32)
  | uint64 (n : UInt64)
  | float32 (bits : UInt32)
  | float64 (bits : UInt64)
  | string (s : Bytes)
  | bytes (b : Bytes)
  | list (l : List Value)
  | object (members : List (Bytes × Value))

/-- The format `%T`. -/
def Value.goType : Value → String
  | null => "<nil>"
  | bool _ => "bool"
  | int _ => "int"
  | int32 _ => "int32"
  | int64 _ => "int64"
  | uint _ => "uint"
  | uint32 _ => "uint32"
  | uint64 _ => "uint64"
  | float32 _ => "float32"
  | float64 _ => "float64"
  | string _ => "string"
  | bytes _ => "[]uint8"
  | list _ => "[]interface {}"
  | object _ => "map[string]interface {}"

/-- The errors of the codec. -/
inductive ProtoError where
  | noWireType (typ : Bytes)
  | typeMismatch (typ : Bytes) (v : Value)
  | unsupportedProtoType (typ : Bytes)
  | notAList (name : Bytes) (v : Value)
  | inField (name : Bytes) (err : ProtoError)
  | fractional (x : Value)
  | notANumber (v : Value)
  | negative (n : Int)
  | notUnsigned (x : Value)
  | truncatedTag (offset : Nat)
  | skipUnknown (field : UInt32) (err : ProtoError)
  | truncated (what : String)
  | lengthOverflow
  | unsupportedSkip (wt : Nat)
  | wireMismatch (wt : Nat) (typ : Bytes) (expected : Nat)
  | overruns (what : String)
  | unsupportedType (typ : Bytes)

/-- The text of an error; `quote` is the format `%q`, `raw` is `%s` and `render` is `%v`. -/
def ProtoError.text (quote raw : Bytes → String) (render : Value → String) : ProtoError → String
  | noWireType typ => "no wire type for " ++ quote typ
  | typeMismatch typ v =>
    "value " ++ render v ++ " (" ++ v.goType ++ ") is not assignable to proto " ++ raw typ
  | unsupportedProtoType typ => "unsupported proto type " ++ quote typ
  | notAList name v =>
    "field " ++ quote name ++ ": repeated value must be a list, got " ++ v.goType
  | inField name err => "field " ++ quote name ++ ": " ++ err.text quote raw render
  | fractional x =>
    "value " ++ render x ++ " has fractional part, cannot convert to integer"
  | notANumber v => "value " ++ render v ++ " (" ++ v.goType ++ ") is not a number"
  | negative n => "negative " ++ toString n ++ " cannot convert to unsigned"
  | notUnsigned x => "value " ++ render x ++ " cannot convert to unsigned integer"
  | truncatedTag offset => "truncated tag at offset " ++ toString offset
  | skipUnknown field err =>
    "skip unknown field " ++ toString field.toNat ++ ": " ++ err.text quote raw render
  | truncated what => "truncated " ++ what
  | lengthOverflow => "length overflow"
  | unsupportedSkip wt => "unsupported wire type " ++ toString wt ++ " in unknown field skip"
  | wireMismatch wt typ expected =>
    "wire type " ++ toString wt ++ " does not match declared " ++ raw typ ++ " (expected " ++
      toString expected ++ ")"
  | overruns what => what ++ " overruns body"
  | unsupportedType typ => "unsupported type " ++ quote typ

def wireVarint : Nat := 0
def wireLen : Nat := 2
def wireFixed32 : Nat := 5

/-- `wireTypeFor`. -/
def wireTypeFor (typ : Bytes) : Except ProtoError Nat :=
  match fieldType typ with
  | some .bool | some .int32 | some .int64 | some .uint32 | some .uint64 | some .sint32
  | some .sint64 => .ok wireVarint
  | some .float => .ok wireFixed32
  | some .string | some .bytes => .ok wireLen
  | none => .error (.noWireType typ)

/-! ## Varints -/

/-- The loop of `appendVarint`, with at most `k` rounds left. -/
def appendVarintLoop : Nat → Bytes → UInt64 → Bytes
  | 0, buf, v => buf ++ [v.toUInt8]
  | k + 1, buf, v =>
    if v ≥ 0x80 then appendVarintLoop k (buf ++ [v.toUInt8 ||| 0x80]) (v >>> 7)
    else buf ++ [v.toUInt8]

/-- `appendVarint`. After nine rounds one bit is left of 64. -/
def appendVarint (buf : Bytes) (v : UInt64) : Bytes := appendVarintLoop 9 buf v

/-- `appendTag`. -/
def appendTag (buf : Bytes) (field : UInt32) (wt : Nat) : Bytes :=
  appendVarint buf (field.toUInt64 <<< 3 ||| UInt64.ofNat wt)

/-- `zigzag32`. -/
def zigzag32 (v : Int32) : UInt32 := ((v <<< 1) ^^^ (v >>> 31)).toUInt32

/-- `zigzag64`. -/
def zigzag64 (v : Int64) : UInt64 := ((v <<< 1) ^^^ (v >>> 63)).toUInt64

/-- `unzigzag32`. -/
def unzigzag32 (v : UInt32) : Int32 := ((v >>> 1) ^^^ -(v &&& 1)).toInt32

/-- `unzigzag64`. -/
def unzigzag64 (v : UInt64) : Int64 := ((v >>> 1) ^^^ -(v &&& 1)).toInt64

theorem toNat_or_high (b : UInt8) : (b ||| 0x80).toNat = b.toNat % 128 + 128 := by
  have hb : b.toNat < 256 := b.toNat_lt
  have hlow : b.toNat % 128 < 2 ^ 7 := Nat.mod_lt _ (by decide)
  have hor : b.toNat % 128 ||| 128 = b.toNat % 128 + 128 := or_mul_two_pow 1 hlow
  rw [UInt8.toNat_or, show (0x80 : UInt8).toNat = 128 from rfl]
  rcases Nat.lt_or_ge b.toNat 128 with hlt | hge
  · rw [Nat.mod_eq_of_lt hlt] at hor ⊢
    exact hor
  · have hsplit : b.toNat % 128 ||| 128 = b.toNat := by omega
    calc b.toNat ||| 128 = b.toNat % 128 ||| 128 ||| 128 := by rw [hsplit]
      _ = b.toNat % 128 ||| 128 := by rw [Nat.or_assoc, Nat.or_self]
      _ = b.toNat % 128 + 128 := hor

theorem toNat_shiftRight_seven (v : UInt64) : (v >>> 7).toNat = v.toNat / 128 := by
  rw [UInt64.toNat_shiftRight, show (7 : UInt64).toNat % 64 = 7 from rfl,
    Nat.shiftRight_eq_div_pow]

theorem appendVarintLoop_eq {k : Nat} {buf : Bytes} {v : UInt64} (h : v.toNat < 128 ^ (k + 1)) :
    appendVarintLoop k buf v = buf ++ Protobuf.varint v.toNat := by
  induction k generalizing buf v with
  | zero =>
    rw [Protobuf.varint_of_lt (by simpa using h)]
    rfl
  | succ k ih =>
    unfold appendVarintLoop
    split
    · rename_i hlarge
      have hle : 128 ≤ v.toNat := UInt64.le_iff_toNat_le.mp hlarge
      have hshift := toNat_shiftRight_seven v
      have hbyte : v.toUInt8 ||| 0x80 = UInt8.ofNat (v.toNat % 128 + 128) := by
        apply UInt8.toNat_inj.mp
        rw [toNat_or_high, UInt64.toNat_toUInt8, UInt8.toNat_ofNat']
        omega
      rw [ih (by rw [hshift]; exact Nat.div_lt_of_lt_mul (by rwa [Nat.pow_succ'] at h)), hshift,
        Protobuf.varint_of_le hle, hbyte, List.append_assoc]
      rfl
    · rename_i hsmall
      have hlt : v.toNat < 128 := UInt64.lt_iff_toNat_lt.mp (UInt64.not_le.mp hsmall)
      rw [Protobuf.varint_of_lt hlt]
      rfl

theorem appendVarint_eq (buf : Bytes) (v : UInt64) :
    appendVarint buf v = buf ++ Protobuf.varint v.toNat :=
  appendVarintLoop_eq (Nat.lt_trans v.toNat_lt (by decide))

theorem appendTag_eq (buf : Bytes) (field : UInt32) {wt : Nat} (h : wt < 8) :
    appendTag buf field wt = buf ++ Protobuf.varint (Protobuf.key field wt) := by
  have hfield : field.toNat < 2 ^ 32 := field.toNat_lt
  have hkey : (field.toUInt64 <<< 3 ||| UInt64.ofNat wt).toNat = Protobuf.key field wt := by
    rw [UInt64.toNat_or, UInt64.toNat_shiftLeft, UInt64.toNat_ofNat', UInt32.toNat_toUInt64,
      show (3 : UInt64).toNat % 64 = 3 from rfl, Nat.shiftLeft_eq,
      Nat.mod_eq_of_lt (show wt < 2 ^ 64 by omega), Nat.mod_eq_of_lt (by omega), Nat.or_comm,
      or_mul_two_pow (k := 3) _ h, Protobuf.key, Nat.add_comm, show 2 ^ 3 = 8 from rfl]
  rw [appendTag, appendVarint_eq, hkey]

/-- The loop of `readVarint` at the byte `i`, with the groups so far in `val`. -/
def readVarintLoop (val : UInt64) (i : Nat) : Bytes → Option (UInt64 × Nat)
  | [] => none
  | b :: data =>
    if i ≥ 10 then none
    else
      let val := val ||| (b &&& 0x7F).toUInt64 <<< UInt64.ofNat (7 * i)
      if b < 0x80 then some (val, i + 1) else readVarintLoop val (i + 1) data

/-- `readVarint`: the value and the number of bytes. -/
def readVarint (data : Bytes) : Option (UInt64 × Nat) := readVarintLoop 0 0 data

/-- The groups are read as a number, of which 64 bits are kept. -/
theorem readVarintLoop_eq {val : UInt64} {i : Nat} (data : Bytes) (hi : i ≤ 10)
    (hval : val.toNat < 2 ^ (7 * i)) :
    readVarintLoop val i data = (Protobuf.parseVarint (10 - i) data).map fun p =>
      (UInt64.ofNat (val.toNat + p.1 * 2 ^ (7 * i)), i + p.2) := by
  induction data generalizing val i with
  | nil =>
    rcases Nat.lt_or_eq_of_le hi with hlt | rfl
    · obtain ⟨k, hk⟩ := Nat.exists_eq_add_of_le' (Nat.sub_pos_of_lt hlt)
      rw [hk]
      rfl
    · rfl
  | cons b data ih =>
    rcases Nat.lt_or_eq_of_le hi with hlt | rfl
    swap
    · rfl
    obtain ⟨k, hk⟩ := Nat.exists_eq_add_of_le' (Nat.sub_pos_of_lt hlt)
    have hb : b.toNat < 256 := b.toNat_lt
    -- What the group makes of the groups so far.
    have hgroup : (val ||| (b &&& 0x7F).toUInt64 <<< UInt64.ofNat (7 * i)).toNat =
        (val.toNat + b.toNat % 128 * 2 ^ (7 * i)) % 2 ^ 64 := by
      rw [UInt64.toNat_or, UInt64.toNat_shiftLeft, UInt8.toNat_toUInt64, UInt8.toNat_and,
        UInt64.toNat_ofNat', show (0x7F : UInt8).toNat = 2 ^ 7 - 1 from rfl,
        Nat.and_two_pow_sub_one_eq_mod, show 7 * i % 2 ^ 64 % 64 = 7 * i by omega,
        Nat.shiftLeft_eq, show 2 ^ 7 = 128 from rfl, ← or_mul_two_pow _ hval, Nat.or_mod_two_pow,
        Nat.mod_eq_of_lt val.toNat_lt]
    rw [hk, readVarintLoop, if_neg (by omega), Protobuf.parseVarint]
    by_cases hlast : b.toNat < 128
    · rw [Nat.mod_eq_of_lt hlast] at hgroup
      rw [if_pos hlast, Option.map_some]
      refine (if_pos (UInt8.lt_iff_toNat_lt.mpr hlast)).trans ?_
      rw [← UInt64.ofNat_toNat (x := val ||| _), hgroup]
      congr 2
      apply UInt64.toNat_inj.mp
      simp only [UInt64.toNat_ofNat', Nat.mod_mod]
    · have hmod : b.toNat % 128 = b.toNat - 128 := by omega
      have hpow : 2 ^ (7 * (i + 1)) = 128 * 2 ^ (7 * i) := by
        rw [Nat.mul_succ, Nat.pow_add, Nat.mul_comm]
      rw [if_neg hlast, Option.map_map]
      refine (if_neg fun h => hlast (UInt8.lt_iff_toNat_lt.mp h)).trans ?_
      rw [ih (by omega) ?_, show 10 - (i + 1) = k by omega]
      · congr 1
        funext p
        have hsum : val.toNat + b.toNat % 128 * 2 ^ (7 * i) + p.1 * 2 ^ (7 * (i + 1)) =
            val.toNat + (b.toNat - 128 + 128 * p.1) * 2 ^ (7 * i) := by
          rw [hmod, hpow]
          ring
        refine Prod.ext (UInt64.toNat_inj.mp ?_) (by simp only [Function.comp]; omega)
        simp only [Function.comp, UInt64.toNat_ofNat']
        rw [hgroup, Nat.mod_add_mod, hsum]
      · have hdigit : b.toNat % 128 * 2 ^ (7 * i) ≤ 127 * 2 ^ (7 * i) :=
          Nat.mul_le_mul_right _ (by omega)
        rw [hgroup, hpow]
        exact Nat.lt_of_le_of_lt (Nat.mod_le _ _) (by omega)

theorem readVarint_eq (data : Bytes) :
    readVarint data =
      (Protobuf.parseVarint 10 data).map fun p => (UInt64.ofNat p.1, p.2) := by
  rw [readVarint, readVarintLoop_eq data (by decide) (by decide)]
  simp

/-- A varint is read back. -/
theorem readVarint_varint (v : UInt64) (rest : Bytes) :
    readVarint (Protobuf.varint v.toNat ++ rest) = some (v, Protobuf.varintSize v.toNat) := by
  have hten : v.toNat < 128 ^ 10 := Nat.lt_trans v.toNat_lt (by decide)
  rw [readVarint_eq, Protobuf.parseVarint_varint hten, Option.map_some, UInt64.ofNat_toNat]

/-- `readVarint` takes at least one byte, and not more than there are. -/
theorem readVarint_bounds {v : UInt64} {n : Nat} {data : Bytes} (h : readVarint data = some (v, n)) :
    0 < n ∧ n ≤ data.length := by
  rw [readVarint_eq] at h
  obtain ⟨p, hp, heq⟩ := Option.map_eq_some_iff.mp h
  cases heq
  exact Protobuf.parseVarint_bounds hp

/-- What comes behind a varint does not matter. -/
theorem readVarint_append {data : Bytes} {p : UInt64 × Nat} (h : readVarint data = some p)
    (rest : Bytes) : readVarint (data ++ rest) = some p := by
  rw [readVarint_eq] at h ⊢
  obtain ⟨q, hq, heq⟩ := Option.map_eq_some_iff.mp h
  rw [Protobuf.parseVarint_append hq, Option.map_some, heq]

/-! ## Numbers -/

/-- What the processor makes of a `float64` that is no number of the integer type. -/
structure FloatConversion where
  toInt64 : UInt64 → Int64
  toUint64 : UInt64 → UInt64

/-- `x == math.Trunc(x)`. -/
def isTrunc (x : UInt64) : Bool :=
  (Ieee754.binary64.toInt? x.toNat).isSome ||
    x.toNat % 2 ^ Ieee754.binary64.width == Ieee754.binary64.infinity

/-- `x < 0` for an `x` that is no NaN. -/
def isNegative (x : UInt64) : Bool :=
  x.toNat / 2 ^ Ieee754.binary64.width == 1 && x.toNat % 2 ^ Ieee754.binary64.width != 0

/-- `int64(x)`. -/
def FloatConversion.int64 (conv : FloatConversion) (x : UInt64) : Int64 :=
  match Ieee754.binary64.toInt? x.toNat with
  | some n => if -2 ^ 63 ≤ n ∧ n < 2 ^ 63 then Int64.ofInt n else conv.toInt64 x
  | none => conv.toInt64 x

/-- `uint64(x)`. -/
def FloatConversion.uint64 (conv : FloatConversion) (x : UInt64) : UInt64 :=
  match Ieee754.binary64.toInt? x.toNat with
  | some n => if 0 ≤ n ∧ n < 2 ^ 64 then UInt64.ofNat n.toNat else conv.toUint64 x
  | none => conv.toUint64 x

/-- `float64(n)`. -/
def floatOfInt (n : Int) : UInt64 := UInt64.ofNat (Ieee754.binary64.ofInt n)

/-- `toInt64`. -/
def toInt64 (conv : FloatConversion) : Value → Except ProtoError Int64
  | .int n => .ok n
  | .int32 n => .ok n.toInt64
  | .int64 n => .ok n
  | .uint n => .ok n.toInt64
  | .uint32 n => .ok n.toUInt64.toInt64
  | .uint64 n => .ok n.toInt64
  | .float64 x => if isTrunc x then .ok (conv.int64 x) else .error (.fractional (.float64 x))
  | .float32 x =>
    let y := Ieee754.widen x
    if isTrunc y then .ok (conv.int64 y) else .error (.fractional (.float64 y))
  | v => .error (.notANumber v)

/-- `toUint64`. -/
def toUint64 (conv : FloatConversion) : Value → Except ProtoError UInt64
  | .int n => if n < 0 then .error (.negative n.toInt) else .ok n.toUInt64
  | .int32 n => if n < 0 then .error (.negative n.toInt) else .ok n.toInt64.toUInt64
  | .int64 n => if n < 0 then .error (.negative n.toInt) else .ok n.toUInt64
  | .uint n => .ok n
  | .uint32 n => .ok n.toUInt64
  | .uint64 n => .ok n
  | .float64 x =>
    if !isTrunc x || isNegative x then .error (.notUnsigned (.float64 x)) else .ok (conv.uint64 x)
  | v => .error (.notANumber v)

/-- `toFloat64`. -/
def toFloat64 : Value → Except ProtoError UInt64
  | .float64 x => .ok x
  | .float32 x => .ok (Ieee754.widen x)
  | .int n => .ok (floatOfInt n.toInt)
  | .int32 n => .ok (floatOfInt n.toInt)
  | .int64 n => .ok (floatOfInt n.toInt)
  | .uint32 n => .ok (floatOfInt n.toNat)
  | .uint64 n => .ok (floatOfInt n.toNat)
  | v => .error (.notANumber v)

/-! ## Encoding -/

/-- `appendValue`. -/
def appendValue (conv : FloatConversion) (buf : Bytes) (typ : Bytes) (v : Value) :
    Except ProtoError Bytes :=
  match fieldType typ with
  | some .bool =>
    match v with
    | .bool b => .ok (appendVarint buf (if b then 1 else 0))
    | v => .error (.typeMismatch typ v)
  | some .int32 | some .int64 => do
    let n ← toInt64 conv v
    return appendVarint buf n.toUInt64
  | some .uint32 | some .uint64 => do
    let n ← toUint64 conv v
    return appendVarint buf n
  | some .sint32 => do
    let n ← toInt64 conv v
    return appendVarint buf (zigzag32 n.toInt32).toUInt64
  | some .sint64 => do
    let n ← toInt64 conv v
    return appendVarint buf (zigzag64 n)
  | some .float => do
    let f ← toFloat64 v
    return buf ++ storeU32le (Ieee754.narrow f)
  | some .string =>
    match v with
    | .string s => .ok (appendVarint buf (UInt64.ofNat s.length) ++ s)
    | v => .error (.typeMismatch typ v)
  | some .bytes =>
    match v with
    | .bytes b => .ok (appendVarint buf (UInt64.ofNat b.length) ++ b)
    | v => .error (.typeMismatch typ v)
  | none => .error (.unsupportedProtoType typ)

/-- `fmt.Errorf("field %q: %w", ..)` around a failure. -/
def inField {α : Type} (name : Bytes) : Except ProtoError α → Except ProtoError α
  | .ok a => .ok a
  | .error err => .error (.inField name err)

/-- An iteration of `EncodeProto`. -/
def encodeField (conv : FloatConversion) (values : Dict Bytes Value) (buf : Bytes)
    (f : SchemaField) : Except ProtoError Bytes :=
  match values.get? f.name with
  | none => .ok buf
  | some v => do
    let wt ← wireTypeFor f.type
    if f.repeated then
      match v with
      | .list arr =>
        arr.foldlM (fun buf elem =>
          inField f.name (appendValue conv (appendTag buf f.tag wt) f.type elem)) buf
      | v => .error (.notAList f.name v)
    else inField f.name (appendValue conv (appendTag buf f.tag wt) f.type v)

/-- `EncodeProto`. -/
def encodeProto (conv : FloatConversion) (s : Schema) (values : Dict Bytes Value) :
    Except ProtoError Bytes :=
  s.fields.foldlM (encodeField conv values) []

/-! ## Decoding -/

/-- `skipField`: the number of bytes. -/
def skipField (data : Bytes) (wt : Nat) : Except ProtoError Nat :=
  if wt = wireVarint then
    match readVarint data with
    | none => .error (.truncated "varint")
    | some (_, n) => .ok n
  else if wt = wireFixed32 then
    if data.length < 4 then .error (.truncated "fixed32") else .ok 4
  else if wt = wireLen then
    match readVarint data with
    | none => .error (.truncated "length")
    | some (l, n) =>
      if l.toNat > data.length - n then .error .lengthOverflow else .ok (n + l.toNat)
  else .error (.unsupportedSkip wt)

/-- A `case` of `decodeValue` for a varint. -/
def decodeVarint (what : String) (data : Bytes) (value : UInt64 → Value) :
    Except ProtoError (Value × Nat) :=
  match readVarint data with
  | none => .error (.truncated what)
  | some (v, n) => .ok (value v, n)

/-- A `case` of `decodeValue` for a length and as many bytes. -/
def decodeLen (what : String) (data : Bytes) (value : Bytes → Value) :
    Except ProtoError (Value × Nat) :=
  match readVarint data with
  | none => .error (.truncated (what ++ " length"))
  | some (l, n) =>
    if l.toNat > data.length - n then .error (.overruns what)
    else .ok (value ((data.drop n).take l.toNat), n + l.toNat)

/-- `decodeValue`: the value and the number of bytes. -/
def decodeValue (data : Bytes) (typ : Bytes) (wt : Nat) : Except ProtoError (Value × Nat) := do
  let expectedWT ← wireTypeFor typ
  if wt ≠ expectedWT then .error (.wireMismatch wt typ expectedWT)
  else
    match fieldType typ with
    | some .bool => decodeVarint "bool" data fun v => .bool (v != 0)
    | some .int32 => decodeVarint "int32" data fun v => .int64 v.toUInt32.toInt32.toInt64
    | some .int64 => decodeVarint "int64" data fun v => .int64 v.toInt64
    | some .uint32 => decodeVarint "uint32" data fun v => .uint64 v.toUInt32.toUInt64
    | some .uint64 => decodeVarint "uint64" data fun v => .uint64 v
    | some .sint32 => decodeVarint "sint32" data fun v => .int64 (unzigzag32 v.toUInt32).toInt64
    | some .sint64 => decodeVarint "sint64" data fun v => .int64 (unzigzag64 v)
    | some .float =>
      if data.length < 4 then .error (.truncated "float")
      else .ok (.float64 (Ieee754.widen (loadU32leAt data 0)), 4)
    | some .string => decodeLen "string" data .string
    | some .bytes => decodeLen "bytes" data .bytes
    | none => .error (.unsupportedType typ)

/-- The field with a tag. The tables of `NewSchema` have positions of fields only. -/
def Schema.fieldWithTag (s : Schema) (tag : UInt32) : Option SchemaField :=
  (s.byTag.get? tag).bind fun idx => s.fields[idx]?

/-- `cur, _ := out[f.Name].([]any)`. -/
def listAt (out : Dict Bytes Value) (name : Bytes) : List Value :=
  match out.get? name with
  | some (.list cur) => cur
  | _ => []

/-- What `DecodeProto` does with the value of a field. -/
def addValue (out : Dict Bytes Value) (f : SchemaField) (val : Value) : Dict Bytes Value :=
  if f.repeated then out.set f.name (.list (listAt out f.name ++ [val])) else out.set f.name val

/-- An iteration of `DecodeProto` with `data` left at the offset `i`: the map and the number of
bytes. -/
def decodeField (s : Schema) (i : Nat) (data : Bytes) (out : Dict Bytes Value) :
    Except ProtoError (Dict Bytes Value × Nat) :=
  match readVarint data with
  | none => .error (.truncatedTag i)
  | some (key, n) =>
    let field := (key >>> 3).toUInt32
    let wt := (key &&& 7).toNat
    match s.fieldWithTag field with
    | none =>
      match skipField (data.drop n) wt with
      | .error err => .error (.skipUnknown field err)
      | .ok skip => .ok (out, n + skip)
    | some f => do
      let (val, consumed) ← inField f.name (decodeValue (data.drop n) f.type wt)
      return (addValue out f val, n + consumed)

/-- The loop of `DecodeProto`. Every iteration takes at least one byte, so `fuel` as long as
the data is enough (`decodeFields_of_le`). -/
def decodeFields (s : Schema) : Nat → Nat → Bytes → Dict Bytes Value →
    Except ProtoError (Dict Bytes Value)
  | 0, _, _, out => .ok out
  | fuel + 1, i, data, out =>
    if data = [] then .ok out
    else do
      let (out, n) ← decodeField s i data out
      decodeFields s fuel (i + n) (data.drop n) out

/-- `DecodeProto`. -/
def decodeProto (s : Schema) (body : Bytes) : Except ProtoError (Dict Bytes Value) :=
  decodeFields s body.length 0 body .empty

end Mpubsub.Bridge
