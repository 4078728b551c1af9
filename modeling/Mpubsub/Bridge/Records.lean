import Mpubsub.Bridge.Proto
import Mpubsub.Proto.Encoding

/-!
# What the codec of the bridge does with records

A value in range for a type is a value of the member's type (`exists_holds`);
`appendValue` writes that one's encoding (`appendValue_of_holds`), and
`decodeValue` reads it (`decodeValue_encode`).
-/

namespace Mpubsub.Bridge

open Mpubsub.Lib Mpubsub.Lib.Protobuf
open Mpubsub.Proto (FieldType)

/-! ## Values of a type -/

/-- The integer that a number is. -/
def Value.integer? : Value → Option Int
  | .int n | .int64 n => some n.toInt
  | .int32 n => some n.toInt
  | .uint n | .uint64 n => some n.toNat
  | .uint32 n => some n.toNat
  | .float64 x => Ieee754.binary64.toInt? x.toNat
  | .float32 x => Ieee754.binary64.toInt? (Ieee754.widen x).toNat
  | _ => none

/-- The same for an unsigned type, to which no `float32` goes. -/
def Value.unsigned? : Value → Option Int
  | .float32 _ => none
  | v => v.integer?

/-- The bits of a floating-point number as a `float64`. -/
def Value.float? : Value → Option UInt64
  | .float64 x => some x
  | .float32 x => some (Ieee754.widen x)
  | _ => none

/-- A value that holds `x`. A NaN is quiet once it has been widened, and the length of a string
is an `int`. -/
def Value.Holds : (type : FieldType) → Value → type.Cpp → Prop
  | .bool, v, x => v = .bool x
  | .int32, v, x => v.integer? = some (Int32.toInt x)
  | .int64, v, x => v.integer? = some (Int64.toInt x)
  | .uint32, v, x => v.unsigned? = some (UInt32.toNat x)
  | .uint64, v, x => v.unsigned? = some (UInt64.toNat x)
  | .sint32, v, x => v.integer? = some (Int32.toInt x)
  | .sint64, v, x => v.integer? = some (Int64.toInt x)
  | .float, v, x => v.float? = some (Ieee754.widen x) ∧ Ieee754.quieted x = x
  | .string, v, x => v = .string x ∧ List.length (α := UInt8) x < 2 ^ 63
  | .bytes, v, x => v = .bytes x ∧ List.length (α := UInt8) x < 2 ^ 63

/-- The value that a member's value decodes to. -/
def goValue : (type : FieldType) → type.Cpp → Value
  | .bool, x => .bool x
  | .int32, x => .int64 (Int32.toInt64 x)
  | .int64, x => .int64 x
  | .uint32, x => .uint64 (UInt32.toUInt64 x)
  | .uint64, x => .uint64 x
  | .sint32, x => .int64 (Int32.toInt64 x)
  | .sint64, x => .int64 x
  | .float, x => .float64 (Ieee754.widen x)
  | .string, x => .string x
  | .bytes, x => .bytes x

/-- A value in range for a type. -/
def Value.InRange : FieldType → Value → Prop
  | .bool, v => ∃ b, v = .bool b
  | .int32, v | .sint32, v => ∃ n, v.integer? = some n ∧ -2 ^ 31 ≤ n ∧ n < 2 ^ 31
  | .int64, v | .sint64, v => ∃ n, v.integer? = some n ∧ -2 ^ 63 ≤ n ∧ n < 2 ^ 63
  | .uint32, v => ∃ n, v.unsigned? = some n ∧ 0 ≤ n ∧ n < 2 ^ 32
  | .uint64, v => ∃ n, v.unsigned? = some n ∧ 0 ≤ n ∧ n < 2 ^ 64
  | .float, v => ∃ bits, v.float? = some (Ieee754.widen bits)
  | .string, v => ∃ s, v = .string s ∧ s.length < 2 ^ 63
  | .bytes, v => ∃ b, v = .bytes b ∧ b.length < 2 ^ 63

/-- The value as it comes out of the decoder: an `int64` for a signed type, a `uint64` for an
unsigned one, a `float64` for a `float`. -/
def Value.decoded : FieldType → Value → Value
  | .int32, v | .int64, v | .sint32, v | .sint64, v => .int64 (Int64.ofInt (v.integer?.getD 0))
  | .uint32, v | .uint64, v => .uint64 (UInt64.ofNat (v.unsigned?.getD 0).toNat)
  | .float, v => .float64 (v.float?.getD 0)
  | .bool, v | .string, v | .bytes, v => v

/-- A value in range holds a value of the member's type, -/
theorem exists_holds {type : FieldType} {v : Value} (h : v.InRange type) :
    ∃ x : type.Cpp, v.Holds type x := by
  cases type with
  | bool => exact h
  | int32 | sint32 =>
    obtain ⟨n, hn, hlow, hhigh⟩ := h
    have htoInt : (Int32.ofInt n).toInt = n :=
      Int32.toInt_ofInt_of_le (by simpa using hlow) (by simpa using hhigh)
    exact ⟨Int32.ofInt n, hn.trans (congrArg some htoInt.symm)⟩
  | int64 | sint64 =>
    obtain ⟨n, hn, hlow, hhigh⟩ := h
    have htoInt : (Int64.ofInt n).toInt = n :=
      Int64.toInt_ofInt_of_le (by simpa using hlow) (by simpa using hhigh)
    exact ⟨Int64.ofInt n, hn.trans (congrArg some htoInt.symm)⟩
  | uint32 =>
    obtain ⟨n, hn, hlow, hhigh⟩ := h
    refine ⟨UInt32.ofNat n.toNat, hn.trans (congrArg some ?_)⟩
    rw [UInt32.toNat_ofNat', Nat.mod_eq_of_lt (by omega)]
    omega
  | uint64 =>
    obtain ⟨n, hn, hlow, hhigh⟩ := h
    refine ⟨UInt64.ofNat n.toNat, hn.trans (congrArg some ?_)⟩
    rw [UInt64.toNat_ofNat', Nat.mod_eq_of_lt (by omega)]
    omega
  | float =>
    obtain ⟨bits, hbits⟩ := h
    refine ⟨Ieee754.quieted bits, ?_, Ieee754.quieted_quieted bits⟩
    rw [hbits, Ieee754.widen_quieted]
  | string | bytes => exact h

theorem uint64_ofNat_uint32 (n : UInt32) : UInt64.ofNat (n.toNat : Int).toNat = n.toUInt64 := by
  rw [Int.toNat_natCast, ← UInt32.toNat_toUInt64, UInt64.ofNat_toNat]

theorem uint64_ofNat_uint64 (n : UInt64) : UInt64.ofNat (n.toNat : Int).toNat = n := by
  rw [Int.toNat_natCast, UInt64.ofNat_toNat]

/-- which decodes to the same. -/
theorem goValue_of_holds {type : FieldType} {v : Value} {x : type.Cpp} (h : v.Holds type x) :
    goValue type x = v.decoded type := by
  cases type with
  | bool => exact h.symm
  | int32 | sint32 =>
    rw [Value.decoded, show v.integer? = some (Int32.toInt x) from h]
    exact congrArg Value.int64 (Int64.ofInt_int32ToInt x).symm
  | int64 | sint64 =>
    rw [Value.decoded, show v.integer? = some (Int64.toInt x) from h]
    exact congrArg Value.int64 (Int64.ofInt_toInt x).symm
  | uint32 =>
    rw [Value.decoded, show v.unsigned? = some (UInt32.toNat x) from h]
    exact congrArg Value.uint64 (uint64_ofNat_uint32 x).symm
  | uint64 =>
    rw [Value.decoded, show v.unsigned? = some (UInt64.toNat x) from h]
    exact congrArg Value.uint64 (uint64_ofNat_uint64 x).symm
  | float =>
    rw [Value.decoded, h.1]
    rfl
  | string | bytes => exact h.1.symm

/-! ## Numbers -/

theorem int64_ofInt_uint32 (n : UInt32) : Int64.ofInt n.toNat = n.toUInt64.toInt64 := by
  apply Int64.toBitVec_inj.mp
  simpa using BitVec.ofNat_toNat 64 n.toBitVec

theorem int64_ofInt_uint64 (n : UInt64) : Int64.ofInt n.toNat = n.toInt64 := by
  apply Int64.toBitVec_inj.mp
  simp

theorem toUInt64_of_nonneg {n : Int64} (h : 0 ≤ n.toInt) :
    n.toUInt64 = UInt64.ofNat n.toInt.toNat := by
  have hsame : n.toInt = n.toUInt64.toNat := by
    have hnonneg : 0 ≤ n.toBitVec.toInt := h
    show n.toBitVec.toInt = (n.toBitVec.toNat : Int)
    rw [BitVec.toInt_eq_toNat_cond] at hnonneg ⊢
    have := n.toBitVec.isLt
    split at hnonneg
    · rename_i hlow
      rw [if_pos hlow]
    · omega
  rw [hsame, Int.toNat_natCast, UInt64.ofNat_toNat]

section

variable (conv : FloatConversion) {v : Value} {n : Int}

theorem int64_of_toInt? {x : UInt64} (h : Ieee754.binary64.toInt? x.toNat = some n)
    (hlow : -2 ^ 63 ≤ n) (hhigh : n < 2 ^ 63) :
    isTrunc x = true ∧ conv.int64 x = Int64.ofInt n := by
  constructor
  · rw [isTrunc, h]
    rfl
  · simp only [FloatConversion.int64, h]
    exact if_pos ⟨hlow, hhigh⟩

theorem toInt64_of_integer (h : v.integer? = some n) (hlow : -2 ^ 63 ≤ n) (hhigh : n < 2 ^ 63) :
    toInt64 conv v = .ok (Int64.ofInt n) := by
  cases v with
  | int n | int64 n =>
    cases h
    rw [Int64.ofInt_toInt]
    rfl
  | int32 n =>
    cases h
    rw [Int64.ofInt_int32ToInt]
    rfl
  | uint n | uint64 n =>
    cases h
    rw [int64_ofInt_uint64]
    rfl
  | uint32 n =>
    cases h
    rw [int64_ofInt_uint32]
    rfl
  | float64 x =>
    obtain ⟨htrunc, hint⟩ := int64_of_toInt? conv h hlow hhigh
    rw [toInt64, if_pos htrunc, hint]
  | float32 x =>
    obtain ⟨htrunc, hint⟩ := int64_of_toInt? conv h hlow hhigh
    simp only [toInt64, if_pos htrunc, hint]
  | _ => cases h

theorem toInt64_of_int64 {x : Int64} (h : v.integer? = some x.toInt) :
    toInt64 conv v = .ok x := by
  rw [toInt64_of_integer conv h x.le_toInt x.toInt_lt, Int64.ofInt_toInt]

theorem toInt64_of_int32 {x : Int32} (h : v.integer? = some x.toInt) :
    toInt64 conv v = .ok x.toInt64 :=
  toInt64_of_int64 conv (by rw [Int32.toInt_toInt64]; exact h)

theorem isNegative_of_toInt? {x : UInt64} (h : Ieee754.binary64.toInt? x.toNat = some n)
    (hlow : 0 ≤ n) : isNegative x = false := by
  rw [isNegative, Bool.and_eq_false_iff]
  by_cases hm : x.toNat % 2 ^ Ieee754.binary64.width = 0
  · exact .inr (by rw [hm]; rfl)
  · left
    rw [beq_eq_false_iff_ne]
    intro hsign
    have := Ieee754.Format.neg_of_toInt? h (by rw [hsign]; decide) hm
    omega

theorem toUint64_of_unsigned (h : v.unsigned? = some n) (hlow : 0 ≤ n) (hhigh : n < 2 ^ 64) :
    toUint64 conv v = .ok (UInt64.ofNat n.toNat) := by
  have hsigned {n : Int64} (hlow : 0 ≤ n.toInt) :
      (if n < 0 then .error (.negative n.toInt) else .ok n.toUInt64 : Except ProtoError UInt64) =
        .ok (UInt64.ofNat n.toInt.toNat) := by
    have hnot : ¬n < 0 := Int64.not_lt.mpr (Int64.le_iff_toInt_le.mpr (by simpa using hlow))
    rw [if_neg hnot, toUInt64_of_nonneg hlow]
  cases v with
  | int n | int64 n =>
    cases h
    exact hsigned hlow
  | int32 n =>
    cases h
    have hnot : ¬n < 0 := Int32.not_lt.mpr (Int32.le_iff_toInt_le.mpr (by simpa using hlow))
    rw [toUint64, if_neg hnot, toUInt64_of_nonneg (by simpa using hlow), Int32.toInt_toInt64]
  | uint n | uint64 n =>
    cases h
    rw [Int.toNat_natCast, UInt64.ofNat_toNat]
    rfl
  | uint32 n =>
    cases h
    rw [Int.toNat_natCast, toUint64, ← UInt32.toNat_toUInt64, UInt64.ofNat_toNat]
  | float64 x =>
    have htrunc : isTrunc x = true := by
      rw [isTrunc, show Ieee754.binary64.toInt? x.toNat = some n from h]
      rfl
    have hint : conv.uint64 x = UInt64.ofNat n.toNat := by
      simp only [FloatConversion.uint64, show Ieee754.binary64.toInt? x.toNat = some n from h]
      exact if_pos ⟨hlow, hhigh⟩
    simp only [toUint64, htrunc, isNegative_of_toInt? h hlow, hint]
    rfl
  | _ => cases h

theorem toUint64_of_uint64 {x : UInt64} (h : v.unsigned? = some x.toNat) :
    toUint64 conv v = .ok x := by
  have hlt : x.toNat < 2 ^ 64 := x.toNat_lt
  rw [toUint64_of_unsigned conv h (by omega) (by omega), Int.toNat_natCast, UInt64.ofNat_toNat]

theorem toUint64_of_uint32 {x : UInt32} (h : v.unsigned? = some x.toNat) :
    toUint64 conv v = .ok x.toUInt64 :=
  toUint64_of_uint64 conv (by rw [UInt32.toNat_toUInt64]; exact h)

theorem toFloat64_of_float {x : UInt64} (h : v.float? = some x) : toFloat64 v = .ok x := by
  cases v with
  | float64 y | float32 y =>
    cases h
    rfl
  | _ => cases h

end

/-! ## Writing -/

variable {typ : Bytes} {type : FieldType}

theorem fits_of_holds {v : Value} {x : type.Cpp} (h : v.Holds type x) :
    (type.wireValue x).Fits := by
  cases type with
  | string | bytes => exact Nat.lt_trans h.2 (by decide)
  | _ => exact True.intro

theorem wireTypeFor_eq (h : fieldType typ = some type) (x : type.Cpp) :
    wireTypeFor typ = .ok (type.wireValue x).wireType := by
  rw [wireTypeFor, h]
  cases type <;> rfl

/-- A value is written as what it holds. -/
theorem appendValue_of_holds (conv : FloatConversion) (buf : Bytes) (h : fieldType typ = some type)
    {v : Value} {x : type.Cpp} (hv : v.Holds type x) :
    appendValue conv buf typ v = .ok (buf ++ (type.wireValue x).encode) := by
  have hlen {s : Bytes} (hs : s.length < 2 ^ 63) :
      appendVarint buf (UInt64.ofNat s.length) ++ s = buf ++ (WireValue.len s).encode := by
    rw [appendVarint_eq, UInt64.toNat_ofNat', Nat.mod_eq_of_lt (Nat.lt_trans hs (by decide)),
      List.append_assoc]
    rfl
  have hvarint (n : UInt64) : (Except.ok (appendVarint buf n) : Except ProtoError Bytes) =
      .ok (buf ++ (WireValue.varint n).encode) := congrArg Except.ok (appendVarint_eq buf n)
  unfold appendValue
  rw [h]
  cases type with
  | bool =>
    cases hv
    cases x <;> exact hvarint _
  | int32 =>
    simp only [toInt64_of_int32 conv hv]
    exact hvarint _
  | int64 =>
    simp only [toInt64_of_int64 conv hv]
    exact hvarint _
  | uint32 =>
    simp only [toUint64_of_uint32 conv hv]
    exact hvarint _
  | uint64 =>
    simp only [toUint64_of_uint64 conv hv]
    exact hvarint _
  | sint32 =>
    simp only [toInt64_of_int32 conv hv]
    exact (hvarint _).trans (congrArg (fun n : Int32 =>
      Except.ok (buf ++ (WireValue.varint (zigzag32 n).toUInt64).encode)) (Int32.toInt32_toInt64 x))
  | sint64 =>
    simp only [toInt64_of_int64 conv hv]
    exact hvarint _
  | float =>
    simp only [toFloat64_of_float hv.1]
    exact congrArg (fun bits => Except.ok (buf ++ storeU32le bits))
      ((Ieee754.narrow_widen x).trans hv.2)
  | string =>
    cases hv.1
    exact congrArg Except.ok (hlen hv.2)
  | bytes =>
    cases hv.1
    exact congrArg Except.ok (hlen hv.2)

/-! ## Reading -/

theorem decodeVarint_varint (what : String) (n : UInt64) (rest : Bytes) (value : UInt64 → Value) :
    decodeVarint what (varint n.toNat ++ rest) value = .ok (value n, varintSize n.toNat) := by
  rw [decodeVarint, readVarint_varint]

theorem readVarint_length {payload : Bytes} (h : payload.length < 2 ^ 64) (rest : Bytes) :
    readVarint (varint payload.length ++ rest) =
      some (UInt64.ofNat payload.length, varintSize payload.length) := by
  have hlength : (UInt64.ofNat payload.length).toNat = payload.length := by
    rw [UInt64.toNat_ofNat', Nat.mod_eq_of_lt h]
  have hread := readVarint_varint (UInt64.ofNat payload.length) rest
  rwa [hlength] at hread

theorem decodeLen_len (what : String) {payload : Bytes} (h : payload.length < 2 ^ 64)
    (rest : Bytes) (value : Bytes → Value) :
    decodeLen what (varint payload.length ++ (payload ++ rest)) value =
      .ok (value payload, varintSize payload.length + payload.length) := by
  have hdrop : (varint payload.length ++ (payload ++ rest)).drop (varintSize payload.length) =
      payload ++ rest := List.drop_left' (length_varint _)
  have hroom : ¬payload.length >
      (varint payload.length ++ (payload ++ rest)).length - varintSize payload.length := by
    rw [List.length_append, List.length_append, length_varint]
    omega
  rw [decodeLen, readVarint_length h]
  simp only [UInt64.toNat_ofNat', Nat.mod_eq_of_lt h, if_neg hroom, hdrop, List.take_left]

/-! What the decoder's conversions make of the encoder's. -/

theorem uint32_of_toUInt64 (n : UInt32) : n.toUInt64.toUInt32.toUInt64 = n.toUInt64 := by simp

theorem sint32_of_zigzag (n : Int32) :
    (unzigzag32 (zigzag32 n).toUInt64.toUInt32).toInt64 = n.toInt64 := by
  rw [UInt32.toUInt32_toUInt64]
  exact congrArg Int32.toInt64 (unzigzag32_zigzag32 n)

/-- The encoding of a member's value is read as that value. -/
theorem decodeValue_encode (h : fieldType typ = some type) (x : type.Cpp)
    (hfits : (type.wireValue x).Fits) (rest : Bytes) :
    decodeValue ((type.wireValue x).encode ++ rest) typ (type.wireValue x).wireType =
      .ok (goValue type x, (type.wireValue x).size) := by
  have hvarint (what : String) {n : UInt64} {value : UInt64 → Value} {v : Value}
      (hv : value n = v) : decodeVarint what ((WireValue.varint n).encode ++ rest) value =
        .ok (v, (WireValue.varint n).size) := by
    rw [← hv]
    exact decodeVarint_varint what n rest value
  have hlen (what : String) {payload : Bytes} (hfits : payload.length < 2 ^ 64)
      (value : Bytes → Value) : decodeLen what ((WireValue.len payload).encode ++ rest) value =
        .ok (value payload, (WireValue.len payload).size) := by
    rw [WireValue.encode, List.append_assoc]
    exact decodeLen_len what hfits rest value
  unfold decodeValue
  rw [wireTypeFor_eq h x, h]
  refine (if_neg (not_not.mpr rfl)).trans ?_
  cases type with
  | bool => exact hvarint _ (congrArg Value.bool (Proto.toBool_toUInt64 x))
  | int32 => exact hvarint _ (congrArg (fun n => Value.int64 n.toInt64) (toInt32_toUInt64 x))
  | int64 => exact hvarint _ (congrArg Value.int64 (Int64.toInt64_toUInt64 x))
  | uint32 => exact hvarint _ (congrArg Value.uint64 (uint32_of_toUInt64 x))
  | uint64 => exact hvarint _ rfl
  | sint32 => exact hvarint _ (congrArg Value.int64 (sint32_of_zigzag x))
  | sint64 => exact hvarint _ (congrArg Value.int64 (unzigzag64_zigzag64 x))
  | float =>
    have hload := loadU32leAt_storeU32le_append x rest
    have hroom : ¬(storeU32le x ++ rest).length < 4 := by
      rw [List.length_append]
      exact Nat.not_lt.mpr (Nat.le_add_right 4 _)
    refine (if_neg hroom).trans ?_
    exact congrArg (fun bits => Except.ok (Value.float64 (Ieee754.widen bits), 4)) hload
  | string => exact hlen _ hfits _
  | bytes => exact hlen _ hfits _

end Mpubsub.Bridge
