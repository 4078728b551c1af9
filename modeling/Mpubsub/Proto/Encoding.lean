import Mpubsub.Lib.Protobuf
import Mpubsub.Proto.Emitter

/-!
# Structs and their encoding

A value of a generated struct has a member for each emitted statement, of the
statement's type. Its standard encoding has a record for each singular member
that has not its default value and one for each element of a repeated one; its
size is the sum of the sizes of the records (`length_encoding`).
-/

namespace Mpubsub.Proto

open Mpubsub.Lib Mpubsub.Lib.Protobuf

/-- The value on the wire. -/
def FieldType.wireValue : (type : FieldType) → type.Cpp → WireValue
  | bool, v => .varint (Bool.toUInt64 v)
  | int32, v => .varint (Int32.toInt64 v).toUInt64
  | int64, v => .varint (Int64.toUInt64 v)
  | uint32, v => .varint (UInt32.toUInt64 v)
  | uint64, v => .varint v
  | sint32, v => .varint (zigzag32 v).toUInt64
  | sint64, v => .varint (zigzag64 v)
  | float, v => .fixed32 v
  | string, v => .len v
  | bytes, v => .len v

theorem toBool_toUInt64 (b : Bool) : (b.toUInt64 != 0) = b := by cases b <;> rfl

/-- A member of a struct, with the type and the tag of its field. -/
inductive Member where
  | singular (type : FieldType) (fieldId : UInt32) (value : type.Cpp)
  | repeated (type : FieldType) (fieldId : UInt32) (values : List type.Cpp)

namespace Member

/-- The statement that encodes the member. -/
def call : Member → EncodeCall
  | singular type fieldId _ => ⟨type, fieldId, false⟩
  | repeated type fieldId _ => ⟨type, fieldId, true⟩

/-- The standard encoding: a singular member is left out if it has its default value. -/
def encoding : Member → Bytes
  | singular type fieldId value =>
    if value = type.default then [] else record fieldId (type.wireValue value)
  | repeated type fieldId values =>
    values.flatMap fun value => record fieldId (type.wireValue value)

def encodedSize : Member → Nat
  | singular type fieldId value =>
    if value = type.default then 0 else recordSize fieldId (type.wireValue value)
  | repeated type fieldId values =>
    (values.map fun value => recordSize fieldId (type.wireValue value)).sum

@[simp] theorem length_encoding (m : Member) : m.encoding.length = m.encodedSize := by
  cases m with
  | singular type fieldId value =>
    simp only [encoding, encodedSize]
    split
    · rfl
    · exact length_record ..
  | repeated type fieldId values =>
    simp only [encoding, encodedSize, List.length_flatMap, length_record]

end Member

/-- A value of the struct generated for a message. -/
structure Struct (msg : Message) where
  members : List Member
  shape : emitEncodeCalls msg = some (members.map Member.call)

namespace Struct

variable {msg : Message}

/-- The standard encoding of a struct. -/
def encoding (s : Struct msg) : Bytes := s.members.flatMap Member.encoding

def encodedSize (s : Struct msg) : Nat := (s.members.map Member.encodedSize).sum

@[simp] theorem length_encoding (s : Struct msg) : s.encoding.length = s.encodedSize := by
  simp only [encoding, encodedSize, List.length_flatMap, Member.length_encoding]

end Struct

end Mpubsub.Proto
