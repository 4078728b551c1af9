import Mpubsub.Lib.Memory
import Mpubsub.Proto.Encoding
import Mpubsub.Node.Delivery

/-!
# Typed publishing (`multicast_pubsub.h`, generated `encode_to`)

`publish<T>` writes the `SCHEMA_ID` and then lets `encode_to` write behind it
into an array of `MAX_PAYLOAD` bytes. `encode_to` calls ESPHome's `ProtoEncode`
for one member after the other; in a release build nothing compares the write
position with the end of the array. The array lies in a memory without bounds,
so that what is written behind its end is visible.
-/

namespace Mpubsub.Node

open Mpubsub.Lib Mpubsub.Lib.Protobuf Mpubsub.Wire Mpubsub.Proto

variable {κ : Type} {msg : Message}

/-- `ProtoEncode`: `encode type c fieldId value force` is the call of the encoder for
`type`, which moves the write position `c`. -/
structure ProtoEncode where
  encode : (type : FieldType) → Cursor → UInt32 → type.Cpp → Bool → Cursor

namespace ProtoEncode

/-- Each call writes the complete standard encoding of its field: nothing for a default
value that is not forced, one record otherwise. -/
def Standard (enc : ProtoEncode) : Prop :=
  ∀ type c fieldId value force, enc.encode type c fieldId value force =
    c.write (if value = type.default ∧ force = false then []
      else record fieldId (type.wireValue value))

/-- The encoder that does just that. -/
def standard : ProtoEncode where
  encode type c fieldId value force :=
    c.write (if value = type.default ∧ force = false then []
      else record fieldId (type.wireValue value))

theorem standard_standard : standard.Standard := fun _ _ _ _ _ => rfl

/-- A statement of `encode_to`: elements of a repeated field are forced. -/
def encodeMember (enc : ProtoEncode) (c : Cursor) : Member → Cursor
  | .singular type fieldId value => enc.encode type c fieldId value false
  | .repeated type fieldId values =>
    values.foldl (fun c value => enc.encode type c fieldId value true) c

/-- `encode_to`: the memory and the final `pos`. `max_len` only marks the end for the
checks of a debug build. -/
def encodeTo (enc : ProtoEncode) (s : Struct msg) (out : Cursor) (_maxLen : Nat) : Cursor :=
  s.members.foldl enc.encodeMember out

/-- A statement writes the encoding of its member. -/
theorem encodeMember_eq {enc : ProtoEncode} (h : enc.Standard) (c : Cursor) (m : Member) :
    enc.encodeMember c m = c.write m.encoding := by
  cases m with
  | singular type fieldId value =>
    rw [encodeMember, h]
    simp only [Member.encoding, and_true]
  | repeated type fieldId values =>
    -- Every element is forced, so it has its record even where it is the default.
    apply Cursor.foldl_write
    intro c value
    rw [h]
    simp only [Bool.true_eq_false, and_false, if_false]

/-- `encode_to` writes the encoding of the struct. -/
theorem encodeTo_eq {enc : ProtoEncode} (h : enc.Standard) (s : Struct msg) (out : Cursor)
    (maxLen : Nat) : enc.encodeTo s out maxLen = out.write s.encoding :=
  Cursor.foldl_write (encodeMember_eq h) out s.members

end ProtoEncode

def SCHEMA_ID_LEN : Nat := 2

/-- The state of `publish<T>`'s array when `encode_to` has returned; `mem` is the memory at
the array before. -/
def encodeTyped (enc : ProtoEncode) (s : Struct msg) (mem : Mem) : Cursor :=
  enc.encodeTo s ⟨mem.store 0 (storeU16le (schemaId msg)), SCHEMA_ID_LEN⟩
    (MAX_PAYLOAD - SCHEMA_ID_LEN)

/-- `publish<T>`: the new state, the datagrams handed to the socket, and the result. -/
def MulticastPubSub.publishTyped (node : MulticastPubSub κ) (env : PublishEnv)
    (enc : ProtoEncode) (mem : Mem) (topic : Bytes) (s : Struct msg) :
    MulticastPubSub κ × List Sent × Bool :=
  let c := encodeTyped enc s mem
  let encoded := c.pos - SCHEMA_ID_LEN
  node.publish env topic (c.mem.load 0 (SCHEMA_ID_LEN + encoded)) .PROTOBUF

/-- `SCHEMA_ID` and the encoding, one behind the other. -/
def typedPayload (s : Struct msg) : Bytes := storeU16le (schemaId msg) ++ s.encoding

/-- What is in the array when `encode_to` has returned, and behind it if it is too small. -/
theorem encodeTyped_eq {enc : ProtoEncode} (h : enc.Standard) (s : Struct msg) (mem : Mem) :
    encodeTyped enc s mem = Cursor.write ⟨mem, 0⟩ (typedPayload s) := by
  rw [encodeTyped, ProtoEncode.encodeTo_eq h, typedPayload, ← Cursor.write_write]
  rfl

/-- The position when `encode_to` has returned. -/
theorem pos_encodeTyped {enc : ProtoEncode} (h : enc.Standard) (s : Struct msg) (mem : Mem) :
    (encodeTyped enc s mem).pos = SCHEMA_ID_LEN + s.encodedSize := by
  rw [encodeTyped, ProtoEncode.encodeTo_eq h, Cursor.pos_write, Struct.length_encoding]

/-- With a standard encoder, a typed publish is a publish of `SCHEMA_ID` and encoding. -/
theorem MulticastPubSub.publishTyped_eq {enc : ProtoEncode} (h : enc.Standard)
    (node : MulticastPubSub κ) (env : PublishEnv) (mem : Mem) (topic : Bytes) (s : Struct msg) :
    node.publishTyped env enc mem topic s = node.publish env topic (typedPayload s) .PROTOBUF := by
  have hlen : SCHEMA_ID_LEN + (SCHEMA_ID_LEN + s.encodedSize - SCHEMA_ID_LEN) =
      (typedPayload s).length := by
    rw [typedPayload, List.length_append, Struct.length_encoding]
    exact congrArg (SCHEMA_ID_LEN + ·) (Nat.add_sub_cancel_left ..)
  simp only [publishTyped, pos_encodeTyped h, hlen]
  rw [encodeTyped_eq h, Cursor.write, Mem.load_store]

end Mpubsub.Node
