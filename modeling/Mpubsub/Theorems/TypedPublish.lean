import Mpubsub.Node.PublishTyped

/-!
# Typed publishing and the end of the array

`publish<T>` leaves the size check to `publish`, which runs when `encode_to` has
already written. So the array is kept exactly for the values whose encoding fits
behind the `SCHEMA_ID` (`typed_publish_iff`); for those, what is sent is
`SCHEMA_ID` and encoding.
-/

namespace Mpubsub.Theorems

open Mpubsub.Lib Mpubsub.Wire Mpubsub.Proto Mpubsub.Node

variable {κ : Type} {msg : Message}

/-- `encode_to` leaves `pos`, which only moves forward, within `out + max_len`, and the call
returns false without sending, or sends exactly `SCHEMA_ID` and encoding. -/
structure StaysInBuffer (enc : ProtoEncode) (node : MulticastPubSub κ) (env : PublishEnv)
    (mem : Mem) (topic : Bytes) (s : Struct msg) : Prop where
  pos_le : (encodeTyped enc s mem).pos ≤ SCHEMA_ID_LEN + (MAX_PAYLOAD - SCHEMA_ID_LEN)
  refuses_or_sends : (node.publishTyped env enc mem topic s).2 = ([], false) ∨
    (node.publishTyped env enc mem topic s).2.1 =
      [⟨node.datagram env topic (storeU16le (schemaId msg) ++ s.encoding) .PROTOBUF,
        topicToGroup topic node.scope⟩]

/-- A message with one string. -/
def textMessage : Message := ⟨"text", [⟨"value", "string", 1, false⟩]⟩

theorem validate_textMessage : validate textMessage = .ok () := by decide +kernel

/-- A value of its struct. -/
def text (value : Bytes) : Struct textMessage where
  members := [.singular .string 1 value]
  shape := by
    have h : emitEncodeCalls textMessage = some [⟨.string, 1, false⟩] := by decide +kernel
    exact h

/-- A text of 1300 bytes is written past the end of the array. -/
theorem long_text_overruns :
    ¬∀ (msg : Message) (s : Struct msg), validate msg = .ok () →
      StaysInBuffer .standard ({ socket := true } : MulticastPubSub Nat) {} (fun _ => 0) [116] s := by
  intro h
  have hpos := (h textMessage (text (List.replicate 1300 65)) validate_textMessage).pos_le
  rw [pos_encodeTyped ProtoEncode.standard_standard] at hpos
  revert hpos
  decide +kernel

/-- For every message that validates there is an `encode_to`, and a typed publish of a value
stays in its buffer exactly when the value's encoding has at most
`MAX_PAYLOAD - SCHEMA_ID_LEN` bytes. -/
theorem typed_publish_iff (hvalid : validate msg = .ok ()) {enc : ProtoEncode}
    (henc : enc.Standard) :
    (∃ calls, emitEncodeCalls msg = some calls) ∧
      ∀ (s : Struct msg) (node : MulticastPubSub κ) (env : PublishEnv) (mem : Mem)
        (topic : Bytes),
        StaysInBuffer enc node env mem topic s ↔
          s.encodedSize ≤ MAX_PAYLOAD - SCHEMA_ID_LEN := by
  refine ⟨emitEncodeCalls_of_validate hvalid, ?_⟩
  intro s node env mem topic
  constructor
  · intro h
    have hpos := h.pos_le
    rw [pos_encodeTyped henc] at hpos
    exact Nat.le_of_add_le_add_left hpos
  · intro hsize
    constructor
    · rw [pos_encodeTyped henc]
      exact Nat.add_le_add_left hsize _
    · -- The array holds all of the payload, so what `publish` gets is what was encoded.
      rw [MulticastPubSub.publishTyped_eq henc]
      rcases node.publish_cases env topic (typedPayload s) .PROTOBUF with h | ⟨-, h⟩
      · exact .inl (congrArg Prod.snd h)
      · exact .inr (congrArg Prod.fst h)

/-- The text "hi" stays in the buffer. -/
theorem short_text_fits :
    StaysInBuffer .standard ({ socket := true } : MulticastPubSub Nat) {} (fun _ => 0) [116]
      (text [104, 105]) :=
  ((typed_publish_iff validate_textMessage ProtoEncode.standard_standard).2 _ _ _ _ _).2
    (by decide +kernel)

end Mpubsub.Theorems
