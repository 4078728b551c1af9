import Mpubsub.Lib.Crc
import Mpubsub.Bridge.Wire

/-!
# Encoding in the bridge (`wire.go`)

`EncodePacket` builds the datagram of a publish. As for decoding, the AEAD is the
third-party package's: `aeadSeal key nonce plaintext aad` is what `Seal` appends
to the nonce.
-/

namespace Mpubsub.Bridge

open Mpubsub.Lib Mpubsub.Wire

/-- `cipher.AEAD.Seal` under a key: ciphertext and tag. -/
abbrev AeadSeal := (key nonce plaintext aad : Bytes) → Bytes

/-- What the package documents: `Seal` is the encryption of RFC 8439. -/
def SealsRfc8439 (aeadSeal : AeadSeal) : Prop :=
  ∀ (key : Vector UInt8 32) (nonce : Vector UInt8 12) (aad plain : Bytes),
    plain.length ≤ 2 ^ 38 - 64 →
      aeadSeal key.toList nonce.toList plain aad =
        (Rfc8439.encrypt key.toList nonce.toList aad plain).1 ++
          (Rfc8439.encrypt key.toList nonce.toList aad plain).2

/-- `TopicCRC32`. -/
def topicCRC32 (topic : Bytes) : UInt32 := ⟨Crc.crc32 (topic.map UInt8.toBitVec)⟩

/-- `writeHeader`. -/
def writeHeader (encoding : UInt8) (hdrCRC : UInt32) (payloadLen : Nat) (encMode : UInt8) :
    Bytes :=
  [MAGIC0, MAGIC1, VERSION, encoding] ++ storeU32le hdrCRC ++
    storeU16le (UInt16.ofNat payloadLen) ++ [encMode, 0]

/-- The errors of `EncodePacket`. -/
inductive EncodeError where
  | unknownEncoding (encoding : UInt8)
  | payloadTooLarge (len : Nat)
  | keyLength (got : Nat)
  | nonceLength (got : Nat)
  | encryptedTooLarge (len bodyLen : Nat)
deriving DecidableEq

/-- The text of an error; `hex` is the format `%02x`. -/
def EncodeError.text (hex : UInt8 → String) : EncodeError → String
  | unknownEncoding encoding => "unknown encoding 0x" ++ hex encoding
  | payloadTooLarge len =>
    "payload too large (" ++ toString len ++ " > " ++ toString MAX_PAYLOAD ++ ")"
  | keyLength got => "aead key must be 32 bytes, got " ++ toString got
  | nonceLength got =>
    "aead nonce must be " ++ toString AEAD_NONCE_LEN ++ " bytes, got " ++ toString got
  | encryptedTooLarge len bodyLen =>
    "encrypted payload too large (" ++ toString len ++ " -> " ++ toString bodyLen ++ "-byte body)"

/-- `EncodePacket`. -/
def encodePacket (aeadSeal : AeadSeal) (topic payload : Bytes) (encoding : UInt8)
    (key : Option Bytes) (timestamp : UInt32) (nonce : Bytes) : Except EncodeError Bytes :=
  if encoding ≠ Encoding.RAW.toUInt8 ∧ encoding ≠ Encoding.PROTOBUF.toUInt8 then
    .error (.unknownEncoding encoding)
  else
    let crc := topicCRC32 topic
    match key with
    | none =>
      if payload.length > MAX_PAYLOAD then .error (.payloadTooLarge payload.length)
      else .ok (writeHeader encoding crc payload.length EncMode.NONE.toUInt8 ++ payload)
    | some key =>
      if key.length ≠ 32 then .error (.keyLength key.length)
      else if nonce.length ≠ AEAD_NONCE_LEN then .error (.nonceLength nonce.length)
      else if HEADER_LEN + aeadBodyLen payload.length > MAX_DATAGRAM then
        .error (.encryptedTooLarge payload.length (aeadBodyLen payload.length))
      else
        let header := writeHeader encoding 0 payload.length EncMode.AEAD.toUInt8
        let plaintext := storeU32le crc ++ storeU32le timestamp ++ payload
        .ok (header ++ nonce ++ aeadSeal key nonce plaintext header)

end Mpubsub.Bridge
