import Mpubsub.Reference.Aead
import Mpubsub.Lib.Crc
import Mpubsub.Lib.Utf8
import Mpubsub.Wire.Topic

/-!
# The Python reference codec (`wire.py`)

`encode` and `decode` with the pure-Python AEAD, over unbounded integers, and the
errors they raise with their texts. They are compared with the codecs of the node
and of the bridge in `Theorems.SenderAgreement` and `Theorems.ReceiverAgreement`.
-/

namespace Mpubsub.Reference

open Mpubsub.Lib

def MAGIC : Bytes := [77, 80]
def VERSION : UInt8 := 0x01
def HEADER_LEN : Nat := 12
def MAX_DATAGRAM : Nat := 1232
def MAX_PAYLOAD : Nat := MAX_DATAGRAM - HEADER_LEN
def ENCODING_RAW : Nat := 0x00
def ENCODING_PROTOBUF : Nat := 0x01
def KNOWN_ENCODINGS : List Nat := [ENCODING_RAW, ENCODING_PROTOBUF]
def ENC_MODE_NONE : Nat := 0x00
def ENC_MODE_AEAD : Nat := 0x01
def KNOWN_ENC_MODES : List Nat := [ENC_MODE_NONE, ENC_MODE_AEAD]
def AEAD_NONCE_LEN : Nat := 12
def AEAD_TAG_LEN : Nat := 16
def AEAD_PREFIX_LEN : Nat := 8

/-- `topic_crc32`. -/
def topicCrc32 (topic : String) : Nat :=
  (Crc.crc32 ((utf8 topic).map UInt8.toBitVec)).toNat &&& 0xFFFFFFFF

/-- `topic_to_group`. -/
def topicToGroup (topic : String) (scope : Wire.Scope) : Wire.GroupAddr :=
  let digest := (Wire.Sha256.hash (utf8 topic)).take 14
  let second := ((0x1 : UInt8) <<< 4) ||| (scope.toUInt8 &&& 0xF)
  Vector.ofFn fun i => ([0xFF, second] ++ digest).getD i 0

/-- `aead_body_len`. -/
def aeadBodyLen (payloadLen : Nat) : Nat :=
  AEAD_NONCE_LEN + AEAD_PREFIX_LEN + payloadLen + AEAD_TAG_LEN

/-- `_build_header`. -/
def buildHeader (headerCrc encoding payloadLen encMode : Nat) : Bytes :=
  MAGIC ++ [VERSION, UInt8.ofNat (encoding &&& 0xFF)] ++
    (toBytesLE 4 headerCrc ++ toBytesLE 2 payloadLen) ++ [UInt8.ofNat encMode, 0]

/-! ## `encode` -/

/-- The `ValueError`s of `encode`. -/
inductive EncodeError where
  | payloadTooLarge (len : Nat)
  | unknownEncoding (encoding : Nat)
  | keyLength (len : Nat)
  | nonceLength (len : Nat)
  | encryptedTooLarge (len bodyLen : Nat)
deriving DecidableEq

/-- The text of an error; `hex` is the format `#04x`. -/
def EncodeError.text (hex : Nat → String) : EncodeError → String
  | payloadTooLarge len =>
    "payload too large (" ++ toString len ++ " > " ++ toString MAX_PAYLOAD ++ ")"
  | unknownEncoding encoding => "unknown encoding: " ++ hex encoding
  | keyLength len => "key must be 32 bytes, got " ++ toString len
  | nonceLength len =>
    "nonce must be " ++ toString AEAD_NONCE_LEN ++ " bytes, got " ++ toString len
  | encryptedTooLarge len bodyLen =>
    "encrypted payload too large (" ++ toString len ++ " -> " ++ toString bodyLen ++ "-byte body)"

/-- `encode`. The defaults are taken from the clock, `time`, and from `urandom`. -/
def encode (time : Nat) (urandom : Bytes) (topic : String) (payload : Bytes) (encoding : Nat)
    (key : Option Bytes) (timestamp : Option Nat) (nonce : Option Bytes) :
    Except EncodeError Bytes :=
  if payload.length > MAX_PAYLOAD then .error (.payloadTooLarge payload.length)
  else if encoding ∉ KNOWN_ENCODINGS then .error (.unknownEncoding encoding)
  else
    let crc := topicCrc32 topic
    match key with
    | none => .ok (buildHeader crc encoding payload.length ENC_MODE_NONE ++ payload)
    | some key =>
      if key.length ≠ 32 then .error (.keyLength key.length)
      else
        let timestamp := timestamp.getD time
        let nonce := nonce.getD urandom
        if nonce.length ≠ AEAD_NONCE_LEN then .error (.nonceLength nonce.length)
        else
          let bodyLen := aeadBodyLen payload.length
          if HEADER_LEN + bodyLen > MAX_DATAGRAM then
            .error (.encryptedTooLarge payload.length bodyLen)
          else
            let header := buildHeader 0 encoding payload.length ENC_MODE_AEAD
            let plaintext := toBytesLE 4 crc ++ toBytesLE 4 (timestamp &&& 0xFFFFFFFF) ++ payload
            let (ct, tag) := aeadEncryptPy key nonce plaintext header
            .ok (header ++ nonce ++ ct ++ tag)

/-! ## `decode` -/

/-- The text of a `WireError`; `repr` is the format `!r` of bytes, `hex` is `#04x`. -/
def WireError.text (repr : Bytes → String) (hex : UInt8 → String) : WireError → String
  | tooShort len =>
    "datagram too short (" ++ toString len ++ " < " ++ toString HEADER_LEN ++ ")"
  | badMagic magic => "bad magic " ++ repr magic
  | unsupportedVersion version => "unsupported version " ++ toString version.toNat
  | unknownEncoding encoding => "unknown encoding: " ++ hex encoding
  | unknownEncMode encMode => "unknown enc_mode: " ++ hex encMode
  | encryptedLengthMismatch payloadLen bodyLen got =>
    "encrypted length mismatch: header says " ++ toString payloadLen ++ " -> " ++
      toString bodyLen ++ "-byte body, datagram has " ++ toString got
  | encryptedNoKey => "encrypted packet but no key supplied"
  | authFailed => "AEAD authentication failed (wrong key or tampered packet)"
  | lengthMismatch payloadLen got =>
    "length mismatch: header says " ++ toString payloadLen ++ ", datagram has " ++ toString got

/-- What `decode` raises: a `WireError`, or the plain `ValueError` for a key of another length,
or `struct.error` for an unpack of the wrong number of bytes. -/
inductive DecodeException where
  | wireError (error : WireError)
  | keyLength (len : Nat)
  | structError (len : Nat)
deriving DecidableEq

/-- `DecodedMessage`. -/
structure DecodedMessage where
  topicCrc : Nat
  encoding : Nat
  payload : Bytes
  timestamp : Option Nat := none
  nonce : Option Nat := none
  wasEncrypted : Bool := false
deriving DecidableEq

/-- `decode`. -/
def decode (data : Bytes) (key : Option Bytes) : Except DecodeException DecodedMessage :=
  if data.length < HEADER_LEN then .error (.wireError (.tooShort data.length))
  else if slice data 0 2 ≠ MAGIC then .error (.wireError (.badMagic (slice data 0 2)))
  else
    let version := data.getD 2 0
    if version ≠ VERSION then .error (.wireError (.unsupportedVersion version))
    else
      let encoding := data.getD 3 0
      if encoding.toNat ∉ KNOWN_ENCODINGS then .error (.wireError (.unknownEncoding encoding))
      else
        let encMode := data.getD 10 0
        if encMode.toNat ∉ KNOWN_ENC_MODES then .error (.wireError (.unknownEncMode encMode))
        else
          let headerCrc := ofBytesLE (slice data 4 4)
          let payloadLen := ofBytesLE (slice data 8 2)
          if encMode.toNat = ENC_MODE_AEAD then
            let expected := HEADER_LEN + aeadBodyLen payloadLen
            if data.length ≠ expected then
              .error (.wireError (.encryptedLengthMismatch payloadLen (expected - HEADER_LEN)
                (data.length - HEADER_LEN)))
            else
              match key with
              | none => .error (.wireError .encryptedNoKey)
              | some key =>
                if key.length ≠ 32 then .error (.keyLength key.length)
                else
                  let aeadNonce := slice data HEADER_LEN AEAD_NONCE_LEN
                  let ct := slice data (HEADER_LEN + AEAD_NONCE_LEN)
                    (data.length - AEAD_TAG_LEN - (HEADER_LEN + AEAD_NONCE_LEN))
                  let tag := data.drop (data.length - AEAD_TAG_LEN)
                  let aad := slice data 0 HEADER_LEN
                  match aeadDecryptPy key aeadNonce ct tag aad with
                  | .error error => .error (.wireError error)
                  | .ok plaintext =>
                    let header := slice plaintext 0 AEAD_PREFIX_LEN
                    if header.length ≠ 8 then .error (.structError header.length)
                    else
                      .ok
                        { topicCrc := unpackI header 0
                          encoding := encoding.toNat
                          payload := plaintext.drop AEAD_PREFIX_LEN
                          timestamp := some (unpackI header 1)
                          nonce := some (ofBytesLE (slice aeadNonce 0 4))
                          wasEncrypted := true }
          else if HEADER_LEN + payloadLen ≠ data.length then
            .error (.wireError (.lengthMismatch payloadLen (data.length - HEADER_LEN)))
          else
            .ok { topicCrc := headerCrc, encoding := encoding.toNat, payload := data.drop HEADER_LEN }

end Mpubsub.Reference
