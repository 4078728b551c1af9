import Mpubsub.Wire.ChaCha20Poly1305

/-!
# The packet format (`wire_format.h`, `wire_format.cpp`)

A datagram is a 12-byte header and a body. `decode` accepts it exactly when the
header is well formed and the length the header declares is the length of the
datagram (`decode_eq_ok_iff`), so it is left with a header written by
`encode_header` and a body of the right length (`decode_encodeHeader`).
-/

namespace Mpubsub.Wire

open Mpubsub.Lib

def MAGIC0 : UInt8 := 77
def MAGIC1 : UInt8 := 80
def VERSION : UInt8 := 0x01
def HEADER_LEN : Nat := 12
def MAX_DATAGRAM : Nat := 1232
def MAX_PAYLOAD : Nat := MAX_DATAGRAM - HEADER_LEN

/-- `Encoding`. -/
inductive Encoding where
  | RAW
  | PROTOBUF
deriving DecidableEq

def Encoding.toUInt8 : Encoding → UInt8
  | RAW => 0x00
  | PROTOBUF => 0x01

/-- `is_known_encoding` and the cast of a known value. -/
def Encoding.ofUInt8 (value : UInt8) : Option Encoding :=
  if value = 0x00 then some RAW else if value = 0x01 then some PROTOBUF else none

/-- `EncMode`. -/
inductive EncMode where
  | NONE
  | AEAD
deriving DecidableEq

def EncMode.toUInt8 : EncMode → UInt8
  | NONE => 0x00
  | AEAD => 0x01

/-- `is_known_enc_mode` and the cast of a known value. -/
def EncMode.ofUInt8 (value : UInt8) : Option EncMode :=
  if value = 0x00 then some NONE else if value = 0x01 then some AEAD else none

/-- Bytes ahead of the payload in the AEAD plaintext: CRC and timestamp. -/
def AEAD_PREFIX_LEN : Nat := 8

/-- `aead_body_len`: nonce, prefix, payload, tag. -/
def aeadBodyLen (payloadLen : Nat) : Nat :=
  AEAD_NONCE_LEN + AEAD_PREFIX_LEN + payloadLen + AEAD_TAG_LEN

/-- The body length of a packet with `payloadLen` bytes of payload. -/
def bodyLen (mode : EncMode) (payloadLen : Nat) : Nat :=
  match mode with
  | .NONE => payloadLen
  | .AEAD => aeadBodyLen payloadLen

/-- `DecodeError`, less `OK`. -/
inductive DecodeError where
  | TOO_SHORT
  | BAD_MAGIC
  | BAD_VERSION
  | UNKNOWN_ENCODING
  | LENGTH_MISMATCH
  | UNKNOWN_ENC_MODE
  | CIPHERTEXT_TOO_SHORT
deriving DecidableEq

/-- `DecodedPacket`. -/
structure DecodedPacket where
  topicCrc : UInt32
  encoding : Encoding
  encMode : EncMode
  plaintextLen : UInt16
  payload : Bytes
deriving DecidableEq

/-- `encode_header`. -/
def encodeHeader (topicCrc : UInt32) (encoding : Encoding) (payloadLen : UInt16)
    (encMode : EncMode) : Bytes :=
  -- The CRC of an encrypted packet never shows in the header.
  let topicCrc := if encMode ≠ .NONE then 0 else topicCrc
  [MAGIC0, MAGIC1, VERSION, encoding.toUInt8] ++ storeU32le topicCrc ++
    storeU16le payloadLen ++ [encMode.toUInt8, 0]

/-- `decode`. -/
def decode (data : Bytes) : Except DecodeError DecodedPacket :=
  if data.length < HEADER_LEN then .error .TOO_SHORT
  else if data.getD 0 0 ≠ MAGIC0 ∨ data.getD 1 0 ≠ MAGIC1 then .error .BAD_MAGIC
  else if data.getD 2 0 ≠ VERSION then .error .BAD_VERSION
  else
    match Encoding.ofUInt8 (data.getD 3 0) with
    | none => .error .UNKNOWN_ENCODING
    | some enc =>
      match EncMode.ofUInt8 (data.getD 10 0) with
      | none => .error .UNKNOWN_ENC_MODE
      | some enm =>
        let crc := loadU32leAt data 4
        let payloadLen := loadU16le (data.getD 8 0) (data.getD 9 0)
        let packet : DecodedPacket :=
          { topicCrc := crc, encoding := enc, encMode := enm, plaintextLen := payloadLen
            payload := data.drop HEADER_LEN }
        match enm with
        | .AEAD =>
          if data.length ≠ HEADER_LEN + aeadBodyLen payloadLen.toNat then
            .error .CIPHERTEXT_TOO_SHORT
          else .ok packet
        | .NONE =>
          if HEADER_LEN + payloadLen.toNat ≠ data.length then .error .LENGTH_MISMATCH
          else .ok packet

/-! ## What `decode` accepts -/

/-- A header with the constants of this version, a known encoding and a known
encryption mode. -/
structure HeaderValid (data : Bytes) (enc : Encoding) (enm : EncMode) : Prop where
  length : HEADER_LEN ≤ data.length
  magic0 : data.getD 0 0 = MAGIC0
  magic1 : data.getD 1 0 = MAGIC1
  version : data.getD 2 0 = VERSION
  encoding : data.getD 3 0 = enc.toUInt8
  encMode : data.getD 10 0 = enm.toUInt8

/-- The payload length a header declares. -/
def declaredLen (data : Bytes) : UInt16 := loadU16le (data.getD 8 0) (data.getD 9 0)

/-- The packet that is read from a datagram with a valid header. -/
def packetOf (data : Bytes) (enc : Encoding) (enm : EncMode) : DecodedPacket :=
  { topicCrc := loadU32leAt data 4, encoding := enc, encMode := enm
    plaintextLen := declaredLen data, payload := data.drop HEADER_LEN }

theorem Encoding.ofUInt8_eq_some_iff {value : UInt8} {enc : Encoding} :
    Encoding.ofUInt8 value = some enc ↔ value = enc.toUInt8 := by
  unfold Encoding.ofUInt8
  constructor
  · intro h
    split at h
    · cases h; assumption
    · split at h
      · cases h; assumption
      · cases h
  · rintro rfl
    cases enc <;> decide

theorem EncMode.ofUInt8_eq_some_iff {value : UInt8} {enm : EncMode} :
    EncMode.ofUInt8 value = some enm ↔ value = enm.toUInt8 := by
  unfold EncMode.ofUInt8
  constructor
  · intro h
    split at h
    · cases h; assumption
    · split at h
      · cases h; assumption
      · cases h
  · rintro rfl
    cases enm <;> decide

/-- With a valid header, only the length is left to check. -/
theorem decode_of_headerValid {data : Bytes} {enc : Encoding} {enm : EncMode}
    (h : HeaderValid data enc enm)
    (hlen : data.length = HEADER_LEN + bodyLen enm (declaredLen data).toNat) :
    decode data = .ok (packetOf data enc enm) := by
  unfold decode
  rw [if_neg (Nat.not_lt.mpr h.length),
    if_neg (not_or.mpr ⟨not_not.mpr h.magic0, not_not.mpr h.magic1⟩),
    if_neg (not_not.mpr h.version), Encoding.ofUInt8_eq_some_iff.mpr h.encoding,
    EncMode.ofUInt8_eq_some_iff.mpr h.encMode]
  cases enm with
  | NONE => exact if_neg (by rw [hlen]; exact fun h => h rfl)
  | AEAD => exact if_neg (fun h => h hlen)

/-- **Acceptance.** A datagram decodes exactly when its header is valid and it is
as long as the header declares. -/
theorem decode_eq_ok_iff {data : Bytes} {pkt : DecodedPacket} :
    decode data = .ok pkt ↔
      HeaderValid data pkt.encoding pkt.encMode ∧
        pkt = packetOf data pkt.encoding pkt.encMode ∧
        data.length = HEADER_LEN + bodyLen pkt.encMode pkt.plaintextLen.toNat := by
  constructor
  · intro h
    unfold decode at h
    split at h
    · cases h
    rename_i hlen
    split at h
    · cases h
    rename_i hmagic
    split at h
    · cases h
    rename_i hversion
    rw [not_or, not_not, not_not] at hmagic
    cases henc : Encoding.ofUInt8 (data.getD 3 0) with
    | none => rw [henc] at h; cases h
    | some enc =>
      cases henm : EncMode.ofUInt8 (data.getD 10 0) with
      | none => rw [henc, henm] at h; cases h
      | some enm =>
        have hvalid : HeaderValid data enc enm :=
          ⟨Nat.not_lt.mp hlen, hmagic.1, hmagic.2, not_not.mp hversion,
            Encoding.ofUInt8_eq_some_iff.mp henc, EncMode.ofUInt8_eq_some_iff.mp henm⟩
        rw [henc, henm] at h
        cases enm with
        | NONE =>
          simp only at h
          split at h
          · cases h
          · rename_i hsize
            cases h
            exact ⟨hvalid, rfl, (not_not.mp hsize).symm⟩
        | AEAD =>
          simp only at h
          split at h
          · cases h
          · rename_i hsize
            cases h
            exact ⟨hvalid, rfl, not_not.mp hsize⟩
  · rintro ⟨hvalid, hpkt, hlen⟩
    have hdecl : pkt.plaintextLen = declaredLen data := congrArg DecodedPacket.plaintextLen hpkt
    rw [hdecl] at hlen
    rw [decode_of_headerValid hvalid hlen, ← hpkt]

/-! ## A header that was written by `encode_header` -/

@[simp] theorem length_encodeHeader (crc : UInt32) (enc : Encoding) (len : UInt16)
    (enm : EncMode) : (encodeHeader crc enc len enm).length = HEADER_LEN := rfl

/-- A written header followed by a body of the declared length decodes to what was
written. -/
theorem decode_encodeHeader (crc : UInt32) (enc : Encoding) (len : UInt16) (enm : EncMode)
    {body : Bytes} (hbody : body.length = bodyLen enm len.toNat) :
    decode (encodeHeader crc enc len enm ++ body) =
      .ok { topicCrc := if enm ≠ .NONE then 0 else crc, encoding := enc, encMode := enm
            plaintextLen := len, payload := body } := by
  have hdecl : declaredLen (encodeHeader crc enc len enm ++ body) = len := by
    simp [declaredLen, encodeHeader, storeU32le, storeU16le]
  have hvalid : HeaderValid (encodeHeader crc enc len enm ++ body) enc enm := by
    refine ⟨?_, rfl, rfl, rfl, rfl, rfl⟩
    rw [List.length_append, length_encodeHeader]
    omega
  rw [decode_of_headerValid hvalid (by rw [hdecl, List.length_append, hbody]; rfl)]
  refine congrArg Except.ok ?_
  unfold packetOf
  rw [hdecl, ← length_encodeHeader crc enc len enm, List.drop_left]
  simp [loadU32leAt, encodeHeader, storeU32le]

end Mpubsub.Wire
