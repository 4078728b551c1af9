import Mpubsub.Lib.Rfc8439
import Mpubsub.Lib.Slice
import Mpubsub.Wire.Format

/-!
# Decoding in the bridge (`wire.go`)

`DecodePacket` parses a datagram and opens the body of an encrypted one. The
datagram is a slice of the receive buffer, and the payload of a plaintext packet
is a slice of that slice; the payload of an encrypted one is a slice of the
plaintext that `aead.Open` allocates. The AEAD is a third-party package and so a
parameter: `aeadOpen key nonce sealed aad`.

`decodePacket_read` says that the packet depends on nothing but the bytes of the
datagram, `decodePacket_eq_ok_iff` which datagrams are accepted.
-/

namespace Mpubsub.Bridge

open Mpubsub.Lib Mpubsub.Wire

/-- `cipher.AEAD.Open` under a key: nonce, sealed body and additional data to the
plaintext, or none if the tag does not fit. -/
abbrev AeadOpen := (key nonce sealed aad : Bytes) → Option Bytes

/-- What the package documents: `Open` is the decryption of RFC 8439, with the tag behind the
ciphertext. -/
def OpensRfc8439 (aeadOpen : AeadOpen) : Prop :=
  ∀ (key : Vector UInt8 32) (nonce : Vector UInt8 12) (aad ct : Bytes) (tag : Vector UInt8 16),
    ct.length ≤ 2 ^ 38 - 64 →
      aeadOpen key.toList nonce.toList (ct ++ tag.toList) aad =
        Rfc8439.decrypt key.toList nonce.toList aad ct tag.toList

/-- The errors of `DecodePacket`. -/
inductive DecodeError where
  | errTooShort
  | errBadMagic
  | errBadVersion
  | errUnknownEncoding
  | errLengthMismatch
  | errUnknownEncMode
  | errBodyLenMismatch
  | errEncryptedNoKey
  | keyLength (got : Nat)
  | errAuthFailed
deriving DecidableEq

/-- The text of an error. -/
def DecodeError.text : DecodeError → String
  | errTooShort => "datagram too short"
  | errBadMagic => "bad magic"
  | errBadVersion => "unsupported version"
  | errUnknownEncoding => "unknown encoding"
  | errLengthMismatch => "length mismatch"
  | errUnknownEncMode => "unknown enc_mode"
  | errBodyLenMismatch => "encrypted body length mismatch"
  | errEncryptedNoKey => "encrypted packet but no key configured"
  | keyLength got => "aead key must be 32 bytes, got " ++ toString got
  | errAuthFailed => "AEAD authentication failed (wrong key or tampered packet)"

/-- `DecodedPacket`. -/
structure DecodedPacket where
  topicCRC : UInt32
  encoding : Encoding
  encMode : EncMode
  wasEncrypted : Bool
  payload : Slice
  timestamp : UInt32 := 0
  nonce : UInt32 := 0
deriving DecidableEq

/-- The AEAD nonce of an encrypted datagram, and what follows it: ciphertext and tag. -/
def aeadNonce (data : Bytes) : Bytes := (data.drop HEADER_LEN).take AEAD_NONCE_LEN

def aeadSealed (data : Bytes) : Bytes := data.drop (HEADER_LEN + AEAD_NONCE_LEN)

/-- `DecodePacket`, for a datagram in a buffer that holds `mem`. -/
def decodePacket (aeadOpen : AeadOpen) (mem : Bytes) (datagram : Slice) (key : Option Bytes) :
    Except DecodeError DecodedPacket :=
  let data := datagram.read mem
  if data.length < HEADER_LEN then .error .errTooShort
  else if data.getD 0 0 ≠ MAGIC0 ∨ data.getD 1 0 ≠ MAGIC1 then .error .errBadMagic
  else if data.getD 2 0 ≠ VERSION then .error .errBadVersion
  else
    match Encoding.ofUInt8 (data.getD 3 0) with
    | none => .error .errUnknownEncoding
    | some enc =>
      match EncMode.ofUInt8 (data.getD 10 0) with
      | none => .error .errUnknownEncMode
      | some encMode =>
        let hdrCRC := loadU32leAt data 4
        let payloadLen := loadU16le (data.getD 8 0) (data.getD 9 0)
        match encMode with
        | .AEAD =>
          if data.length ≠ HEADER_LEN + aeadBodyLen payloadLen.toNat then
            .error .errBodyLenMismatch
          else
            match key with
            | none => .error .errEncryptedNoKey
            | some key =>
              if key.length ≠ 32 then .error (.keyLength key.length)
              else
                match aeadOpen key (aeadNonce data) (aeadSealed data) (data.take HEADER_LEN) with
                | none => .error .errAuthFailed
                | some plain =>
                  -- `Open` was given no destination, so the plaintext is a new slice.
                  .ok
                    { topicCRC := loadU32leAt plain 0, encoding := enc, encMode := .AEAD
                      wasEncrypted := true, payload := .owned (plain.drop AEAD_PREFIX_LEN)
                      timestamp := loadU32leAt plain 4
                      nonce := loadU32leAt (aeadNonce data) 0 }
        | .NONE =>
          if payloadLen.toNat + HEADER_LEN ≠ data.length then .error .errLengthMismatch
          else
            .ok
              { topicCRC := hdrCRC, encoding := enc, encMode := .NONE, wasEncrypted := false
                -- A slice of the datagram, so of the buffer it lies in.
                payload := datagram.drop HEADER_LEN }

/-! ## Reading the buffer -/

/-- The packet with its payload read and made its own. -/
def DecodedPacket.copied (mem : Bytes) (pkt : DecodedPacket) : DecodedPacket :=
  { pkt with payload := .owned (pkt.payload.read mem) }

@[simp] theorem DecodedPacket.copied_encoding (mem : Bytes) (pkt : DecodedPacket) :
    (pkt.copied mem).encoding = pkt.encoding := rfl

@[simp] theorem DecodedPacket.copied_payload (mem : Bytes) (pkt : DecodedPacket) :
    (pkt.copied mem).payload = .owned (pkt.payload.read mem) := rfl

/-- Decoding a datagram in the buffer and copying the payload is decoding a copy. -/
theorem decodePacket_read (aeadOpen : AeadOpen) (mem : Bytes) (datagram : Slice)
    (key : Option Bytes) :
    (decodePacket aeadOpen mem datagram key).map (·.copied mem) =
      decodePacket aeadOpen [] (.owned (datagram.read mem)) key := by
  unfold decodePacket
  dsimp only [Slice.read_owned]
  generalize hdata : datagram.read mem = data
  by_cases hlen : data.length < HEADER_LEN
  · rw [if_pos hlen, if_pos hlen]
    rfl
  rw [if_neg hlen, if_neg hlen]
  by_cases hmagic : data.getD 0 0 ≠ MAGIC0 ∨ data.getD 1 0 ≠ MAGIC1
  · rw [if_pos hmagic, if_pos hmagic]
    rfl
  rw [if_neg hmagic, if_neg hmagic]
  by_cases hversion : data.getD 2 0 ≠ VERSION
  · rw [if_pos hversion, if_pos hversion]
    rfl
  rw [if_neg hversion, if_neg hversion]
  cases Encoding.ofUInt8 (data.getD 3 0) with
  | none => rfl
  | some enc =>
    cases EncMode.ofUInt8 (data.getD 10 0) with
    | none => rfl
    | some enm =>
      simp only
      cases enm with
      | AEAD =>
        -- The same on both sides: what comes out of `Open` is no part of the buffer.
        simp only
        split
        · rfl
        split
        · rfl
        split
        · rfl
        split
        · rfl
        · rfl
      | NONE =>
        simp only
        split
        · rfl
        · simp only [Except.map, DecodedPacket.copied, Slice.read_drop, hdata]
          rfl

/-! ## What `DecodePacket` accepts -/

/-- The body of an encrypted datagram opens under the key to `plain`. -/
def Opens (aeadOpen : AeadOpen) (key : Option Bytes) (data plain : Bytes) : Prop :=
  ∃ k, key = some k ∧ k.length = 32 ∧
    aeadOpen k (aeadNonce data) (aeadSealed data) (data.take HEADER_LEN) = some plain

/-- The two kinds of datagrams that decode, and what they decode to. -/
inductive Decodes (aeadOpen : AeadOpen) (mem : Bytes) (datagram : Slice) (key : Option Bytes) :
    DecodedPacket → Prop where
  | plain {enc : Encoding}
      (header : HeaderValid (datagram.read mem) enc .NONE)
      (length : (datagram.read mem).length =
        HEADER_LEN + bodyLen .NONE (declaredLen (datagram.read mem)).toNat) :
      Decodes aeadOpen mem datagram key
        { topicCRC := loadU32leAt (datagram.read mem) 4, encoding := enc, encMode := .NONE
          wasEncrypted := false, payload := datagram.drop HEADER_LEN }
  | aead {enc : Encoding} {plain : Bytes}
      (header : HeaderValid (datagram.read mem) enc .AEAD)
      (length : (datagram.read mem).length =
        HEADER_LEN + bodyLen .AEAD (declaredLen (datagram.read mem)).toNat)
      (opens : Opens aeadOpen key (datagram.read mem) plain) :
      Decodes aeadOpen mem datagram key
        { topicCRC := loadU32leAt plain 0, encoding := enc, encMode := .AEAD
          wasEncrypted := true, payload := .owned (plain.drop AEAD_PREFIX_LEN)
          timestamp := loadU32leAt plain 4
          nonce := loadU32leAt (aeadNonce (datagram.read mem)) 0 }

section Acceptance

variable {aeadOpen : AeadOpen} {mem : Bytes} {datagram : Slice} {key : Option Bytes}
  {pkt : DecodedPacket}

theorem decodes_of_decodePacket (h : decodePacket aeadOpen mem datagram key = .ok pkt) :
    Decodes aeadOpen mem datagram key pkt := by
  unfold decodePacket at h
  simp only at h
  split at h
  · cases h
  rename_i hlen
  split at h
  · cases h
  rename_i hmagic
  split at h
  · cases h
  rename_i hversion
  rw [not_or, not_not, not_not] at hmagic
  split at h
  · cases h
  rename_i enc henc
  split at h
  · cases h
  rename_i enm henm
  have hvalid : HeaderValid (datagram.read mem) enc enm :=
    ⟨Nat.not_lt.mp hlen, hmagic.1, hmagic.2, not_not.mp hversion,
      Encoding.ofUInt8_eq_some_iff.mp henc, EncMode.ofUInt8_eq_some_iff.mp henm⟩
  cases enm with
  | AEAD =>
    simp only at h
    split at h
    · cases h
    rename_i hsize
    split at h
    · cases h
    rename_i k
    split at h
    · cases h
    rename_i hk
    split at h
    · cases h
    rename_i plain hopen
    cases h
    exact .aead hvalid (not_not.mp hsize) ⟨k, rfl, not_not.mp hk, hopen⟩
  | NONE =>
    simp only at h
    split at h
    · cases h
    rename_i hsize
    cases h
    exact .plain hvalid (by rw [Nat.add_comm]; exact (not_not.mp hsize).symm)

theorem decodePacket_of_decodes (h : Decodes aeadOpen mem datagram key pkt) :
    decodePacket aeadOpen mem datagram key = .ok pkt := by
  have hhead {enc : Encoding} {enm : EncMode} (hvalid : HeaderValid (datagram.read mem) enc enm) :
      ¬(datagram.read mem).length < HEADER_LEN ∧
        ¬((datagram.read mem).getD 0 0 ≠ MAGIC0 ∨ (datagram.read mem).getD 1 0 ≠ MAGIC1) ∧
        ¬(datagram.read mem).getD 2 0 ≠ VERSION :=
    ⟨Nat.not_lt.mpr hvalid.length,
      not_or.mpr ⟨not_not.mpr hvalid.magic0, not_not.mpr hvalid.magic1⟩,
      not_not.mpr hvalid.version⟩
  unfold decodePacket
  cases h with
  | plain hvalid hlength =>
    obtain ⟨hlen, hmagic, hversion⟩ := hhead hvalid
    simp only
    rw [if_neg hlen, if_neg hmagic, if_neg hversion,
      Encoding.ofUInt8_eq_some_iff.mpr hvalid.encoding,
      EncMode.ofUInt8_eq_some_iff.mpr hvalid.encMode]
    exact if_neg (by rw [not_not, Nat.add_comm]; exact hlength.symm)
  | aead hvalid hlength hopens =>
    obtain ⟨hlen, hmagic, hversion⟩ := hhead hvalid
    obtain ⟨k, rfl, hk, hopen⟩ := hopens
    simp only
    rw [if_neg hlen, if_neg hmagic, if_neg hversion,
      Encoding.ofUInt8_eq_some_iff.mpr hvalid.encoding,
      EncMode.ofUInt8_eq_some_iff.mpr hvalid.encMode]
    refine (if_neg (not_not.mpr hlength)).trans ?_
    rw [if_neg (not_not.mpr hk), hopen]

/-- **Acceptance.** -/
theorem decodePacket_eq_ok_iff :
    decodePacket aeadOpen mem datagram key = .ok pkt ↔ Decodes aeadOpen mem datagram key pkt :=
  ⟨decodes_of_decodePacket, decodePacket_of_decodes⟩

end Acceptance

end Mpubsub.Bridge
