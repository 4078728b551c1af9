import Mpubsub.Node.Receive
import Mpubsub.Bridge.Wire
import Mpubsub.Wire.Aead
import Mpubsub.Reference.Wire

/-!
# All receivers accept the same datagrams

Node, bridge and Python client take a datagram apart in their own ways. Each is
compared with `opened`: the header and length checks, and RFC 8439 for an
encrypted body (`node_receive`, `bridge_decodePacket`, `reference_decode`).
-/

namespace Mpubsub.Theorems

open Mpubsub.Lib Mpubsub.Wire Mpubsub.Node
open Mpubsub.Reference (DecodedMessage)

/-! ## The parts of an encrypted datagram -/

def nonceOf (raw : Bytes) : Bytes := (raw.drop 12).take 12
def ciphertextOf (raw : Bytes) : Bytes := (raw.drop 24).take (raw.length - 40)
def tagOf (raw : Bytes) : Bytes := raw.drop (raw.length - 16)

/-- The message in a plaintext. -/
def messageOf (encoding : Encoding) (nonce plain : Bytes) : DecodedMessage :=
  { topicCrc := ofBytesLE (plain.take 4)
    encoding := encoding.toUInt8.toNat
    payload := plain.drop 8
    timestamp := some (ofBytesLE ((plain.drop 4).take 4))
    nonce := some (ofBytesLE (nonce.take 4))
    wasEncrypted := true }

/-- What a datagram says to the holder of a key, by RFC 8439. -/
def opened (key : Option Bytes) (raw : Bytes) : Option DecodedMessage :=
  match Wire.decode raw with
  | .error _ => none
  | .ok pkt =>
    match pkt.encMode with
    | .NONE =>
      some
        { topicCrc := pkt.topicCrc.toNat
          encoding := pkt.encoding.toUInt8.toNat
          payload := pkt.payload }
    | .AEAD =>
      key.bind fun key =>
        (Rfc8439.decrypt key (nonceOf raw) (raw.take 12) (ciphertextOf raw) (tagOf raw)).map
          (messageOf pkt.encoding (nonceOf raw))

section
variable {raw : Bytes} {n : Nat}

theorem length_nonceOf (h : raw.length = HEADER_LEN + aeadBodyLen n) :
    (nonceOf raw).length = 12 := by
  simp only [HEADER_LEN, aeadBodyLen, AEAD_NONCE_LEN, AEAD_PREFIX_LEN, AEAD_TAG_LEN] at h
  rw [nonceOf, List.length_take, List.length_drop]
  omega

theorem length_ciphertextOf (h : raw.length = HEADER_LEN + aeadBodyLen n) :
    (ciphertextOf raw).length = 8 + n := by
  simp only [HEADER_LEN, aeadBodyLen, AEAD_NONCE_LEN, AEAD_PREFIX_LEN, AEAD_TAG_LEN] at h
  rw [ciphertextOf, List.length_take, List.length_drop]
  omega

theorem length_tagOf (h : raw.length = HEADER_LEN + aeadBodyLen n) : (tagOf raw).length = 16 := by
  simp only [HEADER_LEN, aeadBodyLen, AEAD_NONCE_LEN, AEAD_PREFIX_LEN, AEAD_TAG_LEN] at h
  rw [tagOf, List.length_drop]
  omega

theorem ciphertextOf_append_tagOf (h : raw.length = HEADER_LEN + aeadBodyLen n) :
    ciphertextOf raw ++ tagOf raw = raw.drop 24 := by
  simp only [HEADER_LEN, aeadBodyLen, AEAD_NONCE_LEN, AEAD_PREFIX_LEN, AEAD_TAG_LEN] at h
  have htag : tagOf raw = (raw.drop 24).drop (raw.length - 40) := by
    rw [tagOf, List.drop_drop]
    congr 1
    omega
  rw [ciphertextOf, htag, List.take_append_drop]

end

/-! ## The node -/

/-- The key of a node, if it has one. -/
def keySetting {κ : Type} (node : MulticastPubSub κ) : Option Bytes :=
  if node.encryptionEnabled then some node.encryptionKeyBytes.toList else none

theorem length_keySetting {κ : Type} (node : MulticastPubSub κ) :
    ∀ k ∈ keySetting node, k.length = 32 := by
  intro k hk
  unfold keySetting at hk
  split at hk
  · cases hk
    exact Vector.length_toList
  · cases hk

def ofReceived (r : Received) : DecodedMessage :=
  { topicCrc := r.crc.toNat
    encoding := r.encoding.toUInt8.toNat
    payload := r.payload
    timestamp := r.replay.map fun (ts, _) => ts.toNat
    nonce := r.replay.map fun (_, rnonce) => rnonce.toNat
    wasEncrypted := r.replay.isSome }

theorem node_receive {κ : Type} (node : MulticastPubSub κ) {raw : Bytes}
    (hlen : raw.length ≤ MAX_DATAGRAM) :
    (node.receive raw).map ofReceived = opened (keySetting node) raw := by
  unfold MulticastPubSub.receive opened
  cases hdecode : Wire.decode raw with
  | error e => rfl
  | ok pkt =>
    simp only
    obtain ⟨-, hpkt, hsize⟩ := decode_eq_ok_iff.mp hdecode
    cases hmode : pkt.encMode with
    | NONE => rfl
    | AEAD =>
      rw [hmode] at hsize
      have hbody : pkt.payload = raw.drop 12 := congrArg DecodedPacket.payload hpkt
      have hopen : openBody node.encryptionKeyBytes (raw.take HEADER_LEN) pkt.payload =
          Rfc8439.decrypt node.encryptionKeyBytes.toList (nonceOf raw) (raw.take 12)
            (ciphertextOf raw) (tagOf raw) := by
        have htag := length_tagOf hsize
        rw [← chacha20poly1305Decrypt_eq _ _ _ _ htag]
        simp only [bodyLen, HEADER_LEN, aeadBodyLen, AEAD_NONCE_LEN, AEAD_PREFIX_LEN,
          AEAD_TAG_LEN] at hsize
        rw [hbody, openBody, nonceOf, ciphertextOf, tagOf, List.length_drop, List.drop_drop,
          List.drop_drop]
        simp only [AEAD_NONCE_LEN, AEAD_TAG_LEN, HEADER_LEN]
        rw [show raw.length - 12 - 12 - 16 = raw.length - 40 by omega,
          show 12 + (12 + (raw.length - 40)) = raw.length - 16 by omega]
      have hfits : ¬(pkt.payload.length > MAX_DATAGRAM ∨
          pkt.payload.length < AEAD_NONCE_LEN + AEAD_TAG_LEN) := by
        rw [hbody, List.length_drop]
        simp only [bodyLen, HEADER_LEN, aeadBodyLen, AEAD_NONCE_LEN, AEAD_PREFIX_LEN,
          AEAD_TAG_LEN, MAX_DATAGRAM] at hsize hlen ⊢
        omega
      simp only [keySetting]
      cases hkey : node.encryptionEnabled with
      | false => rfl
      | true =>
        simp only [Bool.not_true, Bool.false_eq_true, if_false, if_true, Option.bind_some]
        rw [if_neg hfits, hopen]
        cases hplain : Rfc8439.decrypt node.encryptionKeyBytes.toList (nonceOf raw)
          (raw.take 12) (ciphertextOf raw) (tagOf raw) with
        | none => rfl
        | some plain =>
          have hplen := (Rfc8439.length_of_decrypt hplain).trans (length_ciphertextOf hsize)
          have hpayload : (plain.drop AEAD_PREFIX_LEN).take pkt.plaintextLen.toNat =
              plain.drop 8 := by
            refine List.take_of_length_le ?_
            rw [List.length_drop, hplen]
            simp only [AEAD_PREFIX_LEN]
            omega
          simp only [Option.map_some, ofReceived, messageOf, hpayload, toNat_loadU32leAt,
            hbody, nonceOf, AEAD_NONCE_LEN, List.drop_zero, Option.isSome_some]

/-! ## The bridge -/

def ofDecodedPacket (mem : Bytes) (pkt : Bridge.DecodedPacket) : DecodedMessage :=
  { topicCrc := pkt.topicCRC.toNat
    encoding := pkt.encoding.toUInt8.toNat
    payload := pkt.payload.read mem
    timestamp := if pkt.wasEncrypted then some pkt.timestamp.toNat else none
    nonce := if pkt.wasEncrypted then some pkt.nonce.toNat else none
    wasEncrypted := pkt.wasEncrypted }

/-- What the bridge decodes, the node's `decode` accepts, with the same mode. -/
theorem decode_of_decodes {aeadOpen : Bridge.AeadOpen} {mem : Bytes} {datagram : Slice}
    {key : Option Bytes} {pkt : Bridge.DecodedPacket}
    (h : Bridge.Decodes aeadOpen mem datagram key pkt) :
    Wire.decode (datagram.read mem) =
      .ok (packetOf (datagram.read mem) pkt.encoding pkt.encMode) := by
  cases h with
  | plain hvalid hlength => exact decode_of_headerValid hvalid hlength
  | aead hvalid hlength _ => exact decode_of_headerValid hvalid hlength

/-- `Open` on the parts of a datagram. -/
theorem aeadOpen_eq {aeadOpen : Bridge.AeadOpen} (hrfc : Bridge.OpensRfc8439 aeadOpen)
    {raw : Bytes} {n : Nat} (hsize : raw.length = HEADER_LEN + aeadBodyLen n)
    (hlen : raw.length ≤ MAX_DATAGRAM) {key : Bytes} (hkey : key.length = 32) :
    aeadOpen key (Bridge.aeadNonce raw) (Bridge.aeadSealed raw) (raw.take HEADER_LEN) =
      Rfc8439.decrypt key (nonceOf raw) (raw.take 12) (ciphertextOf raw) (tagOf raw) := by
  have hct : (ciphertextOf raw).length ≤ 2 ^ 38 - 64 := by
    simp only [HEADER_LEN, aeadBodyLen, AEAD_NONCE_LEN, AEAD_PREFIX_LEN, AEAD_TAG_LEN,
      MAX_DATAGRAM] at hsize hlen
    rw [length_ciphertextOf hsize]
    omega
  have hsealed : Bridge.aeadSealed raw = ciphertextOf raw ++ tagOf raw :=
    (ciphertextOf_append_tagOf hsize).symm
  have hopen := hrfc ⟨key.toArray, by simpa using hkey⟩
    ⟨(nonceOf raw).toArray, by simpa using length_nonceOf hsize⟩ (raw.take 12)
    (ciphertextOf raw) ⟨(tagOf raw).toArray, by simpa using length_tagOf hsize⟩ hct
  rw [hsealed]
  exact hopen

theorem bridge_decodePacket {aeadOpen : Bridge.AeadOpen} (hrfc : Bridge.OpensRfc8439 aeadOpen)
    {mem : Bytes} {datagram : Slice} (hlen : (datagram.read mem).length ≤ MAX_DATAGRAM)
    {key : Option Bytes} (hkey : ∀ k ∈ key, k.length = 32) :
    (Bridge.decodePacket aeadOpen mem datagram key).toOption.map (ofDecodedPacket mem) =
      opened key (datagram.read mem) := by
  have hrefused (h : ∀ pkt, ¬Bridge.Decodes aeadOpen mem datagram key pkt) :
      (Bridge.decodePacket aeadOpen mem datagram key).toOption.map (ofDecodedPacket mem) =
        none := by
    cases hpkt : Bridge.decodePacket aeadOpen mem datagram key with
    | error e => rfl
    | ok pkt => exact absurd (Bridge.decodes_of_decodePacket hpkt) (h pkt)
  unfold opened
  cases hdecode : Wire.decode (datagram.read mem) with
  | error e =>
    refine hrefused ?_
    intro pkt h
    rw [decode_of_decodes h] at hdecode
    cases hdecode
  | ok pkt =>
    obtain ⟨hvalid, hpkt, hsize⟩ := decode_eq_ok_iff.mp hdecode
    have hdecl : pkt.plaintextLen = declaredLen (datagram.read mem) :=
      congrArg DecodedPacket.plaintextLen hpkt
    simp only
    cases hmode : pkt.encMode with
    | NONE =>
      rw [hmode] at hvalid hsize
      rw [Bridge.decodePacket_of_decodes (.plain hvalid (hdecl ▸ hsize)), hpkt]
      simp only [Except.toOption, Option.map_some, ofDecodedPacket, Slice.read_drop]
      rfl
    | AEAD =>
      rw [hmode] at hvalid hsize
      -- Nothing else decodes.
      have haead {p : Bridge.DecodedPacket}
          (h : Bridge.Decodes aeadOpen mem datagram key p) :
          ∃ plain, Bridge.Opens aeadOpen key (datagram.read mem) plain := by
        cases h with
        | plain hplain _ => exact absurd (hplain.encMode.symm.trans hvalid.encMode) (by decide)
        | aead _ _ hopens => exact ⟨_, hopens⟩
      cases key with
      | none =>
        refine hrefused ?_
        intro p h
        obtain ⟨plain, k, hk, -⟩ := haead h
        cases hk
      | some k =>
        have hopen := aeadOpen_eq hrfc hsize hlen (hkey k rfl)
        simp only [Option.bind_some]
        cases hplain : Rfc8439.decrypt k (nonceOf (datagram.read mem))
            ((datagram.read mem).take 12) (ciphertextOf (datagram.read mem))
            (tagOf (datagram.read mem)) with
        | none =>
          refine hrefused ?_
          intro p h
          obtain ⟨plain, k', hk, -, hsome⟩ := haead h
          cases hk
          rw [hopen, hplain] at hsome
          cases hsome
        | some plain =>
          rw [hplain] at hopen
          rw [Bridge.decodePacket_of_decodes
            (.aead hvalid (hdecl ▸ hsize) ⟨k, rfl, hkey k rfl, hopen⟩)]
          simp only [Except.toOption, Option.map_some, ofDecodedPacket, messageOf, if_true,
            Slice.read_owned, toNat_loadU32leAt, List.drop_zero]
          rfl

/-! ## The Python reference -/

/-- `decode` returned a message, or raised `WireError` where there is none. -/
def Outcome (message : Option DecodedMessage) :
    Except Reference.DecodeException DecodedMessage → Prop
  | .ok m => message = some m
  | .error (.wireError _) => message = none
  | .error _ => False

theorem magic_iff {raw : Bytes} (hlen : ¬raw.length < HEADER_LEN) :
    Reference.slice raw 0 2 ≠ Reference.MAGIC ↔
      (raw.getD 0 0 ≠ MAGIC0 ∨ raw.getD 1 0 ≠ MAGIC1) := by
  match raw, hlen with
  | [], hlen => exact absurd (by decide) hlen
  | [_], hlen => exact absurd (show 1 < 12 by decide) hlen
  | a :: b :: rest, _ =>
    simp only [Reference.slice, List.drop_zero, List.take_succ_cons, List.take_zero,
      Reference.MAGIC, List.getD_cons_zero, List.getD_cons_succ, ne_eq, List.cons.injEq, and_true,
      MAGIC0, MAGIC1]
    exact Decidable.not_and_iff_or_not

/-- The two known values of a byte, as the byte and as a number. -/
theorem encoding_cases (value : UInt8) :
    (Encoding.ofUInt8 value = none ∧ value.toNat ∉ Reference.KNOWN_ENCODINGS) ∨
      ∃ enc, Encoding.ofUInt8 value = some enc ∧ value = enc.toUInt8 ∧
        value.toNat ∈ Reference.KNOWN_ENCODINGS := by
  cases henc : Encoding.ofUInt8 value with
  | none =>
    refine .inl ⟨rfl, ?_⟩
    intro hmem
    have hknown : value = 0 ∨ value = 1 := by
      simpa [Reference.KNOWN_ENCODINGS, Reference.ENCODING_RAW, Reference.ENCODING_PROTOBUF,
        ← UInt8.toNat_inj] using hmem
    rcases hknown with rfl | rfl <;> cases henc
  | some enc =>
    have hvalue := Encoding.ofUInt8_eq_some_iff.mp henc
    refine .inr ⟨enc, rfl, hvalue, ?_⟩
    rw [hvalue]
    cases enc <;> decide

theorem encMode_cases (value : UInt8) :
    (EncMode.ofUInt8 value = none ∧ value.toNat ∉ Reference.KNOWN_ENC_MODES) ∨
      ∃ enm, EncMode.ofUInt8 value = some enm ∧ value = enm.toUInt8 ∧
        value.toNat ∈ Reference.KNOWN_ENC_MODES := by
  cases henm : EncMode.ofUInt8 value with
  | none =>
    refine .inl ⟨rfl, ?_⟩
    intro hmem
    have hknown : value = 0 ∨ value = 1 := by
      simpa [Reference.KNOWN_ENC_MODES, Reference.ENC_MODE_NONE, Reference.ENC_MODE_AEAD,
        ← UInt8.toNat_inj] using hmem
    rcases hknown with rfl | rfl <;> cases henm
  | some enm =>
    have hvalue := EncMode.ofUInt8_eq_some_iff.mp henm
    refine .inr ⟨enm, rfl, hvalue, ?_⟩
    rw [hvalue]
    cases enm <;> decide

theorem payloadLen_eq {raw : Bytes} (hlen : ¬raw.length < HEADER_LEN) :
    ofBytesLE (Reference.slice raw 8 2) = (loadU16le (raw.getD 8 0) (raw.getD 9 0)).toNat := by
  have hdrop : raw.drop 8 = raw.getD 8 0 :: raw.getD 9 0 :: raw.drop 10 := by
    simp only [HEADER_LEN] at hlen
    rw [List.drop_eq_getElem_cons (by omega), List.drop_eq_getElem_cons (by omega),
      List.getD_eq_getElem _ _ (by omega), List.getD_eq_getElem _ _ (by omega)]
  rw [Reference.slice, hdrop, toNat_loadU16le]
  simp

/-- The slice that `decode` decrypts. -/
theorem slice_ciphertext {raw : Bytes} {n : Nat} (h : raw.length = HEADER_LEN + aeadBodyLen n) :
    Reference.slice raw (Reference.HEADER_LEN + Reference.AEAD_NONCE_LEN)
      (raw.length - Reference.AEAD_TAG_LEN -
        (Reference.HEADER_LEN + Reference.AEAD_NONCE_LEN)) = ciphertextOf raw := by
  simp only [HEADER_LEN, aeadBodyLen, AEAD_NONCE_LEN, AEAD_PREFIX_LEN, AEAD_TAG_LEN] at h
  simp only [Reference.slice, Reference.HEADER_LEN, Reference.AEAD_NONCE_LEN,
    Reference.AEAD_TAG_LEN, ciphertextOf]
  rw [show raw.length - 16 - (12 + 12) = raw.length - 40 by omega]

/-- The two words in front of an encrypted payload. -/
theorem unpack_leading {plain : Bytes} (h : 8 ≤ plain.length) :
    (plain.take 8).length = 8 ∧
      Reference.unpackI (plain.take 8) 0 = ofBytesLE (plain.take 4) ∧
      Reference.unpackI (plain.take 8) 1 = ofBytesLE ((plain.drop 4).take 4) := by
  refine ⟨List.length_take_of_le h, ?_, ?_⟩
  · rw [Reference.unpackI, Nat.mul_zero, List.drop_zero, List.take_take]
    rfl
  · rw [Reference.unpackI, List.drop_take, List.take_take]
    rfl

theorem reference_decode {key : Option Bytes} (hkey : ∀ k ∈ key, k.length = 32) (raw : Bytes) :
    Outcome (opened key raw) (Reference.decode raw key) := by
  unfold opened Reference.decode Wire.decode
  -- Both decoders check the header in the same order; each check fails in both or in neither.
  by_cases hlen : raw.length < HEADER_LEN
  · rw [if_pos hlen, if_pos (show raw.length < Reference.HEADER_LEN from hlen)]
    rfl
  rw [if_neg hlen, if_neg (show ¬raw.length < Reference.HEADER_LEN from hlen)]
  by_cases hmagic : raw.getD 0 0 ≠ MAGIC0 ∨ raw.getD 1 0 ≠ MAGIC1
  · rw [if_pos hmagic, if_pos ((magic_iff hlen).mpr hmagic)]
    rfl
  rw [if_neg hmagic, if_neg (mt (magic_iff hlen).mp hmagic)]
  by_cases hversion : raw.getD 2 0 ≠ VERSION
  · rw [if_pos hversion]
    simp only
    rw [if_pos (show raw.getD 2 0 ≠ Reference.VERSION from hversion)]
    rfl
  rw [if_neg hversion]
  simp only
  rw [if_neg (show ¬raw.getD 2 0 ≠ Reference.VERSION from hversion)]
  rcases encoding_cases (raw.getD 3 0) with ⟨hnone, hunknown⟩ | ⟨enc, hsome, henc, hknown⟩
  · rw [hnone, if_pos hunknown]
    rfl
  rw [hsome, if_neg (not_not_intro hknown)]
  rcases encMode_cases (raw.getD 10 0) with ⟨hnone, hunknown⟩ | ⟨enm, hsome', henm, hknown'⟩
  · rw [hnone, if_pos hunknown]
    rfl
  rw [hsome', if_neg (not_not_intro hknown'), payloadLen_eq hlen]
  cases enm with
  | NONE =>
    have hmode : ¬(raw.getD 10 0).toNat = Reference.ENC_MODE_AEAD := by
      rw [henm]
      decide
    rw [if_neg hmode]
    simp only
    by_cases hsize : HEADER_LEN + (loadU16le (raw.getD 8 0) (raw.getD 9 0)).toNat ≠ raw.length
    · rw [if_pos hsize, if_pos (show Reference.HEADER_LEN + _ ≠ raw.length from hsize)]
      rfl
    · rw [if_neg hsize, if_neg (show ¬Reference.HEADER_LEN + _ ≠ raw.length from hsize)]
      simp only [Outcome, ← toNat_loadU32leAt, ← henc, Reference.slice]
      rfl
  | AEAD =>
    have hmode : (raw.getD 10 0).toNat = Reference.ENC_MODE_AEAD := by
      rw [henm]
      decide
    rw [if_pos hmode]
    simp only
    by_cases hsize : raw.length ≠
        HEADER_LEN + aeadBodyLen (loadU16le (raw.getD 8 0) (raw.getD 9 0)).toNat
    · rw [if_pos hsize,
        if_pos (show raw.length ≠ Reference.HEADER_LEN + Reference.aeadBodyLen _ from hsize)]
      rfl
    rw [if_neg hsize,
      if_neg (show ¬raw.length ≠ Reference.HEADER_LEN + Reference.aeadBodyLen _ from hsize)]
    rw [not_not] at hsize
    cases key with
    | none => rfl
    | some k =>
      simp only [Option.bind_some]
      rw [if_neg (not_not_intro (hkey k rfl)), Reference.aeadDecryptPy_eq]
      have hopened : Rfc8439.decrypt k
          (Reference.slice raw Reference.HEADER_LEN Reference.AEAD_NONCE_LEN)
          (Reference.slice raw 0 Reference.HEADER_LEN) (ciphertextOf raw)
          (raw.drop (raw.length - Reference.AEAD_TAG_LEN)) =
          Rfc8439.decrypt k (nonceOf raw) (raw.take 12) (ciphertextOf raw) (tagOf raw) := rfl
      rw [slice_ciphertext hsize, hopened]
      cases hplain : Rfc8439.decrypt k (nonceOf raw) (raw.take 12) (ciphertextOf raw)
          (tagOf raw) with
      | none => rfl
      | some plain =>
        have hplen := (Rfc8439.length_of_decrypt hplain).trans (length_ciphertextOf hsize)
        have hleading : Reference.slice plain 0 Reference.AEAD_PREFIX_LEN = plain.take 8 := rfl
        obtain ⟨hlen8, hword0, hword1⟩ := unpack_leading (show 8 ≤ plain.length by omega)
        simp only [hleading, hlen8, ne_eq, not_true_eq_false, if_false, Outcome, Option.map_some,
          messageOf, hword0, hword1, ← henc]
        rfl

/-! ## Agreement -/

/-- The three results say the same. -/
def Agree (node : Option DecodedMessage) (bridge : Option DecodedMessage)
    (python : Except Reference.DecodeException DecodedMessage) : Prop :=
  node = bridge ∧ Outcome bridge python

/-- Node, bridge and Python client drop the same datagrams of at most `MAX_DATAGRAM` bytes, and
read the same CRC, encoding, payload, timestamp and nonce from the others. Python raises
nothing but `WireError`. -/
theorem receivers_agree {κ : Type} {aeadOpen : Bridge.AeadOpen}
    (hrfc : Bridge.OpensRfc8439 aeadOpen) (node : MulticastPubSub κ) {mem : Bytes}
    {datagram : Slice} (hlen : (datagram.read mem).length ≤ MAX_DATAGRAM) :
    (∀ clock, (node.onPacket (datagram.read mem) clock).2 =
      node.handOver clock (node.receive (datagram.read mem))) ∧
    Agree ((node.receive (datagram.read mem)).map ofReceived)
      ((Bridge.decodePacket aeadOpen mem datagram (keySetting node)).toOption.map
        (ofDecodedPacket mem))
      (Reference.decode (datagram.read mem) (keySetting node)) := by
  have hkey := length_keySetting node
  refine ⟨node.onPacket_eq_handOver _, ?_, ?_⟩
  · rw [node_receive node hlen, bridge_decodePacket hrfc hlen hkey]
  · rw [bridge_decodePacket hrfc hlen hkey]
    exact reference_decode hkey _

/-- The package by its documentation. -/
def rfcOpen : Bridge.AeadOpen := fun key nonce body aad =>
  Rfc8439.decrypt key nonce aad (body.take (body.length - 16)) (body.drop (body.length - 16))

theorem opensRfc8439_rfcOpen : Bridge.OpensRfc8439 rfcOpen := by
  intro key nonce aad ct tag _
  have hlen : (ct ++ tag.toList).length - 16 = ct.length := by simp
  rw [rfcOpen, hlen, List.take_left, List.drop_left]

/-- A node with a key. -/
def keyedNode : MulticastPubSub Unit := { encryptionEnabled := true }

/-- `receivers_agree` for a datagram that a node sealed. -/
theorem receivers_agree_sealed :
    Agree ((keyedNode.receive (keyedNode.datagram {} [116] [1, 2, 3] .RAW)).map ofReceived)
      ((Bridge.decodePacket rfcOpen []
        (.owned (keyedNode.datagram {} [116] [1, 2, 3] .RAW)) (keySetting keyedNode)).toOption.map
          (ofDecodedPacket []))
      (Reference.decode (keyedNode.datagram {} [116] [1, 2, 3] .RAW) (keySetting keyedNode)) :=
  (@receivers_agree Unit rfcOpen opensRfc8439_rfcOpen keyedNode []
    (.owned (keyedNode.datagram {} [116] [1, 2, 3] .RAW))
    (MulticastPubSub.length_datagram_le (by decide) {} [116] .RAW)).2

end Mpubsub.Theorems
