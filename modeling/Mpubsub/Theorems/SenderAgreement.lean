import Mpubsub.Node.Delivery
import Mpubsub.Bridge.Encode
import Mpubsub.Theorems.ReceiverAgreement

/-!
# All senders emit the same bytes

The datagram of a node that drew the words of a nonce and read a timestamp is
what the bridge and the Python reference encode with the same arguments
(`encodePacket_eq`, `encode_eq`), and each refuses exactly the payloads that do
not fit.
-/

namespace Mpubsub.Theorems

open Mpubsub.Lib Mpubsub.Wire Mpubsub.Node
open Mpubsub.Reference (DecodedMessage)

/-- What a publish reads from its environment when it draws the nonce and the clock shows the
timestamp. -/
def drawing (nonce : Vector UInt8 12) (timestamp : UInt32) : PublishEnv :=
  { random0 := loadU32leAt nonce.toList 0
    random1 := loadU32leAt nonce.toList 4
    random2 := loadU32leAt nonce.toList 8
    clock := some timestamp }

theorem words_drawing (nonce : Vector UInt8 12) (timestamp : UInt32) :
    storeU32le (drawing nonce timestamp).random0 ++ storeU32le (drawing nonce timestamp).random1 ++
      storeU32le (drawing nonce timestamp).random2 = nonce.toList := by
  have hlen : nonce.toList.length = 12 := by simp
  simp only [drawing]
  rw [storeU32le_loadU32leAt (by omega), storeU32le_loadU32leAt (by omega),
    storeU32le_loadU32leAt (by omega), List.drop_zero]
  have h8 : (nonce.toList.drop 8).take 4 = (nonce.toList.drop 4).drop 4 := by
    rw [List.drop_drop, List.take_of_length_le (by rw [List.length_drop]; omega)]
  rw [h8, List.append_assoc, List.take_append_drop, List.take_append_drop]

/-- The node's body, by RFC 8439. -/
theorem encryptBody_drawing (key : Key) (nonce : Vector UInt8 12) (timestamp : UInt32)
    (header : Bytes) (crc : UInt32) (payload : Bytes) :
    MulticastPubSub.encryptBody key (drawing nonce timestamp) header crc payload =
      nonce.toList ++
        (Rfc8439.encrypt key.toList nonce.toList header
          (storeU32le crc ++ storeU32le timestamp ++ payload)).1 ++
        (Rfc8439.encrypt key.toList nonce.toList header
          (storeU32le crc ++ storeU32le timestamp ++ payload)).2 := by
  simp only [MulticastPubSub.encryptBody, words_drawing, chacha20poly1305Encrypt_eq]
  rfl

/-! ## The bridge -/

theorem topicCRC32_eq (topic : Bytes) : Bridge.topicCRC32 topic = topicCrc32 topic :=
  UInt32.toBitVec_inj.mp (toBitVec_topicCrc32 topic).symm

/-- The bridge emits the node's datagram, where it fits. -/
theorem encodePacket_eq {κ : Type} {aeadSeal : Bridge.AeadSeal}
    (hrfc : Bridge.SealsRfc8439 aeadSeal) (node : MulticastPubSub κ) (topic payload : Bytes)
    (encoding : Encoding) (nonce : Vector UInt8 12) (timestamp : UInt32) :
    Bridge.encodePacket aeadSeal topic payload encoding.toUInt8 (keySetting node) timestamp
        nonce.toList =
      if payload.length ≤ node.effectiveMax then
        .ok (node.datagram (drawing nonce timestamp) topic payload encoding)
      else if node.encryptionEnabled then
        .error (.encryptedTooLarge payload.length (aeadBodyLen payload.length))
      else .error (.payloadTooLarge payload.length) := by
  have hknown : ¬(encoding.toUInt8 ≠ Encoding.RAW.toUInt8 ∧
      encoding.toUInt8 ≠ Encoding.PROTOBUF.toUInt8) := by
    cases encoding <;> decide
  unfold Bridge.encodePacket
  rw [if_neg hknown, topicCRC32_eq]
  cases henabled : node.encryptionEnabled with
  | false =>
    have hmode : node.encMode = .NONE := by rw [MulticastPubSub.encMode, henabled]; rfl
    have hmax : node.effectiveMax = MAX_PAYLOAD := by
      rw [MulticastPubSub.effectiveMax, henabled]
      rfl
    simp only [keySetting, henabled, Bool.false_eq_true, if_false, hmax]
    by_cases hsize : payload.length ≤ MAX_PAYLOAD
    · rw [if_neg (by omega), if_pos hsize, MulticastPubSub.datagram, hmode]
      rfl
    · rw [if_pos (by omega), if_neg hsize]
  | true =>
    have hmode : node.encMode = .AEAD := by rw [MulticastPubSub.encMode, henabled]; rfl
    have hmax : payload.length ≤ node.effectiveMax ↔
        ¬HEADER_LEN + aeadBodyLen payload.length > MAX_DATAGRAM := by
      rw [MulticastPubSub.effectiveMax, henabled]
      simp only [if_true, MAX_PAYLOAD, MAX_DATAGRAM, HEADER_LEN, aeadBodyLen, AEAD_NONCE_LEN,
        AEAD_PREFIX_LEN, AEAD_TAG_LEN]
      omega
    have hkeylen : ¬node.encryptionKeyBytes.toList.length ≠ 32 := by simp
    have hnoncelen : ¬nonce.toList.length ≠ AEAD_NONCE_LEN := by simp [AEAD_NONCE_LEN]
    simp only [keySetting, henabled, if_true]
    rw [if_neg hkeylen, if_neg hnoncelen]
    by_cases hsize : HEADER_LEN + aeadBodyLen payload.length > MAX_DATAGRAM
    · rw [if_pos hsize, if_neg (fun h => hmax.mp h hsize)]
    · have hplain : (storeU32le (topicCrc32 topic) ++ storeU32le timestamp ++ payload).length ≤
          2 ^ 38 - 64 := by
        simp only [List.length_append, length_storeU32le]
        simp only [MAX_DATAGRAM, HEADER_LEN, aeadBodyLen, AEAD_NONCE_LEN, AEAD_PREFIX_LEN,
          AEAD_TAG_LEN] at hsize
        omega
      rw [if_neg hsize, if_pos (hmax.mpr hsize), hrfc _ _ _ _ hplain, MulticastPubSub.datagram,
        hmode]
      simp only [if_true, encryptBody_drawing, List.append_assoc]
      rfl

/-! ## The Python reference -/

theorem topicCrc32_eq (topic : String) :
    Reference.topicCrc32 topic = (topicCrc32 (utf8 topic)).toNat := by
  rw [Reference.topicCrc32, ← toBitVec_topicCrc32, Reference.and_word]
  exact Nat.mod_eq_of_lt (UInt32.toNat_lt _)

/-- The header of the reference is the node's. -/
theorem buildHeader_eq (crc : UInt32) (encoding : Encoding) {payloadLen : Nat}
    (hlen : payloadLen < 2 ^ 16) (encMode : EncMode) :
    Reference.buildHeader (if encMode ≠ .NONE then 0 else crc).toNat encoding.toUInt8.toNat
        payloadLen encMode.toUInt8.toNat =
      encodeHeader crc encoding (UInt16.ofNat payloadLen) encMode := by
  have hpayload : toBytesLE 2 payloadLen = storeU16le (UInt16.ofNat payloadLen) := by
    rw [storeU16le_eq, UInt16.toNat_ofNat', Nat.mod_eq_of_lt hlen]
  have henc : UInt8.ofNat (encoding.toUInt8.toNat &&& 0xFF) = encoding.toUInt8 := by
    cases encoding <;> rfl
  have henm : UInt8.ofNat encMode.toUInt8.toNat = encMode.toUInt8 := by
    cases encMode <;> rfl
  rw [Reference.buildHeader, encodeHeader, hpayload, ← storeU32le_eq, henc, henm]
  simp [Reference.MAGIC, Reference.VERSION, MAGIC0, MAGIC1, VERSION]

/-- The reference emits the node's datagram, where it fits. -/
theorem encode_eq {κ : Type} (node : MulticastPubSub κ) (time : Nat) (urandom : Bytes)
    (topic : String) (payload : Bytes) (encoding : Encoding) (nonce : Vector UInt8 12)
    (timestamp : UInt32) :
    Reference.encode time urandom topic payload encoding.toUInt8.toNat (keySetting node)
        (some timestamp.toNat) (some nonce.toList) =
      if payload.length ≤ node.effectiveMax then
        .ok (node.datagram (drawing nonce timestamp) (utf8 topic) payload encoding)
      else if payload.length > MAX_PAYLOAD then .error (.payloadTooLarge payload.length)
      else .error (.encryptedTooLarge payload.length (aeadBodyLen payload.length)) := by
  have hknown : ¬encoding.toUInt8.toNat ∉ Reference.KNOWN_ENCODINGS := by
    cases encoding <;> decide
  have hle : node.effectiveMax ≤ MAX_PAYLOAD := by
    unfold MulticastPubSub.effectiveMax
    split
    · exact Nat.sub_le _ _
    · exact Nat.le_refl _
  unfold Reference.encode
  by_cases hcap : payload.length > MAX_PAYLOAD
  · rw [if_pos (show payload.length > Reference.MAX_PAYLOAD from hcap), if_neg (by omega),
      if_pos hcap]
  rw [if_neg (show ¬payload.length > Reference.MAX_PAYLOAD from hcap), if_neg hknown,
    if_neg hcap, topicCrc32_eq]
  -- Within the cap the length fits into the two bytes of the header.
  have hlen : payload.length < 2 ^ 16 := by
    simp only [MAX_PAYLOAD, MAX_DATAGRAM, HEADER_LEN] at hcap
    omega
  cases henabled : node.encryptionEnabled with
  | false =>
    have hmode : node.encMode = .NONE := by rw [MulticastPubSub.encMode, henabled]; rfl
    have hmax : node.effectiveMax = MAX_PAYLOAD := by
      rw [MulticastPubSub.effectiveMax, henabled]
      rfl
    have hheader := buildHeader_eq (topicCrc32 (utf8 topic)) encoding hlen .NONE
    simp only [keySetting, henabled, Bool.false_eq_true, if_false, hmax]
    rw [if_pos (by omega), MulticastPubSub.datagram, hmode, ← hheader]
    rfl
  | true =>
    have hmode : node.encMode = .AEAD := by rw [MulticastPubSub.encMode, henabled]; rfl
    have hmax : payload.length ≤ node.effectiveMax ↔
        ¬Reference.HEADER_LEN + Reference.aeadBodyLen payload.length > Reference.MAX_DATAGRAM := by
      rw [MulticastPubSub.effectiveMax, henabled]
      simp only [if_true, MAX_PAYLOAD, MAX_DATAGRAM, HEADER_LEN, aeadBodyLen, AEAD_NONCE_LEN,
        AEAD_PREFIX_LEN, AEAD_TAG_LEN, Reference.HEADER_LEN, Reference.aeadBodyLen,
        Reference.MAX_DATAGRAM, Reference.AEAD_NONCE_LEN, Reference.AEAD_PREFIX_LEN,
        Reference.AEAD_TAG_LEN]
      omega
    have hheader := buildHeader_eq (topicCrc32 (utf8 topic)) encoding hlen .AEAD
    have htimestamp : toBytesLE 4 (timestamp.toNat &&& 0xFFFFFFFF) = storeU32le timestamp := by
      rw [Reference.and_word, Nat.mod_eq_of_lt timestamp.toNat_lt, storeU32le_eq]
    have hcrc : toBytesLE 4 (topicCrc32 (utf8 topic)).toNat = storeU32le (topicCrc32 (utf8 topic)) :=
      (storeU32le_eq _).symm
    have hkeylen : ¬node.encryptionKeyBytes.toList.length ≠ 32 := by simp
    have hnoncelen : ¬nonce.toList.length ≠ Reference.AEAD_NONCE_LEN := by
      simp [Reference.AEAD_NONCE_LEN]
    simp only [keySetting, henabled, if_true, Option.getD_some]
    rw [if_neg hkeylen, if_neg hnoncelen]
    by_cases hsize : Reference.HEADER_LEN + Reference.aeadBodyLen payload.length >
        Reference.MAX_DATAGRAM
    · rw [if_pos hsize, if_neg (fun h => hmax.mp h hsize)]
      rfl
    · have hzero : Reference.buildHeader 0 encoding.toUInt8.toNat payload.length
          Reference.ENC_MODE_AEAD = encodeHeader (topicCrc32 (utf8 topic)) encoding
            (UInt16.ofNat payload.length) .AEAD := hheader
      rw [if_neg hsize, if_pos (hmax.mpr hsize), hzero, hcrc, htimestamp,
        Reference.aeadEncryptPy_eq, MulticastPubSub.datagram, hmode]
      simp only [if_true, encryptBody_drawing, List.append_assoc]

/-! ## Agreement -/

/-- What a node hands to the socket in a publish, if it does. -/
def published {κ : Type} (node : MulticastPubSub κ) (env : PublishEnv) (topic payload : Bytes)
    (encoding : Encoding) : Option Bytes :=
  (node.publish env topic payload encoding).2.1.head?.map Sent.datagram

theorem published_eq {κ : Type} {node : MulticastPubSub κ} (hsocket : node.socket = true)
    (env : PublishEnv) (topic payload : Bytes) (encoding : Encoding) :
    published node env topic payload encoding =
      if payload.length ≤ node.effectiveMax then some (node.datagram env topic payload encoding)
      else none := by
  unfold published MulticastPubSub.publish
  rw [hsocket]
  simp only [Bool.not_true, Bool.false_eq_true, if_false]
  by_cases hsize : payload.length > node.effectiveMax
  · rw [if_pos hsize, if_neg (Nat.not_le.mpr hsize)]
    rfl
  · rw [if_neg hsize, if_pos (Nat.not_lt.mp hsize), MulticastPubSub.sendDatagram, hsocket]
    cases env.sendOk with
    | false => rfl
    | true => rfl

/-- An error about the size of the payload. -/
def bridgeTooLarge : Bridge.EncodeError → Bool
  | .payloadTooLarge _ | .encryptedTooLarge _ _ => true
  | _ => false

def referenceTooLarge : Reference.EncodeError → Bool
  | .payloadTooLarge _ | .encryptedTooLarge _ _ => true
  | _ => false

/-- All three refuse a payload as too large. -/
structure Refused (node : Option Bytes) (bridge : Except Bridge.EncodeError Bytes)
    (python : Except Reference.EncodeError Bytes) : Prop where
  node : node = none
  bridge : ∃ e, bridge = .error e ∧ bridgeTooLarge e = true
  python : ∃ e, python = .error e ∧ referenceTooLarge e = true

/-- All three emit the same datagram. -/
structure Emitted (node : Option Bytes) (bridge : Except Bridge.EncodeError Bytes)
    (python : Except Reference.EncodeError Bytes) (datagram : Bytes) : Prop where
  node : node = some datagram
  bridge : bridge = .ok datagram
  python : python = .ok datagram

/-- What the reference reads from the datagram. -/
def sentMessage (encrypted : Bool) (topic : String) (payload : Bytes) (encoding : Encoding)
    (timestamp : UInt32) (nonce : Vector UInt8 12) : DecodedMessage :=
  { topicCrc := Reference.topicCrc32 topic
    encoding := encoding.toUInt8.toNat
    payload := payload
    timestamp := if encrypted then some timestamp.toNat else none
    nonce := if encrypted then some (ofBytesLE (nonce.toList.take 4)) else none
    wasEncrypted := encrypted }

/-- The CRC field of an encrypted datagram is zero. -/
theorem crcField_datagram {κ : Type} {node : MulticastPubSub κ}
    (henabled : node.encryptionEnabled = true) (env : PublishEnv) (topic payload : Bytes)
    (encoding : Encoding) :
    ((node.datagram env topic payload encoding).drop 4).take 4 = [0, 0, 0, 0] := by
  have hmode : node.encMode = .AEAD := by rw [MulticastPubSub.encMode, henabled]; rfl
  rw [MulticastPubSub.datagram, hmode]
  simp [encodeHeader, storeU32le]

/-- The reference reads back what was published. -/
theorem decode_published {κ : Type} {node : MulticastPubSub κ} {payload : Bytes}
    (hsize : payload.length ≤ node.effectiveMax) (topic : String) (encoding : Encoding)
    (timestamp : UInt32) (nonce : Vector UInt8 12) :
    Reference.decode (node.datagram (drawing nonce timestamp) (utf8 topic) payload encoding)
        (keySetting node) =
      .ok (sentMessage node.encryptionEnabled topic payload encoding timestamp nonce) := by
  have hlen := MulticastPubSub.length_datagram_le hsize (drawing nonce timestamp) (utf8 topic)
    encoding
  have hkey := length_keySetting node
  have hopened := node_receive node hlen
  rw [MulticastPubSub.receive_datagram hsize _ _ _ (fun h => ⟨h, rfl⟩)] at hopened
  have hdecode := reference_decode hkey
    (node.datagram (drawing nonce timestamp) (utf8 topic) payload encoding)
  rw [← hopened] at hdecode
  have hmessage : ofReceived ⟨topicCrc32 (utf8 topic), encoding, payload,
      if node.encryptionEnabled then
        some (MulticastPubSub.replayTimestamp (drawing nonce timestamp).clock,
          (drawing nonce timestamp).random0)
      else none⟩ =
      sentMessage node.encryptionEnabled topic payload encoding timestamp nonce := by
    cases node.encryptionEnabled with
    | false => simp [ofReceived, sentMessage, topicCrc32_eq]
    | true =>
      simp [ofReceived, sentMessage, topicCrc32_eq, drawing, MulticastPubSub.replayTimestamp,
        toNat_loadU32leAt]
  cases hresult : Reference.decode (node.datagram (drawing nonce timestamp) (utf8 topic) payload
      encoding) (keySetting node) with
  | ok m =>
    rw [hresult, Option.map_some, hmessage] at hdecode
    cases hdecode
    rfl
  | error e =>
    rw [hresult] at hdecode
    cases e <;> cases hdecode

/-- For every topic, payload, encoding, key setting, timestamp and nonce, node, bridge and
Python client all refuse the payload as too large, or all emit the same datagram. It has at
most `MAX_DATAGRAM` bytes, hides the CRC when encrypted, and decodes to what was published. -/
theorem senders_agree {κ : Type} {aeadSeal : Bridge.AeadSeal}
    (hrfc : Bridge.SealsRfc8439 aeadSeal) {node : MulticastPubSub κ}
    (hsocket : node.socket = true) (time : Nat) (urandom : Bytes) (topic : String)
    (payload : Bytes) (encoding : Encoding) (timestamp : UInt32) (nonce : Vector UInt8 12) :
    Refused (published node (drawing nonce timestamp) (utf8 topic) payload encoding)
      (Bridge.encodePacket aeadSeal (utf8 topic) payload encoding.toUInt8 (keySetting node) timestamp
        nonce.toList)
      (Reference.encode time urandom topic payload encoding.toUInt8.toNat (keySetting node)
        (some timestamp.toNat) (some nonce.toList)) ∨
    ∃ datagram,
      Emitted (published node (drawing nonce timestamp) (utf8 topic) payload encoding)
        (Bridge.encodePacket aeadSeal (utf8 topic) payload encoding.toUInt8 (keySetting node) timestamp
          nonce.toList)
        (Reference.encode time urandom topic payload encoding.toUInt8.toNat (keySetting node)
          (some timestamp.toNat) (some nonce.toList)) datagram ∧
      datagram.length ≤ MAX_DATAGRAM ∧
      (node.encryptionEnabled = true → (datagram.drop 4).take 4 = [0, 0, 0, 0]) ∧
      Reference.decode datagram (keySetting node) =
        .ok (sentMessage node.encryptionEnabled topic payload encoding timestamp nonce) := by
  rw [published_eq hsocket, encodePacket_eq hrfc, encode_eq]
  by_cases hsize : payload.length ≤ node.effectiveMax
  · refine .inr ⟨node.datagram (drawing nonce timestamp) (utf8 topic) payload encoding, ?_, ?_, ?_,
      decode_published hsize topic encoding timestamp nonce⟩
    · rw [if_pos hsize, if_pos hsize, if_pos hsize]
      exact ⟨rfl, rfl, rfl⟩
    · exact MulticastPubSub.length_datagram_le hsize ..
    · exact fun henabled => crcField_datagram henabled ..
  · refine .inl ?_
    rw [if_neg hsize, if_neg hsize, if_neg hsize]
    refine ⟨rfl, ?_, ?_⟩
    · split
      · exact ⟨_, rfl, rfl⟩
      · exact ⟨_, rfl, rfl⟩
    · split
      · exact ⟨_, rfl, rfl⟩
      · exact ⟨_, rfl, rfl⟩

/-- The package by its documentation. -/
def rfcSeal : Bridge.AeadSeal := fun key nonce plain aad =>
  (Rfc8439.encrypt key nonce aad plain).1 ++ (Rfc8439.encrypt key nonce aad plain).2

theorem sealsRfc8439_rfcSeal : Bridge.SealsRfc8439 rfcSeal := fun _ _ _ _ _ => rfl

/-- `senders_agree` for a node with a key. -/
theorem senders_agree_sealed :
    let node : MulticastPubSub Unit := { encryptionEnabled := true, socket := true }
    let nonce : Vector UInt8 12 := Vector.replicate 12 7
    Refused (published node (drawing nonce 100) (utf8 "t") [1, 2, 3] .RAW)
      (Bridge.encodePacket rfcSeal (utf8 "t") [1, 2, 3] 0 (keySetting node) 100 nonce.toList)
      (Reference.encode 0 [] "t" [1, 2, 3] 0 (keySetting node) (some 100) (some nonce.toList)) ∨
    ∃ datagram,
      Emitted (published node (drawing nonce 100) (utf8 "t") [1, 2, 3] .RAW)
        (Bridge.encodePacket rfcSeal (utf8 "t") [1, 2, 3] 0 (keySetting node) 100 nonce.toList)
        (Reference.encode 0 [] "t" [1, 2, 3] 0 (keySetting node) (some 100) (some nonce.toList))
        datagram ∧
      datagram.length ≤ MAX_DATAGRAM ∧
      (node.encryptionEnabled = true → (datagram.drop 4).take 4 = [0, 0, 0, 0]) ∧
      Reference.decode datagram (keySetting node) = .ok (sentMessage true "t" [1, 2, 3] .RAW 100 nonce) :=
  @senders_agree Unit rfcSeal sealsRfc8439_rfcSeal { encryptionEnabled := true, socket := true } rfl
    0 [] "t" [1, 2, 3] .RAW 100 (Vector.replicate 12 7)

end Mpubsub.Theorems
