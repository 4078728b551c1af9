import Mpubsub.Node.State

/-!
# Publishing (`multicast_pubsub.cpp`)

`publish` refuses oversize payloads, builds one datagram, hands it to the
socket and schedules its retransmissions. What it builds is `datagram`; its
length is the header plus the body length of the mode (`length_datagram`), so
the payload limit keeps it within `MAX_DATAGRAM` (`length_datagram_le`).
-/

namespace Mpubsub.Node

open Mpubsub.Lib Mpubsub.Wire

variable {κ : Type}

/-- What one `publish` call reads from its environment: three random words, the
clock (`none` when there is no valid time) and whether `sendto` succeeds. -/
structure PublishEnv where
  random0 : UInt32 := 0
  random1 : UInt32 := 0
  random2 : UInt32 := 0
  clock : Option UInt32 := none
  sendOk : Bool := true
deriving DecidableEq

namespace MulticastPubSub

/-- `replay_timestamp_`. -/
def replayTimestamp (clock : Option UInt32) : UInt32 := clock.getD 0

/-- `encrypt_body_`: `nonce || ciphertext || tag`, with the header as AAD. -/
def encryptBody (key : Key) (env : PublishEnv) (header : Bytes) (crc : UInt32)
    (payload : Bytes) : Bytes :=
  let ts := replayTimestamp env.clock
  let nonce := storeU32le env.random0 ++ storeU32le env.random1 ++ storeU32le env.random2
  let plaintext := storeU32le crc ++ storeU32le ts ++ payload
  let (ct, tag) := chacha20poly1305Encrypt key nonce header plaintext
  nonce ++ ct ++ tag

def encMode (node : MulticastPubSub κ) : EncMode :=
  if node.encryptionEnabled then .AEAD else .NONE

/-- The payload limit of `publish`. -/
def effectiveMax (node : MulticastPubSub κ) : Nat :=
  if node.encryptionEnabled then MAX_PAYLOAD - aeadBodyLen 0 else MAX_PAYLOAD

/-- The datagram that `publish` builds. -/
def datagram (node : MulticastPubSub κ) (env : PublishEnv) (topic payload : Bytes)
    (encoding : Encoding) : Bytes :=
  let crc := topicCrc32 topic
  let mode := node.encMode
  let header := encodeHeader crc encoding (UInt16.ofNat payload.length) mode
  header ++ if mode = .AEAD then encryptBody node.encryptionKeyBytes env header crc payload
    else payload

/-- `send_datagram_`: whether the send succeeded, and what reached the socket. -/
def sendDatagram (node : MulticastPubSub κ) (sendOk : Bool) (datagram : Bytes)
    (group : GroupAddr) : MulticastPubSub κ × List Sent × Bool :=
  if !node.socket then (node, [], false)
  else if !sendOk then (node, [⟨datagram, group⟩], false)
  else ({ node with packetsSent := node.packetsSent + 1 }, [⟨datagram, group⟩], true)

/-! ## Retransmission -/

/-- `Component::set_timeout` with a numeric id: replaces the pending timeout of
that id. -/
def setTimeoutId (node : MulticastPubSub κ) (id delay : UInt32) (fn : TimeoutFn) :
    MulticastPubSub κ :=
  { node with
    timeouts := node.timeouts.filter (fun t => t.id ≠ some id) ++ [⟨some id, delay, fn⟩] }

/-- `Component::set_timeout` without an id. -/
def setTimeout (node : MulticastPubSub κ) (delay : UInt32) (fn : TimeoutFn) :
    MulticastPubSub κ :=
  { node with timeouts := node.timeouts ++ [⟨none, delay, fn⟩] }

/-- `Component::cancel_timeout`. -/
def cancelTimeout (node : MulticastPubSub κ) (id : UInt32) : MulticastPubSub κ :=
  { node with timeouts := node.timeouts.filter fun t => t.id ≠ some id }

/-- `cancel_indefinite_retransmit_`. -/
def cancelIndefiniteRetransmit (node : MulticastPubSub κ) (topic : Bytes) : MulticastPubSub κ :=
  match node.indefiniteJobs.lookup topic with
  | none => node
  | some _ =>
    { node.cancelTimeout (topicCrc32 topic) with
      indefiniteJobs := node.indefiniteJobs.filter fun job => job.1 ≠ topic }

/-- `schedule_retransmits_`. -/
def scheduleRetransmits (node : MulticastPubSub κ) (topic datagram : Bytes)
    (group : GroupAddr) : MulticastPubSub κ :=
  let node := node.cancelIndefiniteRetransmit topic
  if node.retransmitCount = -1 then
    let job : IndefiniteJob :=
      { datagram := datagram, group := group, topic := topic
        delay := node.retransmitDelayMs, rtId := topicCrc32 topic }
    let node := { node with indefiniteJobs := node.indefiniteJobs ++ [(topic, job)] }
    node.setTimeoutId job.rtId job.delay (.indefinite job)
  else
    -- The loop `for i = 1; i < retransmit_count_; i++`.
    (List.range (node.retransmitCount.toInt.toNat - 1)).foldl
      (fun node i =>
        node.setTimeout (node.retransmitDelayMs * UInt32.ofNat (i + 1)) (.resend datagram group))
      node

/-- `publish`: the next state, what was handed to the socket, and the result. -/
def publish (node : MulticastPubSub κ) (env : PublishEnv) (topic payload : Bytes)
    (encoding : Encoding) : MulticastPubSub κ × List Sent × Bool :=
  if !node.socket then (node, [], false)
  else if payload.length > node.effectiveMax then (node, [], false)
  else
    let group := topicToGroup topic node.scope
    let datagram := node.datagram env topic payload encoding
    let (node, sent, ok) := node.sendDatagram env.sendOk datagram group
    if !ok then (node, sent, false)
    else (node.scheduleRetransmits topic datagram group, sent, true)

/-- `publish_dynamic`. -/
def publishDynamic (node : MulticastPubSub κ) (env : PublishEnv) (topic : Bytes)
    (schemaId : UInt16) (protoBytes : Bytes) : MulticastPubSub κ × List Sent × Bool :=
  if protoBytes.length + 2 > MAX_PAYLOAD then (node, [], false)
  else node.publish env topic (storeU16le schemaId ++ protoBytes) .PROTOBUF

/-- A pending timeout runs. The closure of an indefinite chain looks its job up
again and arms the next link. -/
def fireTimeout (node : MulticastPubSub κ) (sendOk : Bool) (i : Nat) :
    MulticastPubSub κ × List Sent :=
  match node.timeouts[i]? with
  | none => (node, [])
  | some t =>
    let node := { node with timeouts := node.timeouts.eraseIdx i }
    match t.fn with
    | .resend datagram group =>
      let (node, sent, _) := node.sendDatagram sendOk datagram group
      (node, sent)
    | .indefinite job =>
      let (node, sent, _) := node.sendDatagram sendOk job.datagram job.group
      match node.indefiniteJobs.lookup job.topic with
      | none => (node, sent)
      | some next => (node.setTimeoutId job.rtId job.delay (.indefinite next), sent)

/-! ## The datagram -/

theorem length_encryptBody (key : Key) (env : PublishEnv) (header : Bytes) (crc : UInt32)
    (payload : Bytes) :
    (encryptBody key env header crc payload).length = aeadBodyLen payload.length := by
  simp only [encryptBody, chacha20poly1305Encrypt, List.length_append, length_chacha20Xor,
    length_aeadTag, length_storeU32le, aeadBodyLen, AEAD_NONCE_LEN, AEAD_PREFIX_LEN]
  omega

theorem length_datagram (node : MulticastPubSub κ) (env : PublishEnv) (topic payload : Bytes)
    (encoding : Encoding) :
    (node.datagram env topic payload encoding).length =
      HEADER_LEN + bodyLen node.encMode payload.length := by
  unfold datagram
  simp only [List.length_append, length_encodeHeader]
  cases h : node.encMode with
  | NONE => rfl
  | AEAD => simp [length_encryptBody, bodyLen]

/-- The payload limit leaves room for the rest of the datagram. -/
theorem length_datagram_le {node : MulticastPubSub κ} {payload : Bytes}
    (hsize : payload.length ≤ node.effectiveMax) (env : PublishEnv) (topic : Bytes)
    (encoding : Encoding) :
    (node.datagram env topic payload encoding).length ≤ MAX_DATAGRAM := by
  rw [length_datagram]
  revert hsize
  unfold effectiveMax encMode
  cases node.encryptionEnabled with
  | true =>
    intro hsize
    simp only [if_true, MAX_PAYLOAD, MAX_DATAGRAM, HEADER_LEN, aeadBodyLen, AEAD_NONCE_LEN,
      AEAD_PREFIX_LEN, AEAD_TAG_LEN, bodyLen] at hsize ⊢
    omega
  | false =>
    intro hsize
    simp only [Bool.false_eq_true, if_false, MAX_PAYLOAD, MAX_DATAGRAM, HEADER_LEN,
      bodyLen] at hsize ⊢
    omega

/-- The declared length is not truncated by its 16 bits. -/
theorem toNat_payloadLen {node : MulticastPubSub κ} {payload : Bytes}
    (hsize : payload.length ≤ node.effectiveMax) :
    (UInt16.ofNat payload.length).toNat = payload.length := by
  have hle : node.effectiveMax ≤ MAX_PAYLOAD := by
    unfold effectiveMax
    split
    · exact Nat.sub_le _ _
    · exact Nat.le_refl _
  simp only [MAX_PAYLOAD, MAX_DATAGRAM, HEADER_LEN] at hle
  rw [UInt16.toNat_ofNat']
  omega

/-- What a receiver reads from a published datagram. -/
theorem decode_datagram {node : MulticastPubSub κ} {payload : Bytes}
    (hsize : payload.length ≤ node.effectiveMax) (env : PublishEnv) (topic : Bytes)
    (encoding : Encoding) :
    decode (node.datagram env topic payload encoding) =
      .ok { topicCrc := if node.encMode ≠ .NONE then 0 else topicCrc32 topic
            encoding := encoding
            encMode := node.encMode
            plaintextLen := UInt16.ofNat payload.length
            payload := (node.datagram env topic payload encoding).drop HEADER_LEN } := by
  have hlen := node.length_datagram env topic payload encoding
  unfold datagram at hlen ⊢
  rw [decode_encodeHeader]
  · rfl
  · rw [List.length_append, length_encodeHeader] at hlen
    rw [toNat_payloadLen hsize]
    omega

end MulticastPubSub

end Mpubsub.Node
