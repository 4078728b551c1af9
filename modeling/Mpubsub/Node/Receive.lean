import Mpubsub.Node.Publish
import Mpubsub.Wire.Aead

/-!
# Receiving (`multicast_pubsub.cpp`)

`on_packet_` decodes a datagram, opens the body of an encrypted one, asks the
replay guard and dispatches by topic CRC. Each function has one lemma that says
what it can do: `deliver_invocations` for the dispatch loop,
`handleEncrypted_cases` for the encrypted path, `onPacket_cases` for the whole,
and `onPacket_frame` for what a datagram never changes. All checks before the
replay guard make one function of the datagram and the key, `receive`; the
`onPacket_of_receive` lemmas say what becomes of its result.
-/

namespace Mpubsub.Node

open Mpubsub.Lib Mpubsub.Wire
open Mpubsub.Replay (ReplayGuardT)

variable {κ : Type}

/-! ## Dispatch -/

/-- The body of `deliver_`'s loop for a subscription that takes the packet. -/
def Subscription.dispatch (sub : Subscription κ) (encoding : Encoding) (payload : Bytes) :
    List (Invocation κ) :=
  match encoding with
  | .RAW => sub.rawCallbacks.map fun cb => ⟨sub.topic, cb, payload⟩
  | .PROTOBUF =>
    if payload.length < 2 then []
    else
      let schemaId := loadU16le (payload.getD 0 0) (payload.getD 1 0)
      let body := payload.drop 2
      (sub.typedCallbacks.filter fun tc => tc.schemaId == schemaId).map fun tc =>
        ⟨sub.topic, tc.callback, body⟩

/-- The loop of `deliver_`: the invocations, and `crc_matched`. -/
def deliver (crc : UInt32) (encoding : Encoding) (payload : Bytes) (wasEncrypted : Bool) :
    List (Subscription κ) → List (Invocation κ) × Bool
  | [] => ([], false)
  | sub :: subs =>
    let (calls, matched) := deliver crc encoding payload wasEncrypted subs
    if sub.crc ≠ crc then (calls, matched)
    else if sub.requireEncryption && !wasEncrypted then (calls, true)
    else (sub.dispatch encoding payload ++ calls, true)

/-- Whether a subscription takes a packet with this CRC. -/
def Subscription.Takes (sub : Subscription κ) (crc : UInt32) (wasEncrypted : Bool) : Prop :=
  sub.crc = crc ∧ (sub.requireEncryption = true → wasEncrypted = true)

instance (sub : Subscription κ) (crc : UInt32) (wasEncrypted : Bool) :
    Decidable (sub.Takes crc wasEncrypted) := inferInstanceAs (Decidable (_ ∧ _))

/-- The dispatch loop serves the subscriptions that take the packet, in order. -/
theorem deliver_invocations (crc : UInt32) (encoding : Encoding) (payload : Bytes)
    (wasEncrypted : Bool) (subs : List (Subscription κ)) :
    (deliver crc encoding payload wasEncrypted subs).1 =
      (subs.filter fun sub => sub.Takes crc wasEncrypted).flatMap
        fun sub => sub.dispatch encoding payload := by
  induction subs with
  | nil => rfl
  | cons sub subs ih =>
    simp only [deliver]
    by_cases hcrc : sub.crc = crc
    · rw [if_neg (not_not.mpr hcrc)]
      by_cases hdrop : (sub.requireEncryption && !wasEncrypted) = true
      · have hnot : ¬sub.Takes crc wasEncrypted := by
          rintro ⟨-, h⟩
          revert hdrop h
          cases sub.requireEncryption <;> cases wasEncrypted <;> decide
        rw [if_pos hdrop, List.filter_cons_of_neg (by simpa using hnot)]
        exact ih
      · have htakes : sub.Takes crc wasEncrypted := by
          refine ⟨hcrc, ?_⟩
          revert hdrop
          cases sub.requireEncryption <;> cases wasEncrypted <;> decide
        rw [if_neg hdrop, List.filter_cons_of_pos (by simpa using htakes), List.flatMap_cons, ih]
    · have hnot : ¬sub.Takes crc wasEncrypted := fun h => hcrc h.1
      rw [if_pos hcrc, List.filter_cons_of_neg (by simpa using hnot)]
      exact ih

theorem topic_of_mem_dispatch {sub : Subscription κ} {encoding : Encoding} {payload : Bytes}
    {inv : Invocation κ} (h : inv ∈ sub.dispatch encoding payload) : inv.topic = sub.topic := by
  unfold Subscription.dispatch at h
  cases encoding with
  | RAW =>
    obtain ⟨cb, -, rfl⟩ := List.mem_map.mp h
    rfl
  | PROTOBUF =>
    simp only at h
    split at h
    · cases h
    · obtain ⟨tc, -, rfl⟩ := List.mem_map.mp h
      rfl

/-- An invocation comes from a subscription of its topic that took the packet. -/
theorem exists_of_mem_deliver {crc : UInt32} {encoding : Encoding} {payload : Bytes}
    {wasEncrypted : Bool} {subs : List (Subscription κ)} {inv : Invocation κ}
    (h : inv ∈ (deliver crc encoding payload wasEncrypted subs).1) :
    ∃ sub ∈ subs, sub.Takes crc wasEncrypted ∧ inv.topic = sub.topic := by
  rw [deliver_invocations] at h
  obtain ⟨sub, hsub, hinv⟩ := List.mem_flatMap.mp h
  obtain ⟨hmem, htakes⟩ := List.mem_filter.mp hsub
  exact ⟨sub, hmem, of_decide_eq_true htakes, topic_of_mem_dispatch hinv⟩

/-- What a datagram carries for a node: where it goes, and the timestamp and nonce of an
encrypted one. -/
structure Received where
  crc : UInt32
  encoding : Encoding
  payload : Bytes
  replay : Option (UInt32 × UInt32)
deriving DecidableEq

/-! ## Encrypted packets -/

/-- The decryption in `handle_encrypted_`: the body is split into nonce,
ciphertext and tag, and the header is the AAD. -/
def openBody (key : Key) (header body : Bytes) : Option Bytes :=
  let nonce := body.take AEAD_NONCE_LEN
  let ctLen := body.length - AEAD_NONCE_LEN - AEAD_TAG_LEN
  let ct := (body.drop AEAD_NONCE_LEN).take ctLen
  let tag := body.drop (AEAD_NONCE_LEN + ctLen)
  chacha20poly1305Decrypt key nonce header ct tag

/-- A body that was encrypted under the key opens to what was put in. -/
theorem openBody_encryptBody (key : Key) (env : PublishEnv) (header : Bytes) (crc : UInt32)
    (payload : Bytes) :
    openBody key header (MulticastPubSub.encryptBody key env header crc payload) =
      some (storeU32le crc ++ storeU32le (MulticastPubSub.replayTimestamp env.clock) ++
        payload) := by
  generalize hplain : storeU32le crc ++ storeU32le (MulticastPubSub.replayTimestamp env.clock) ++
    payload = plain
  obtain ⟨nonce, hnonce⟩ : ∃ nonce, nonce =
    storeU32le env.random0 ++ storeU32le env.random1 ++ storeU32le env.random2 := ⟨_, rfl⟩
  have hbody : MulticastPubSub.encryptBody key env header crc payload =
      nonce ++ ((chacha20poly1305Encrypt key nonce header plain).1 ++
        (chacha20poly1305Encrypt key nonce header plain).2) := by
    simp only [MulticastPubSub.encryptBody, ← hnonce, hplain, List.append_assoc]
  have hnlen : nonce.length = AEAD_NONCE_LEN := by rw [hnonce]; rfl
  have htlen : (chacha20poly1305Encrypt key nonce header plain).2.length = AEAD_TAG_LEN :=
    length_aeadTag ..
  have hclen : (nonce ++ ((chacha20poly1305Encrypt key nonce header plain).1 ++
      (chacha20poly1305Encrypt key nonce header plain).2)).length - AEAD_NONCE_LEN -
        AEAD_TAG_LEN = (chacha20poly1305Encrypt key nonce header plain).1.length := by
    rw [List.length_append, List.length_append, hnlen, htlen]
    omega
  unfold openBody
  rw [hbody]
  simp only [hclen]
  rw [List.take_left' hnlen, List.drop_left' hnlen, List.take_left, ← hnlen, ← List.drop_drop,
    List.drop_left, List.drop_left, decrypt_encrypt]

/-- A body that opens is as long as its plaintext, nonce and tag. -/
theorem length_of_openBody {key : Key} {header body plain : Bytes}
    (h : openBody key header body = some plain) :
    plain.length = body.length - AEAD_NONCE_LEN - AEAD_TAG_LEN := by
  rw [length_of_decrypt h, List.length_take, List.length_drop]
  omega

namespace MulticastPubSub

/-- The replay check in `handle_encrypted_`: an enabled guard is asked, with the
time that `replay_now_` gives (0 and false where there is no valid one). -/
def replayCheck (replayGuard : ReplayGuardT REPLAY_CAPACITY) (clock : Option UInt32)
    (ts rnonce : UInt32) : ReplayGuardT REPLAY_CAPACITY × Bool :=
  if replayGuard.enabled then replayGuard.accept (clock.getD 0) clock.isSome ts rnonce
  else (replayGuard, true)

/-- `handle_encrypted_`. -/
def handleEncrypted (node : MulticastPubSub κ) (raw : Bytes) (pkt : DecodedPacket)
    (clock : Option UInt32) : MulticastPubSub κ × List (Invocation κ) :=
  let failed := { node with verifyFailed := node.verifyFailed + 1 }
  if !node.encryptionEnabled then (failed, [])
  else
    let body := pkt.payload
    if body.length > MAX_DATAGRAM ∨ body.length < AEAD_NONCE_LEN + AEAD_TAG_LEN then (failed, [])
    else
      match openBody node.encryptionKeyBytes (raw.take HEADER_LEN) body with
      | none => (failed, [])
      | some plain =>
        let node := { node with verifyOk := node.verifyOk + 1 }
        let crc := loadU32leAt plain 0
        let ts := loadU32leAt plain 4
        let rnonce := loadU32leAt (body.take AEAD_NONCE_LEN) 0
        let (replayGuard, accepted) := replayCheck node.replayGuard clock ts rnonce
        let node := { node with replayGuard := replayGuard }
        if !accepted then (node, [])
        else
          let payload := (plain.drop AEAD_PREFIX_LEN).take pkt.plaintextLen.toNat
          (node, (deliver crc pkt.encoding payload true node.subscriptions).1)

/-- `on_packet_`. -/
def onPacket (node : MulticastPubSub κ) (raw : Bytes) (clock : Option UInt32) :
    MulticastPubSub κ × List (Invocation κ) :=
  let node := { node with packetsReceived := node.packetsReceived + 1 }
  match decode raw with
  | .error _ => (node, [])
  | .ok pkt =>
    match pkt.encMode with
    | .AEAD => node.handleEncrypted raw pkt clock
    | .NONE =>
      let (calls, matched) :=
        deliver pkt.topicCrc pkt.encoding pkt.payload false node.subscriptions
      if matched then ({ node with verifyOk := node.verifyOk + 1 }, calls)
      else ({ node with verifyFailed := node.verifyFailed + 1 }, calls)

/-- One iteration of the read loop in `loop`: `read` fills a buffer of
`MAX_DATAGRAM` bytes and drops the rest of the datagram; a result of 0 ends the
loop. -/
def readDatagram (node : MulticastPubSub κ) (datagram : Bytes) (clock : Option UInt32) :
    MulticastPubSub κ × List (Invocation κ) :=
  let buf := datagram.take MAX_DATAGRAM
  if buf.length = 0 then (node, []) else node.onPacket buf clock

/-! ## What a packet does -/

/-- The encrypted path either calls nothing, or the node has a key, the body opens
under it, the guard takes the packet, and its payload is dispatched. -/
theorem handleEncrypted_cases (node : MulticastPubSub κ) (raw : Bytes) (pkt : DecodedPacket)
    (clock : Option UInt32) :
    (node.handleEncrypted raw pkt clock).2 = [] ∨
      node.encryptionEnabled = true ∧ ∃ plain,
        openBody node.encryptionKeyBytes (raw.take HEADER_LEN) pkt.payload = some plain ∧
        (node.handleEncrypted raw pkt clock).2 =
          (deliver (loadU32leAt plain 0) pkt.encoding
            ((plain.drop AEAD_PREFIX_LEN).take pkt.plaintextLen.toNat) true
            node.subscriptions).1 := by
  unfold handleEncrypted
  cases hkey : node.encryptionEnabled with
  | false => exact .inl rfl
  | true =>
    simp only [Bool.not_true, Bool.false_eq_true, if_false]
    split
    · exact .inl rfl
    cases hopen : openBody node.encryptionKeyBytes (raw.take HEADER_LEN) pkt.payload with
    | none => exact .inl rfl
    | some plain =>
      simp only
      split
      · exact .inl rfl
      · exact .inr ⟨trivial, plain, rfl, rfl⟩

/-- A body that opens under the node's key and that the guard takes is
dispatched. -/
theorem handleEncrypted_of_open {node : MulticastPubSub κ} {raw plain : Bytes}
    {pkt : DecodedPacket} {clock : Option UInt32} (hkey : node.encryptionEnabled = true)
    (hmax : pkt.payload.length ≤ MAX_DATAGRAM)
    (hmin : AEAD_NONCE_LEN + AEAD_TAG_LEN ≤ pkt.payload.length)
    (hopen : openBody node.encryptionKeyBytes (raw.take HEADER_LEN) pkt.payload = some plain)
    (hreplay : (replayCheck node.replayGuard clock (loadU32leAt plain 4)
      (loadU32leAt (pkt.payload.take AEAD_NONCE_LEN) 0)).2 = true) :
    (node.handleEncrypted raw pkt clock).2 =
      (deliver (loadU32leAt plain 0) pkt.encoding
        ((plain.drop AEAD_PREFIX_LEN).take pkt.plaintextLen.toNat) true
        node.subscriptions).1 := by
  unfold handleEncrypted
  simp only [hkey, Bool.not_true, Bool.false_eq_true, if_false]
  rw [if_neg (by omega), hopen]
  simp only [hreplay, Bool.not_true, Bool.false_eq_true, if_false]

/-- The guard after a replay check is the old one, or what `accept` made of it. -/
theorem replayCheck_cases (replayGuard : ReplayGuardT REPLAY_CAPACITY) (clock : Option UInt32)
    (ts rnonce : UInt32) :
    (replayCheck replayGuard clock ts rnonce).1 = replayGuard ∨
      ∃ now nowValid, (replayCheck replayGuard clock ts rnonce).1 =
        (replayGuard.accept now nowValid ts rnonce).1 := by
  unfold replayCheck
  split
  · exact .inr ⟨_, _, rfl⟩
  · exact .inl rfl

/-- What the encrypted path leaves as it is: everything but the counters and the guard,
which is at most asked once. -/
theorem handleEncrypted_frame (node : MulticastPubSub κ) (raw : Bytes) (pkt : DecodedPacket)
    (clock : Option UInt32) :
    ∃ replayGuard ok failed,
      (node.handleEncrypted raw pkt clock).1 =
        { node with replayGuard := replayGuard, verifyOk := ok, verifyFailed := failed } ∧
      (replayGuard = node.replayGuard ∨ ∃ now nowValid ts rnonce,
        replayGuard = (node.replayGuard.accept now nowValid ts rnonce).1) := by
  unfold handleEncrypted
  simp only
  split
  · exact ⟨_, _, _, rfl, .inl rfl⟩
  split
  · exact ⟨_, _, _, rfl, .inl rfl⟩
  cases openBody node.encryptionKeyBytes (raw.take HEADER_LEN) pkt.payload with
  | none => exact ⟨_, _, _, rfl, .inl rfl⟩
  | some plain =>
    have hguard := replayCheck_cases node.replayGuard clock (loadU32leAt plain 4)
      (loadU32leAt (pkt.payload.take AEAD_NONCE_LEN) 0)
    have hguard' := hguard.imp_right fun ⟨now, nowValid, h⟩ =>
      (⟨now, nowValid, _, _, h⟩ : ∃ now nowValid ts rnonce, _ =
        (node.replayGuard.accept now nowValid ts rnonce).1)
    simp only
    split
    · exact ⟨_, _, _, rfl, hguard'⟩
    · exact ⟨_, _, _, rfl, hguard'⟩

/-- The same for a whole datagram. -/
theorem onPacket_frame (node : MulticastPubSub κ) (raw : Bytes) (clock : Option UInt32) :
    ∃ replayGuard received ok failed,
      (node.onPacket raw clock).1 =
        { node with
          replayGuard := replayGuard
          packetsReceived := received
          verifyOk := ok
          verifyFailed := failed } ∧
      (replayGuard = node.replayGuard ∨ ∃ now nowValid ts rnonce,
        replayGuard = (node.replayGuard.accept now nowValid ts rnonce).1) := by
  unfold onPacket
  simp only
  split
  · exact ⟨_, _, _, _, rfl, .inl rfl⟩
  split
  · obtain ⟨replayGuard, ok, failed, heq, hguard⟩ := handleEncrypted_frame
      { node with packetsReceived := node.packetsReceived + 1 } raw _ clock
    exact ⟨replayGuard, _, ok, failed, heq, hguard⟩
  · split
    · exact ⟨_, _, _, _, rfl, .inl rfl⟩
    · exact ⟨_, _, _, _, rfl, .inl rfl⟩

/-- What calls a callback: a plaintext packet, dispatched by the CRC in its header,
or an encrypted one that opens under the node's key, dispatched by the CRC in
its plaintext. -/
theorem onPacket_cases (node : MulticastPubSub κ) (raw : Bytes) (clock : Option UInt32) :
    (node.onPacket raw clock).2 = [] ∨
    (∃ pkt, decode raw = .ok pkt ∧ pkt.encMode = .NONE ∧
      (node.onPacket raw clock).2 =
        (deliver pkt.topicCrc pkt.encoding pkt.payload false node.subscriptions).1) ∨
    (∃ pkt plain, decode raw = .ok pkt ∧ pkt.encMode = .AEAD ∧ node.encryptionEnabled = true ∧
      openBody node.encryptionKeyBytes (raw.take HEADER_LEN) pkt.payload = some plain ∧
      (node.onPacket raw clock).2 =
        (deliver (loadU32leAt plain 0) pkt.encoding
          ((plain.drop AEAD_PREFIX_LEN).take pkt.plaintextLen.toNat) true
          node.subscriptions).1) := by
  unfold onPacket
  cases hdecode : decode raw with
  | error e => exact .inl rfl
  | ok pkt =>
    simp only
    cases hmode : pkt.encMode with
    | NONE =>
      refine .inr (.inl ⟨pkt, rfl, hmode, ?_⟩)
      simp only
      split <;> rfl
    | AEAD =>
      rcases handleEncrypted_cases { node with packetsReceived := node.packetsReceived + 1 }
        raw pkt clock with h | ⟨hkey, plain, hopen, h⟩
      · exact .inl h
      · exact .inr (.inr ⟨pkt, plain, rfl, hmode, hkey, hopen, h⟩)

/-! ## The checks before the guard -/

/-- The checks of `on_packet_` and `handle_encrypted_` up to the replay guard. -/
def receive (node : MulticastPubSub κ) (raw : Bytes) : Option Received :=
  match decode raw with
  | .error _ => none
  | .ok pkt =>
    match pkt.encMode with
    | .NONE => some ⟨pkt.topicCrc, pkt.encoding, pkt.payload, none⟩
    | .AEAD =>
      let body := pkt.payload
      if !node.encryptionEnabled then none
      else if body.length > MAX_DATAGRAM ∨ body.length < AEAD_NONCE_LEN + AEAD_TAG_LEN then none
      else
        (openBody node.encryptionKeyBytes (raw.take HEADER_LEN) body).map fun plain =>
          ⟨loadU32leAt plain 0, pkt.encoding,
            (plain.drop AEAD_PREFIX_LEN).take pkt.plaintextLen.toNat,
            some (loadU32leAt plain 4, loadU32leAt (body.take AEAD_NONCE_LEN) 0)⟩

section Received

variable {node : MulticastPubSub κ} {raw : Bytes}

/-- What does not get to the guard moves counters only. -/
theorem onPacket_of_receive_none (h : node.receive raw = none) (clock : Option UInt32) :
    ∃ received failed, node.onPacket raw clock =
      ({ node with packetsReceived := received, verifyFailed := failed }, []) := by
  unfold receive at h
  unfold onPacket
  cases hdecode : decode raw with
  | error e => exact ⟨_, _, rfl⟩
  | ok pkt =>
    rw [hdecode] at h
    simp only at h ⊢
    cases hmode : pkt.encMode with
    | NONE =>
      rw [hmode] at h
      cases h
    | AEAD =>
      rw [hmode] at h
      simp only [handleEncrypted] at h ⊢
      cases hkey : node.encryptionEnabled with
      | false => exact ⟨_, _, rfl⟩
      | true =>
        simp only [hkey, Bool.not_true, Bool.false_eq_true, if_false] at h ⊢
        by_cases hbody : pkt.payload.length > MAX_DATAGRAM ∨
            pkt.payload.length < AEAD_NONCE_LEN + AEAD_TAG_LEN
        · rw [if_pos hbody]
          exact ⟨_, _, rfl⟩
        · rw [if_neg hbody] at h ⊢
          rw [Option.map_eq_none_iff.mp h]
          exact ⟨_, _, rfl⟩

/-- A plaintext packet is dispatched. -/
theorem onPacket_of_receive_plain {crc : UInt32} {encoding : Encoding} {payload : Bytes}
    (h : node.receive raw = some ⟨crc, encoding, payload, none⟩) (clock : Option UInt32) :
    ∃ received ok failed, node.onPacket raw clock =
      ({ node with packetsReceived := received, verifyOk := ok, verifyFailed := failed },
        (deliver crc encoding payload false node.subscriptions).1) := by
  unfold receive at h
  unfold onPacket
  cases hdecode : decode raw with
  | error e =>
    rw [hdecode] at h
    cases h
  | ok pkt =>
    rw [hdecode] at h
    simp only at h ⊢
    cases hmode : pkt.encMode with
    | NONE =>
      rw [hmode] at h
      cases h
      simp only
      split
      · exact ⟨_, _, _, rfl⟩
      · exact ⟨_, _, _, rfl⟩
    | AEAD =>
      rw [hmode] at h
      simp only at h
      split at h
      · cases h
      split at h
      · cases h
      obtain ⟨plain, -, hplain⟩ := Option.map_eq_some_iff.mp h
      cases hplain

/-- An encrypted packet that opened is shown to the guard, and dispatched if it takes it. -/
theorem onPacket_of_receive_aead {crc ts rnonce : UInt32} {encoding : Encoding} {payload : Bytes}
    (h : node.receive raw = some ⟨crc, encoding, payload, some (ts, rnonce)⟩)
    (clock : Option UInt32) :
    ∃ received ok, node.onPacket raw clock =
      ({ node with
          replayGuard := (replayCheck node.replayGuard clock ts rnonce).1
          packetsReceived := received
          verifyOk := ok },
        if (replayCheck node.replayGuard clock ts rnonce).2 then
          (deliver crc encoding payload true node.subscriptions).1
        else []) := by
  unfold receive at h
  unfold onPacket
  cases hdecode : decode raw with
  | error e =>
    rw [hdecode] at h
    cases h
  | ok pkt =>
    rw [hdecode] at h
    simp only at h ⊢
    cases hmode : pkt.encMode with
    | NONE =>
      rw [hmode] at h
      cases h
    | AEAD =>
      rw [hmode] at h
      simp only [handleEncrypted] at h ⊢
      cases hkey : node.encryptionEnabled with
      | false =>
        rw [hkey] at h
        cases h
      | true =>
        simp only [hkey, Bool.not_true, Bool.false_eq_true, if_false] at h ⊢
        by_cases hbody : pkt.payload.length > MAX_DATAGRAM ∨
            pkt.payload.length < AEAD_NONCE_LEN + AEAD_TAG_LEN
        · rw [if_pos hbody] at h
          cases h
        · rw [if_neg hbody] at h ⊢
          obtain ⟨plain, hopen, hplain⟩ := Option.map_eq_some_iff.mp h
          cases hplain
          rw [hopen]
          simp only
          cases hreplay : (replayCheck node.replayGuard clock (loadU32leAt plain 4)
            (loadU32leAt (pkt.payload.take AEAD_NONCE_LEN) 0)).2 with
          | false => exact ⟨_, _, rfl⟩
          | true => exact ⟨_, _, rfl⟩

end Received

/-- What becomes of a packet behind the checks: the guard is asked about an encrypted one, and
the dispatch loop runs. -/
def handOver (node : MulticastPubSub κ) (clock : Option UInt32) :
    Option Received → List (Invocation κ)
  | none => []
  | some ⟨crc, encoding, payload, none⟩ =>
    (deliver crc encoding payload false node.subscriptions).1
  | some ⟨crc, encoding, payload, some (ts, rnonce)⟩ =>
    if (replayCheck node.replayGuard clock ts rnonce).2 then
      (deliver crc encoding payload true node.subscriptions).1
    else []

/-- A datagram does to the callbacks what its content does. -/
theorem onPacket_eq_handOver (node : MulticastPubSub κ) (raw : Bytes) (clock : Option UInt32) :
    (node.onPacket raw clock).2 = node.handOver clock (node.receive raw) := by
  cases h : node.receive raw with
  | none =>
    obtain ⟨_, _, heq⟩ := onPacket_of_receive_none h clock
    rw [heq]
    rfl
  | some r =>
    obtain ⟨crc, encoding, payload, replay⟩ := r
    cases replay with
    | none =>
      obtain ⟨_, _, _, heq⟩ := onPacket_of_receive_plain h clock
      rw [heq]
      rfl
    | some fresh =>
      obtain ⟨_, _, heq⟩ := onPacket_of_receive_aead h clock
      rw [heq]
      rfl

end MulticastPubSub

end Mpubsub.Node
