import Mpubsub.Node.Run

/-!
# From publisher to receiver

What a receiver does with a datagram that a publisher with the same key built:
the header that was written is the header that is decoded, the body opens to
what was sealed, and the payload is dispatched by the topic's CRC
(`onPacket_datagram`). Among the calls are those of the topic's own record
(`filter_deliver`).
-/

namespace Mpubsub.Node

open Mpubsub.Lib Mpubsub.Wire

variable {κ κ' : Type}

namespace MulticastPubSub

/-- The body of a published datagram. -/
theorem drop_datagram (node : MulticastPubSub κ) (env : PublishEnv) (topic payload : Bytes)
    (encoding : Encoding) :
    (node.datagram env topic payload encoding).drop HEADER_LEN =
      if node.encMode = .AEAD then
        encryptBody node.encryptionKeyBytes env
          (encodeHeader (topicCrc32 topic) encoding (UInt16.ofNat payload.length) node.encMode)
          (topicCrc32 topic) payload
      else payload :=
  List.drop_left' (length_encodeHeader ..)

/-- The header of a published datagram. -/
theorem take_datagram (node : MulticastPubSub κ) (env : PublishEnv) (topic payload : Bytes)
    (encoding : Encoding) :
    (node.datagram env topic payload encoding).take HEADER_LEN =
      encodeHeader (topicCrc32 topic) encoding (UInt16.ofNat payload.length) node.encMode :=
  List.take_left' (length_encodeHeader ..)

theorem take_nonce_encryptBody (key : Key) (env : PublishEnv) (header : Bytes) (crc : UInt32)
    (payload : Bytes) :
    loadU32leAt ((encryptBody key env header crc payload).take AEAD_NONCE_LEN) 0 =
      env.random0 := by
  unfold encryptBody
  simp only [List.append_assoc]
  rw [← List.append_assoc, ← List.append_assoc, List.append_assoc (storeU32le env.random0),
    List.take_left' (by rfl)]
  exact loadU32leAt_storeU32le_append ..

/-- The prefix that `encrypt_body_` puts ahead of the payload, taken apart again. -/
theorem plaintext_parts (crc ts : UInt32) (payload : Bytes) :
    loadU32leAt (storeU32le crc ++ storeU32le ts ++ payload) 0 = crc ∧
      loadU32leAt (storeU32le crc ++ storeU32le ts ++ payload) 4 = ts ∧
      (storeU32le crc ++ storeU32le ts ++ payload).drop AEAD_PREFIX_LEN = payload := by
  refine ⟨?_, ?_, List.drop_left' rfl⟩
  · rw [List.append_assoc]
    exact loadU32leAt_storeU32le_append ..
  · rw [List.append_assoc, loadU32leAt_append_right _ (by simp), length_storeU32le]
    exact loadU32leAt_storeU32le_append ..

/-- **Reception.** A published datagram is dispatched by the CRC of its topic, with the
payload that was published, if the receiver has the publisher's key where it has
one, and its guard takes the packet. -/
theorem onPacket_datagram {p : MulticastPubSub κ'} {r : MulticastPubSub κ} {payload : Bytes}
    (hsize : payload.length ≤ p.effectiveMax) (env : PublishEnv) (topic : Bytes)
    (encoding : Encoding) (clock : Option UInt32)
    (hkey : p.encryptionEnabled = true →
      r.encryptionEnabled = true ∧ r.encryptionKeyBytes = p.encryptionKeyBytes)
    (hreplay : p.encryptionEnabled = true →
      (replayCheck r.replayGuard clock (replayTimestamp env.clock) env.random0).2 = true) :
    (r.onPacket (p.datagram env topic payload encoding) clock).2 =
      (deliver (topicCrc32 topic) encoding payload p.encryptionEnabled r.subscriptions).1 := by
  have hbody := p.drop_datagram env topic payload encoding
  have hheader := p.take_datagram env topic payload encoding
  unfold onPacket
  rw [decode_datagram hsize, hbody]
  cases henabled : p.encryptionEnabled with
  | false =>
    have hmode : p.encMode = .NONE := by rw [encMode, henabled]; rfl
    simp only [hmode, ne_eq, not_true_eq_false, if_false, reduceCtorEq]
    split <;> rfl
  | true =>
    have hmode : p.encMode = .AEAD := by rw [encMode, henabled]; rfl
    obtain ⟨hon, hsame⟩ := hkey henabled
    rw [hmode] at hheader ⊢
    simp only [if_true]
    have hlen := length_encryptBody p.encryptionKeyBytes env (encodeHeader (topicCrc32 topic)
      encoding (UInt16.ofNat payload.length) .AEAD) (topicCrc32 topic) payload
    obtain ⟨hcrc, hts, hdrop⟩ := plaintext_parts (topicCrc32 topic) (replayTimestamp env.clock)
      payload
    have hmax := length_datagram_le hsize env topic encoding
    rw [length_datagram, hmode] at hmax
    rw [@handleEncrypted_of_open κ _ _ (storeU32le (topicCrc32 topic) ++
      storeU32le (replayTimestamp env.clock) ++ payload)]
    · simp only [hcrc, hdrop, toNat_payloadLen hsize, List.take_length]
    · exact hon
    · simp only [hlen]
      simp only [bodyLen] at hmax
      omega
    · simp only [hlen, aeadBodyLen]
      omega
    · simp only [hheader, hsame]
      exact openBody_encryptBody ..
    · simp only [hts, take_nonce_encryptBody]
      exact hreplay henabled

/-- What a published datagram carries for a receiver with the publisher's key. -/
theorem receive_datagram {p : MulticastPubSub κ'} {r : MulticastPubSub κ} {payload : Bytes}
    (hsize : payload.length ≤ p.effectiveMax) (env : PublishEnv) (topic : Bytes)
    (encoding : Encoding)
    (hkey : p.encryptionEnabled = true →
      r.encryptionEnabled = true ∧ r.encryptionKeyBytes = p.encryptionKeyBytes) :
    r.receive (p.datagram env topic payload encoding) =
      some ⟨topicCrc32 topic, encoding, payload,
        if p.encryptionEnabled then some (replayTimestamp env.clock, env.random0) else none⟩ := by
  have hbody := p.drop_datagram env topic payload encoding
  have hheader := p.take_datagram env topic payload encoding
  unfold receive
  rw [decode_datagram hsize, hbody]
  cases henabled : p.encryptionEnabled with
  | false =>
    have hmode : p.encMode = .NONE := by rw [encMode, henabled]; rfl
    simp only [hmode, ne_eq, not_true_eq_false, if_false, reduceCtorEq, Bool.false_eq_true]
  | true =>
    have hmode : p.encMode = .AEAD := by rw [encMode, henabled]; rfl
    obtain ⟨hon, hsame⟩ := hkey henabled
    rw [hmode] at hheader ⊢
    have hlen := length_encryptBody p.encryptionKeyBytes env (encodeHeader (topicCrc32 topic)
      encoding (UInt16.ofNat payload.length) .AEAD) (topicCrc32 topic) payload
    obtain ⟨hcrc, hts, hdrop⟩ := plaintext_parts (topicCrc32 topic) (replayTimestamp env.clock)
      payload
    have hmax := length_datagram_le hsize env topic encoding
    rw [length_datagram, hmode] at hmax
    have hfits : ¬((encryptBody p.encryptionKeyBytes env (encodeHeader (topicCrc32 topic)
        encoding (UInt16.ofNat payload.length) .AEAD) (topicCrc32 topic) payload).length >
        MAX_DATAGRAM ∨ (encryptBody p.encryptionKeyBytes env (encodeHeader (topicCrc32 topic)
        encoding (UInt16.ofNat payload.length) .AEAD) (topicCrc32 topic) payload).length <
        AEAD_NONCE_LEN + AEAD_TAG_LEN) := by
      rw [hlen]
      simp only [bodyLen, aeadBodyLen] at hmax ⊢
      omega
    simp only [hon, hheader, hsame, Bool.not_true, Bool.false_eq_true, if_false, if_true]
    rw [if_neg hfits, openBody_encryptBody]
    simp only [Option.map_some, hcrc, hts, hdrop, toNat_payloadLen hsize, List.take_length,
      take_nonce_encryptBody]

/-- Whatever the guard says, a published datagram is not dispatched in any other way. -/
theorem onPacket_datagram_cases {p : MulticastPubSub κ'} {r : MulticastPubSub κ}
    {payload : Bytes} (hsize : payload.length ≤ p.effectiveMax) (env : PublishEnv)
    (topic : Bytes) (encoding : Encoding) (clock : Option UInt32)
    (hkey : p.encryptionEnabled = true → r.encryptionKeyBytes = p.encryptionKeyBytes) :
    (r.onPacket (p.datagram env topic payload encoding) clock).2 = [] ∨
      (r.onPacket (p.datagram env topic payload encoding) clock).2 =
        (deliver (topicCrc32 topic) encoding payload p.encryptionEnabled r.subscriptions).1 := by
  have hdecode := decode_datagram hsize env topic encoding
  have hbody := p.drop_datagram env topic payload encoding
  have hheader := p.take_datagram env topic payload encoding
  rcases r.onPacket_cases (p.datagram env topic payload encoding) clock with h |
    ⟨pkt, hpkt, hmode, h⟩ | ⟨pkt, plain, hpkt, hmode, hon, hopen, h⟩
  · exact .inl h
  · rw [hdecode] at hpkt
    cases hpkt
    simp only at hmode h
    have hoff : p.encryptionEnabled = false := by
      revert hmode
      unfold encMode
      cases p.encryptionEnabled <;> decide
    rw [hmode] at hbody
    rw [hbody, hmode] at h
    exact .inr (by rw [h, hoff]; rfl)
  · rw [hdecode] at hpkt
    cases hpkt
    simp only at hmode h hopen
    have hon' : p.encryptionEnabled = true := by
      revert hmode
      unfold encMode
      cases p.encryptionEnabled <;> decide
    rw [hbody, hheader, hmode, if_pos rfl, hkey hon', openBody_encryptBody,
      Option.some.injEq] at hopen
    obtain ⟨hcrc, -, hdrop⟩ := plaintext_parts (topicCrc32 topic) (replayTimestamp env.clock)
      payload
    rw [← hopen, hcrc, hdrop, toNat_payloadLen hsize, List.take_length] at h
    exact .inr (by rw [h, hon'])

/-- A publish within the limit reaches the socket. -/
theorem publish_sends {p : MulticastPubSub κ} (hsocket : p.socket = true) {payload : Bytes}
    (hsize : payload.length ≤ p.effectiveMax) (env : PublishEnv) (topic : Bytes)
    (encoding : Encoding) :
    (p.publish env topic payload encoding).2 =
      ([⟨p.datagram env topic payload encoding, topicToGroup topic p.scope⟩], env.sendOk) := by
  unfold publish sendDatagram
  rw [hsocket, Bool.not_true, if_neg Bool.false_ne_true, if_neg (Nat.not_lt.mpr hsize)]
  cases env.sendOk with
  | true => simp
  | false => simp

/-- Without a socket, or with a payload over the limit, a publish changes nothing. -/
theorem publish_refuses {p : MulticastPubSub κ} {payload : Bytes}
    (h : p.socket = false ∨ p.effectiveMax < payload.length) (env : PublishEnv) (topic : Bytes)
    (encoding : Encoding) : p.publish env topic payload encoding = (p, [], false) := by
  unfold publish
  rcases h with hsocket | hsize
  · rw [hsocket]
    rfl
  · by_cases hclosed : (!p.socket) = true
    · rw [if_pos hclosed]
    · rw [if_neg hclosed, if_pos hsize]

/-- A publish refuses, or hands its one datagram to the socket. -/
theorem publish_cases (p : MulticastPubSub κ) (env : PublishEnv) (topic payload : Bytes)
    (encoding : Encoding) :
    p.publish env topic payload encoding = (p, [], false) ∨
      payload.length ≤ p.effectiveMax ∧ (p.publish env topic payload encoding).2 =
        ([⟨p.datagram env topic payload encoding, topicToGroup topic p.scope⟩], env.sendOk) := by
  cases hsocket : p.socket with
  | false => exact .inl (publish_refuses (.inl hsocket) env topic encoding)
  | true =>
    rcases Nat.lt_or_ge p.effectiveMax payload.length with hover | hsize
    · exact .inl (publish_refuses (.inr hover) env topic encoding)
    · exact .inr ⟨hsize, publish_sends hsocket hsize env topic encoding⟩

/-- What `publish` hands to the socket. -/
theorem sent_of_publish {p : MulticastPubSub κ} {env : PublishEnv} {topic payload : Bytes}
    {encoding : Encoding} {sent : Sent}
    (h : sent ∈ (p.publish env topic payload encoding).2.1) :
    payload.length ≤ p.effectiveMax ∧
      sent = ⟨p.datagram env topic payload encoding, topicToGroup topic p.scope⟩ := by
  rcases p.publish_cases env topic payload encoding with hrefused | ⟨hsize, hsent⟩
  · rw [hrefused] at h
    cases h
  · rw [hsent] at h
    exact ⟨hsize, List.mem_singleton.mp h⟩

end MulticastPubSub

/-- Among the calls of the dispatch loop, those of a topic are made for its record. -/
theorem filter_deliver {subs : List (Subscription κ)} (hnodup : (subs.map (·.topic)).Nodup)
    {crc : UInt32} {encoding : Encoding} {payload : Bytes} {wasEncrypted : Bool} {topic : Bytes}
    (htakes : ∀ sub ∈ subs, sub.topic = topic → sub.Takes crc wasEncrypted) :
    (deliver crc encoding payload wasEncrypted subs).1.filter (fun inv => inv.topic = topic) =
      match subs.find? fun sub => sub.topic = topic with
      | none => []
      | some sub => sub.dispatch encoding payload := by
  rw [deliver_invocations]
  induction subs with
  | nil => rfl
  | cons sub subs ih =>
    rw [List.map_cons, List.nodup_cons] at hnodup
    have hrest : ∀ s ∈ subs, s.topic = topic → s.Takes crc wasEncrypted := fun s hs =>
      htakes s (List.mem_cons_of_mem _ hs)
    have htopics : ∀ inv ∈ sub.dispatch encoding payload, inv.topic = sub.topic := fun _ h =>
      topic_of_mem_dispatch h
    by_cases htopic : sub.topic = topic
    · -- The record itself; no other one is of its topic.
      have hothers : ((subs.filter fun s => s.Takes crc wasEncrypted).flatMap
          fun s => s.dispatch encoding payload).filter (fun inv => inv.topic = topic) = [] := by
        rw [List.filter_eq_nil_iff]
        intro inv hinv heq
        obtain ⟨s, hs, hinv⟩ := List.mem_flatMap.mp hinv
        refine hnodup.1 (List.mem_map.mpr ⟨s, List.mem_of_mem_filter hs, ?_⟩)
        rw [← topic_of_mem_dispatch hinv, of_decide_eq_true heq, htopic]
      have hall : (sub.dispatch encoding payload).filter (fun inv => inv.topic = topic) =
          sub.dispatch encoding payload :=
        List.filter_eq_self.mpr fun inv h => by simpa using (htopics inv h).trans htopic
      rw [List.filter_cons_of_pos (by simpa using htakes sub List.mem_cons_self htopic),
        List.flatMap_cons, List.filter_append, hothers, hall, List.append_nil,
        List.find?_cons_of_pos (by simpa using htopic)]
    · have hnone : (sub.dispatch encoding payload).filter (fun inv => inv.topic = topic) = [] := by
        rw [List.filter_eq_nil_iff]
        intro inv hinv heq
        exact htopic ((htopics inv hinv).symm.trans (of_decide_eq_true heq))
      rw [List.find?_cons_of_neg (by simpa using htopic), ← ih hnodup.2 hrest, List.filter_cons]
      split
      · rw [List.flatMap_cons, List.filter_append, hnone, List.nil_append]
      · rfl

end Mpubsub.Node
