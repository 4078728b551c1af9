import Mpubsub.Node.Run
import Mpubsub.Bridge.Receive

/-!
# Oversize datagrams

Both receivers read a datagram into a buffer of `MAX_DATAGRAM` bytes and check
its length against its header on what the read returned. Of a longer datagram
that is its beginning, and a beginning that is a packet of exactly
`MAX_DATAGRAM` bytes passes. So rule 6 is kept for a datagram exactly when it is
not longer than the buffer or its beginning is no such packet (`rule6_iff`).
-/

namespace Mpubsub.Theorems

open Mpubsub.Lib Mpubsub.Wire Mpubsub.Node Mpubsub.Node.MulticastPubSub Mpubsub.Bridge

variable {κ σ : Type}

/-- Validation rule 6, for the length of the datagram as it was sent. -/
def Rule6 (datagram : Bytes) : Prop :=
  ∀ mode : EncMode, datagram.getD 10 0 = mode.toUInt8 →
    datagram.length = HEADER_LEN + bodyLen mode (declaredLen datagram).toNat

/-- The encryption key of a node. -/
def keyOf (n : MulticastPubSub κ) : Option Key :=
  if n.encryptionEnabled then some n.encryptionKeyBytes else none

/-- A node calls a callback for the datagram only if it keeps rule 6. -/
def NodeKeepsRule6 (κ : Type) (key : Option Key) (datagram : Bytes) : Prop :=
  ∀ (n : MulticastPubSub κ) (clock : Option UInt32), Reachable n → keyOf n = key →
    (n.readDatagram datagram clock).2 ≠ [] → Rule6 datagram

/-- A bridge publishes something for the datagram only if it keeps rule 6. -/
def BridgeKeepsRule6 (aeadOpen : AeadOpen) (ops : SchemaOps σ) (key : Option Bytes)
    (datagram : Bytes) : Prop :=
  ∀ (cfg : Config σ) (events : List (Producer.Event Arrival)) (now : UInt32) (s : Bridge.State),
    cfg.encryptionKey = key → s = (Bridge.machine aeadOpen ops cfg).exec (start cfg) events →
    ((mcastReceiveLoop aeadOpen ops cfg).iterate s.mem s.state ⟨datagram, now⟩).2.2 ≠ [] →
    Rule6 datagram

/-- A packet that a node with this key has no reason to drop: the header is valid, the
length is the declared one, and the body of an encrypted packet opens. -/
structure NodePacket (key : Option Key) (data : Bytes) (enc : Encoding) (mode : EncMode) :
    Prop where
  header : HeaderValid data enc mode
  length : data.length = HEADER_LEN + bodyLen mode (declaredLen data).toNat
  opens : mode = .AEAD → ∃ k plain, key = some k ∧
    openBody k (data.take HEADER_LEN) (data.drop HEADER_LEN) = some plain

/-- The payload of a packet, behind the header or in the plaintext. -/
def Carries (aeadOpen : AeadOpen) (key : Option Bytes) (data : Bytes) (mode : EncMode)
    (payload : Bytes) : Prop :=
  match mode with
  | .NONE => payload = data.drop HEADER_LEN
  | .AEAD => ∃ plain, Opens aeadOpen key data plain ∧ payload = plain.drop AEAD_PREFIX_LEN

/-- The same for the bridge, which also decodes the body of a PROTOBUF packet. -/
structure BridgePacket (aeadOpen : AeadOpen) (ops : SchemaOps σ) (key : Option Bytes)
    (data : Bytes) (enc : Encoding) (mode : EncMode) : Prop where
  header : HeaderValid data enc mode
  length : data.length = HEADER_LEN + bodyLen mode (declaredLen data).toNat
  payload : ∃ payload, Carries aeadOpen key data mode payload ∧
    (enc = .PROTOBUF → 2 ≤ payload.length ∧ ∃ schema json,
      loadU16le (payload.getD 0 0) (payload.getD 1 0) = ops.schemaID schema ∧
        ops.protoToJSON schema (payload.drop 2) = some json)

/-! ## What the read leaves of a datagram -/

theorem getD_take {l : Bytes} {n i : Nat} (h : i < n) : (l.take n).getD i 0 = l.getD i 0 := by
  rw [List.getD_eq_getElem?_getD, List.getD_eq_getElem?_getD, List.getElem?_take_of_lt h]

/-- A datagram whose beginning passes the length check keeps rule 6 exactly when it was
read whole. -/
theorem rule6_iff_length_le {datagram : Bytes} {enc : Encoding} {mode : EncMode}
    (hvalid : HeaderValid (datagram.take MAX_DATAGRAM) enc mode)
    (hsize : (datagram.take MAX_DATAGRAM).length =
      HEADER_LEN + bodyLen mode (declaredLen (datagram.take MAX_DATAGRAM)).toNat) :
    Rule6 datagram ↔ datagram.length ≤ MAX_DATAGRAM := by
  have hmode : datagram.getD 10 0 = mode.toUInt8 := by
    rw [← hvalid.encMode, getD_take (by decide)]
  have hdecl : declaredLen (datagram.take MAX_DATAGRAM) = declaredLen datagram := by
    unfold declaredLen
    rw [getD_take (by decide), getD_take (by decide)]
  rw [List.length_take, hdecl] at hsize
  constructor
  · intro h
    rw [h mode hmode, ← hsize]
    exact Nat.min_le_left ..
  · intro h mode' hmode'
    have hsame : mode' = mode := by
      rw [hmode] at hmode'
      cases mode <;> cases mode' <;> first | rfl | exact absurd hmode' (by decide)
    rw [hsame, ← hsize, Nat.min_eq_right h]

/-! ## Nodes -/

/-- What a node calls a callback for is a packet. -/
theorem nodePacket_of_calls {n : MulticastPubSub κ} {datagram : Bytes} {clock : Option UInt32}
    (h : (n.readDatagram datagram clock).2 ≠ []) :
    ∃ enc mode, NodePacket (keyOf n) (datagram.take MAX_DATAGRAM) enc mode := by
  unfold readDatagram at h
  simp only at h
  split at h
  · exact absurd rfl h
  rcases n.onPacket_cases (datagram.take MAX_DATAGRAM) clock with hnone |
    ⟨pkt, hdecode, hmode, -⟩ | ⟨pkt, plain, hdecode, hmode, hon, hopen, -⟩
  · exact absurd hnone h
  · obtain ⟨hvalid, hpkt, hlen⟩ := decode_eq_ok_iff.mp hdecode
    rw [hpkt] at hlen
    refine ⟨pkt.encoding, pkt.encMode, hvalid, hlen, ?_⟩
    intro haead
    rw [hmode] at haead
    cases haead
  · obtain ⟨hvalid, hpkt, hlen⟩ := decode_eq_ok_iff.mp hdecode
    rw [hpkt] at hlen hopen
    exact ⟨pkt.encoding, pkt.encMode, hvalid, hlen, fun _ =>
      ⟨_, plain, by rw [keyOf, if_pos hon], hopen⟩⟩

/-- A record with a RAW callback and a typed one for the payload's `SCHEMA_ID` calls one of
them. -/
theorem dispatch_ne_nil (cb : κ) {sub : Subscription κ} {payload : Bytes}
    (hraw : cb ∈ sub.rawCallbacks)
    (htyped : ⟨loadU16le (payload.getD 0 0) (payload.getD 1 0), cb⟩ ∈ sub.typedCallbacks)
    (hlen : 2 ≤ payload.length) (enc : Encoding) : sub.dispatch enc payload ≠ [] := by
  unfold Subscription.dispatch
  cases enc with
  | RAW => exact List.ne_nil_of_mem (List.mem_map_of_mem hraw)
  | PROTOBUF =>
    simp only
    rw [if_neg (by omega)]
    exact List.ne_nil_of_mem (List.mem_map_of_mem (List.mem_filter.mpr ⟨htyped, by simp⟩))

/-- A configured node with callbacks for every packet with a given CRC whose payload
starts with a given `SCHEMA_ID`. -/
theorem exists_taker (cb : κ) (key : Option Key) (crc : UInt32) (schemaId : UInt16) :
    ∃ n : MulticastPubSub κ, Reachable n ∧ keyOf n = key ∧ n.replayGuard.enabled = false ∧
      ∀ enc payload wasEncrypted, 2 ≤ payload.length →
        loadU16le (payload.getD 0 0) (payload.getD 1 0) = schemaId →
        (deliver crc enc payload wasEncrypted n.subscriptions).1 ≠ [] := by
  obtain ⟨topic, htopic⟩ := exists_topic_of_crc crc
  obtain ⟨start, hstart⟩ : ∃ start : MulticastPubSub κ, start =
      { socket := true, encryptionEnabled := key.isSome
        encryptionKeyBytes := key.getD (Vector.replicate 32 0) } := ⟨_, rfl⟩
  have hfresh : Fresh start := by
    rw [hstart]
    exact ⟨rfl, rfl, rfl, 0, rfl⟩
  refine ⟨machine.exec start [.subscribe topic cb false, .subscribeTyped topic schemaId cb false],
    ⟨_, _, hfresh, rfl⟩, ?_, ?_, ?_⟩
  · rw [hstart]
    cases key with
    | none => rfl
    | some k => rfl
  · rw [hstart]
    rfl
  · intro enc payload wasEncrypted hlen hid
    have hsubs : (machine.exec start [.subscribe topic cb false,
        .subscribeTyped topic schemaId cb false]).subscriptions =
        [⟨topic, topicCrc32 topic, topicToGroup topic .LINK_LOCAL, [cb], [⟨schemaId, cb⟩],
          false⟩] := by
      rw [hstart]
      simp [MulticastPubSub.machine, step, subscribe, subscribeTyped, updateSubscription]
    rw [hsubs, deliver_invocations, List.filter_cons_of_pos (by simp [Subscription.Takes, htopic]),
      List.flatMap_cons]
    refine List.append_ne_nil_of_left_ne_nil (dispatch_ne_nil cb ?_ ?_ hlen enc) _
    · exact List.mem_singleton_self _
    · rw [hid]
      exact List.mem_singleton_self _

/-- For every packet that fills the buffer some node calls a callback. -/
theorem exists_node_calls (cb : κ) {key : Option Key} {data : Bytes} {enc : Encoding}
    {mode : EncMode} (h : NodePacket key data enc mode) (hlen : data.length = MAX_DATAGRAM) :
    ∃ n : MulticastPubSub κ, Reachable n ∧ keyOf n = key ∧ (n.onPacket data none).2 ≠ [] := by
  have hdecode := decode_of_headerValid h.header h.length
  have hbody : (data.drop HEADER_LEN).length = bodyLen mode (declaredLen data).toNat := by
    rw [List.length_drop, h.length]
    omega
  have hrest : (data.drop HEADER_LEN).length = 1220 := by
    rw [List.length_drop, hlen]
    rfl
  -- The node has the packet's key, and a subscription with the CRC that is behind the mode.
  cases mode with
  | NONE =>
    obtain ⟨n, hreach, hkey, -, htakes⟩ := exists_taker cb key (loadU32leAt data 4)
      (loadU16le ((data.drop HEADER_LEN).getD 0 0) ((data.drop HEADER_LEN).getD 1 0))
    refine ⟨n, hreach, hkey, ?_⟩
    have hcalls := htakes enc (data.drop HEADER_LEN) false (by omega) rfl
    unfold onPacket
    simp only [hdecode, packetOf]
    split
    · exact hcalls
    · exact hcalls
  | AEAD =>
    obtain ⟨k, plain, rfl, hopen⟩ := h.opens rfl
    obtain ⟨n, hreach, hkey, hguard, htakes⟩ := exists_taker cb (some k) (loadU32leAt plain 0)
      (loadU16le (((plain.drop AEAD_PREFIX_LEN).take (declaredLen data).toNat).getD 0 0)
        (((plain.drop AEAD_PREFIX_LEN).take (declaredLen data).toNat).getD 1 0))
    refine ⟨n, hreach, hkey, ?_⟩
    have hon : n.encryptionEnabled = true ∧ n.encryptionKeyBytes = k := by
      unfold keyOf at hkey
      split at hkey
      · rename_i hon
        exact ⟨hon, Option.some.inj hkey⟩
      · cases hkey
    have hdecl : 1220 = AEAD_NONCE_LEN + AEAD_PREFIX_LEN + (declaredLen data).toNat +
        AEAD_TAG_LEN := hrest.symm.trans hbody
    simp only [AEAD_NONCE_LEN, AEAD_PREFIX_LEN, AEAD_TAG_LEN] at hdecl
    have hplain : plain.length = 1192 := by
      rw [length_of_openBody hopen, hrest]
      rfl
    have hcalls := htakes enc ((plain.drop AEAD_PREFIX_LEN).take (declaredLen data).toNat) true
      (by rw [List.length_take, List.length_drop, hplain]; simp only [AEAD_PREFIX_LEN]; omega) rfl
    unfold onPacket
    simp only [hdecode, packetOf]
    rw [@handleEncrypted_of_open κ _ _ plain]
    · exact hcalls
    · exact hon.1
    · rw [hrest]
      decide
    · rw [hrest]
      decide
    · rw [← hopen, ← hon.2]
    · unfold MulticastPubSub.replayCheck
      rw [if_neg (by rw [hguard]; decide)]

/-! ## The bridge -/

/-- What the bridge publishes something for is a packet. -/
theorem bridgePacket_of_publishes {aeadOpen : AeadOpen} {ops : SchemaOps σ} {cfg : Config σ}
    {buf : Buffer MAX_DATAGRAM} {replay : Replay.Go.ReplayGuard} {arrival : Arrival}
    (h : ((mcastReceiveLoop aeadOpen ops cfg).iterate buf replay arrival).2.2 ≠ []) :
    ∃ enc mode, BridgePacket aeadOpen ops cfg.encryptionKey
      (arrival.datagram.take MAX_DATAGRAM) enc mode := by
  have hvalues := (makes_forwarding aeadOpen ops cfg).values_eq buf replay arrival
  obtain ⟨message, hmessage⟩ := List.exists_mem_of_ne_nil _ (mt List.map_eq_nil_iff.mp h)
  rw [hvalues] at hmessage
  obtain ⟨pkt, r, hdecode, hlen, -, hpublish⟩ := dueTo_of_mem_forwarding hmessage
  obtain ⟨p, hp, -⟩ := Option.map_eq_some_iff.mp hpublish
  have hschema (hproto : pkt.encoding = .PROTOBUF) :
      2 ≤ (pkt.payload.read []).length ∧ ∃ schema json,
        loadU16le ((pkt.payload.read []).getD 0 0) ((pkt.payload.read []).getD 1 0) =
          ops.schemaID schema ∧
        ops.protoToJSON schema ((pkt.payload.read []).drop 2) = some json := by
    refine ⟨Nat.not_lt.mp fun h => hlen ⟨hproto, h⟩, ?_⟩
    unfold publishTo at hp
    split at hp
    · cases hp
    obtain ⟨payload, hpayload, -⟩ := Option.map_eq_some_iff.mp hp
    exact exists_schema_of_mqttPayload hpayload hproto
  cases decodePacket_eq_ok_iff.mp hdecode with
  | plain hvalid hsize => exact ⟨_, _, hvalid, hsize, _, rfl, hschema⟩
  | aead hvalid hsize hopens => exact ⟨_, _, hvalid, hsize, _, ⟨_, hopens, rfl⟩, hschema⟩

/-- A packet decodes, to its payload. -/
theorem exists_decodePacket {aeadOpen : AeadOpen} {ops : SchemaOps σ} {key : Option Bytes}
    {data : Bytes} {enc : Encoding} {mode : EncMode}
    (h : BridgePacket aeadOpen ops key data enc mode) :
    ∃ pkt payload, decodePacket aeadOpen [] (.owned data) key = .ok pkt ∧ pkt.encoding = enc ∧
      pkt.payload = .owned payload ∧
      (enc = .PROTOBUF → 2 ≤ payload.length ∧ ∃ schema json,
        loadU16le (payload.getD 0 0) (payload.getD 1 0) = ops.schemaID schema ∧
          ops.protoToJSON schema (payload.drop 2) = some json) := by
  obtain ⟨payload, hcarries, hproto⟩ := h.payload
  cases mode with
  | NONE =>
    obtain rfl : payload = data.drop HEADER_LEN := hcarries
    exact ⟨_, _, decodePacket_eq_ok_iff.mpr (.plain h.header h.length), rfl, rfl, hproto⟩
  | AEAD =>
    obtain ⟨plain, hopens, rfl⟩ := hcarries
    exact ⟨_, _, decodePacket_eq_ok_iff.mpr (.aead h.header h.length hopens), rfl, rfl, hproto⟩

/-- For every packet a bridge with one entry publishes something. -/
theorem exists_bridge_publishes {aeadOpen : AeadOpen} {ops : SchemaOps σ} {key : Option Bytes}
    (arrival : Arrival) {enc : Encoding} {mode : EncMode}
    (h : BridgePacket aeadOpen ops key (arrival.datagram.take MAX_DATAGRAM) enc mode) :
    ∃ cfg : Config σ, cfg.encryptionKey = key ∧
      ((mcastReceiveLoop aeadOpen ops cfg).iterate (start cfg).mem (start cfg).state
        arrival).2.2 ≠ [] := by
  obtain ⟨pkt, payload, hdecode, henc, hpayload, hproto⟩ := exists_decodePacket h
  obtain ⟨topic, htopic⟩ := exists_topic_of_crc pkt.topicCRC
  -- The route is one for the packet's encoding.
  obtain ⟨schema, x, hx⟩ : ∃ schema x, mqttPayload ops [] pkt ⟨[116], false, schema⟩ = some x := by
    cases enc with
    | RAW => exact ⟨none, _, by rw [mqttPayload, henc]⟩
    | PROTOBUF =>
      obtain ⟨-, schema, json, hid, hjson⟩ := hproto rfl
      refine ⟨some schema, .owned json, ?_⟩
      unfold mqttPayload
      simp only [henc, hpayload, Slice.read_owned, Slice.read_drop]
      rw [if_neg (not_not.mpr hid), hjson]
      rfl
  obtain ⟨cfg, hcfg⟩ : ∃ cfg : Config σ, cfg =
      { encryptionKey := key
        bridges :=
          [{ direction := .DirMPubsubToMQTT, mqttTopic := [116], mpubsubTopic := topic
             schemaPtr := schema }] } := ⟨_, rfl⟩
  have hkey : cfg.encryptionKey = key := by rw [hcfg]
  have hroutes : crcToMQTT cfg.bridges pkt.topicCRC = [⟨[116], false, schema⟩] := by
    rw [hcfg, ← htopic]
    exact crcToMQTT_singleton rfl
  refine ⟨cfg, hkey, ?_⟩
  intro hnone
  -- Nothing published, read at the end of the iteration, is nothing forwarded by value.
  have hvalues := (makes_forwarding aeadOpen ops cfg).values_eq (start cfg).mem (start cfg).state
    arrival
  rw [hnone, List.map_nil, eq_comm] at hvalues
  change List.map _ (receive aeadOpen ops cfg [] (start cfg).state arrival.now
    (.owned (arrival.datagram.take MAX_DATAGRAM))).2 = [] at hvalues
  have hcheck : (Bridge.replayCheck (start cfg).state arrival.now pkt).2 = true := by
    have hoff : (start cfg).state.enabled = false := by
      rw [hcfg]
      rfl
    unfold Bridge.replayCheck
    rw [hoff, Bool.and_false, if_neg Bool.false_ne_true]
  rw [List.map_eq_nil_iff, receive_of_ok (by rw [hkey]; exact hdecode) hcheck, hroutes] at hvalues
  refine forward_ne_nil cfg (List.mem_singleton_self _) rfl hx ?_ hvalues
  rintro ⟨hpb, hshort⟩
  rw [henc] at hpb
  rw [hpayload] at hshort
  exact absurd (hproto hpb).1 (Nat.not_le.mpr hshort)

/-! ## Rule 6 -/

/-- A longer datagram that starts with a packet is dispatched by some node. -/
theorem not_nodeKeepsRule6 (cb : κ) {key : Option Key} {datagram : Bytes} {enc : Encoding}
    {mode : EncMode} (hlong : MAX_DATAGRAM < datagram.length)
    (hpacket : NodePacket key (datagram.take MAX_DATAGRAM) enc mode) :
    ¬NodeKeepsRule6 κ key datagram := by
  intro h
  have hfull : (datagram.take MAX_DATAGRAM).length = MAX_DATAGRAM :=
    List.length_take_of_le (Nat.le_of_lt hlong)
  obtain ⟨n, hreach, hkey, hcalls⟩ := exists_node_calls cb hpacket hfull
  have hrule := h n none hreach hkey (by
    unfold readDatagram
    rw [if_neg (by rw [hfull]; decide)]
    exact hcalls)
  rw [rule6_iff_length_le hpacket.header hpacket.length] at hrule
  exact Nat.not_le.mpr hlong hrule

/-- And published by some bridge. -/
theorem not_bridgeKeepsRule6 {aeadOpen : AeadOpen} {ops : SchemaOps σ} {key : Option Bytes}
    {datagram : Bytes} {enc : Encoding} {mode : EncMode}
    (hlong : MAX_DATAGRAM < datagram.length)
    (hpacket : BridgePacket aeadOpen ops key (datagram.take MAX_DATAGRAM) enc mode) :
    ¬BridgeKeepsRule6 aeadOpen ops key datagram := by
  intro h
  obtain ⟨cfg, hkey, hpublishes⟩ := exists_bridge_publishes ⟨datagram, 0⟩ hpacket
  have hrule := h cfg [] 0 _ hkey rfl hpublishes
  rw [rule6_iff_length_le hpacket.header hpacket.length] at hrule
  exact Nat.not_le.mpr hlong hrule

/-- A datagram longer than the buffer that declares a payload of 1220 bytes. -/
def oversize : Bytes := encodeHeader 0 .RAW 1220 .NONE ++ List.replicate 1221 0

theorem headerValid_oversize : HeaderValid (oversize.take MAX_DATAGRAM) .RAW .NONE :=
  ⟨by decide +kernel, by decide +kernel, by decide +kernel, by decide +kernel,
    by decide +kernel, by decide +kernel⟩

theorem length_oversize : (oversize.take MAX_DATAGRAM).length =
    HEADER_LEN + bodyLen .NONE (declaredLen (oversize.take MAX_DATAGRAM)).toNat := by
  decide +kernel

/-- A node calls a callback for it, and a bridge publishes it. -/
theorem oversize_dispatched :
    ¬NodeKeepsRule6 Nat none oversize ∧
      ¬BridgeKeepsRule6 (fun _ _ _ _ => none) (⟨Empty.elim, Empty.elim⟩ : SchemaOps Empty) none
        oversize :=
  ⟨not_nodeKeepsRule6 0 (by decide +kernel) ⟨headerValid_oversize, length_oversize, nofun⟩,
    not_bridgeKeepsRule6 (by decide +kernel)
      ⟨headerValid_oversize, length_oversize, _, rfl, nofun⟩⟩

/-- **Rule 6.** Exactly the datagrams that are longer than the buffer and start with a packet
that fills it are dispatched although they break rule 6. -/
theorem rule6_iff (cb : κ) (aeadOpen : AeadOpen) (ops : SchemaOps σ) (nodeKey : Option Key)
    (bridgeKey : Option Bytes) (datagram : Bytes) :
    (NodeKeepsRule6 κ nodeKey datagram ↔ datagram.length ≤ MAX_DATAGRAM ∨
      ∀ enc mode, ¬NodePacket nodeKey (datagram.take MAX_DATAGRAM) enc mode) ∧
    (BridgeKeepsRule6 aeadOpen ops bridgeKey datagram ↔ datagram.length ≤ MAX_DATAGRAM ∨
      ∀ enc mode, ¬BridgePacket aeadOpen ops bridgeKey (datagram.take MAX_DATAGRAM) enc mode) := by
  constructor
  · constructor
    · intro h
      rw [or_iff_not_imp_left, Nat.not_le]
      intro hlong enc mode hpacket
      exact not_nodeKeepsRule6 cb hlong hpacket h
    · intro h n clock _ hkey hcalls
      obtain ⟨enc, mode, hpacket⟩ := nodePacket_of_calls hcalls
      rw [hkey] at hpacket
      rw [rule6_iff_length_le hpacket.header hpacket.length]
      exact h.resolve_right fun hnone => hnone enc mode hpacket
  · constructor
    · intro h
      rw [or_iff_not_imp_left, Nat.not_le]
      intro hlong enc mode hpacket
      exact not_bridgeKeepsRule6 hlong hpacket h
    · intro h cfg events now s hkey _ hpublishes
      obtain ⟨enc, mode, hpacket⟩ := bridgePacket_of_publishes hpublishes
      rw [hkey] at hpacket
      rw [rule6_iff_length_le hpacket.header hpacket.length]
      exact h.resolve_right fun hnone => hnone enc mode hpacket

end Mpubsub.Theorems
