import Mpubsub.Bridge.Network
import Mpubsub.Theorems.Routing
import Mpubsub.Theorems.SenderAgreement

/-!
# What a bridge makes of a bridge's datagram

A message that one bridge has put on the link, and another one with the key reads back, has kept
its topic, encoding and body (`exists_reads`).
-/

namespace Mpubsub.Theorems

open Mpubsub.Lib Mpubsub.Wire Mpubsub.Node Mpubsub.Bridge
open Mpubsub.Replay.Go (ReplayGuard)

/-! ## Decoding what was encoded -/

/-- The packet carries what was encoded. -/
structure Reads (pkt : Bridge.DecodedPacket) (topic body : Bytes) (encoding : Encoding)
    (key : Option Bytes) (timestamp : UInt32) (nonce : Bytes) : Prop where
  topicCRC : pkt.topicCRC = topicCrc32 topic
  encoding : pkt.encoding = encoding
  body : pkt.payload.read [] = body
  wasEncrypted : pkt.wasEncrypted = key.isSome
  timestamp : key.isSome = true → pkt.timestamp = timestamp
  nonce : key.isSome = true → pkt.nonce = loadU32leAt nonce 0

/-- A node with a bridge's key. -/
def keyed (key : Option Bytes) : MulticastPubSub Empty :=
  match key with
  | none => {}
  | some k => { encryptionEnabled := true, encryptionKeyBytes := Vector.ofFn fun i => k.getD i 0 }

theorem keySetting_keyed {key : Option Bytes} (hkey : ∀ k ∈ key, k.length = 32) :
    keySetting (keyed key) = key := by
  cases key with
  | none => rfl
  | some k =>
    have hk : k.length = 32 := hkey k rfl
    have hlist : (Vector.ofFn fun i : Fin 32 => k.getD i 0).toList = k := by
      refine List.ext_getElem (by simp [hk]) fun i h h' => ?_
      simp [h']
    exact congrArg some hlist

theorem encryptionEnabled_keyed (key : Option Bytes) :
    (keyed key).encryptionEnabled = key.isSome := by
  cases key <;> rfl

section Decoding

variable {aeadSeal : AeadSeal} {aeadOpen : AeadOpen} {topic body nonce raw : Bytes}
  {encoding : Encoding} {key : Option Bytes} {timestamp : UInt32}

/-- What the bridge encodes is a datagram of a node with its key. -/
theorem exists_datagram_of_encodePacket (hseal : SealsRfc8439 aeadSeal)
    (hkey : ∀ k ∈ key, k.length = 32)
    (h : encodePacket aeadSeal topic body encoding.toUInt8 key timestamp nonce = .ok raw) :
    ∃ env : PublishEnv, body.length ≤ (keyed key).effectiveMax ∧
      raw = (keyed key).datagram env topic body encoding ∧
      (key.isSome = true → MulticastPubSub.replayTimestamp env.clock = timestamp ∧
        env.random0 = loadU32leAt nonce 0) := by
  -- Without a key, the nonce is not looked at.
  have hnonce : ∃ v : Vector UInt8 12, (key.isSome = true → nonce = v.toList) ∧
      encodePacket aeadSeal topic body encoding.toUInt8 key timestamp v.toList = .ok raw := by
    cases key with
    | none => exact ⟨Vector.replicate 12 0, (nomatch ·), h⟩
    | some k =>
      have hlen : nonce.length = 12 := by
        by_contra hlen
        unfold encodePacket at h
        split at h
        · cases h
        simp only [AEAD_NONCE_LEN, ne_eq, hlen, not_false_eq_true, if_true] at h
        split at h
        · cases h
        · cases h
      have hlist : (Vector.ofFn fun i : Fin 12 => nonce.getD i 0).toList = nonce := by
        refine List.ext_getElem (by simp [hlen]) fun i h h' => ?_
        simp [h']
      exact ⟨_, fun _ => hlist.symm, by rwa [hlist]⟩
  obtain ⟨v, hv, h⟩ := hnonce
  have hencode := encodePacket_eq hseal (keyed key) topic body encoding v timestamp
  rw [keySetting_keyed hkey, h] at hencode
  split at hencode
  · rename_i hsize
    refine ⟨drawing v timestamp, hsize, Except.ok.inj hencode, fun hsome => ⟨rfl, ?_⟩⟩
    rw [hv hsome]
    rfl
  · split at hencode
    · cases hencode
    · cases hencode

/-- What is encoded fits the receive buffer. -/
theorem length_encodePacket_le (hseal : SealsRfc8439 aeadSeal) (hkey : ∀ k ∈ key, k.length = 32)
    (h : encodePacket aeadSeal topic body encoding.toUInt8 key timestamp nonce = .ok raw) :
    raw.length ≤ MAX_DATAGRAM := by
  obtain ⟨env, hsize, rfl, -⟩ := exists_datagram_of_encodePacket hseal hkey h
  exact MulticastPubSub.length_datagram_le hsize env topic encoding

variable (hseal : SealsRfc8439 aeadSeal) (hopen : OpensRfc8439 aeadOpen)
  (hkey : ∀ k ∈ key, k.length = 32) {key' : Option Bytes} (hkey' : ∀ k ∈ key', k.length = 32)
  (h : encodePacket aeadSeal topic body encoding.toUInt8 key timestamp nonce = .ok raw)
include hseal hopen hkey hkey' h

/-- The bridge decodes like a node with its key. -/
theorem decodePacket_eq_receive :
    (decodePacket aeadOpen [] (.owned raw) key').toOption.map (ofDecodedPacket []) =
      ((keyed key').receive raw).map ofReceived := by
  have hlen := length_encodePacket_le hseal hkey h
  have hdecode := @bridge_decodePacket aeadOpen hopen [] (.owned raw) hlen key' hkey'
  have hreceive := node_receive (keyed key') hlen
  rw [keySetting_keyed hkey'] at hreceive
  rw [hdecode, hreceive]
  rfl

/-- A packet in plaintext, or under the same key, is read. -/
theorem exists_reads (hsame : key = none ∨ key' = key) :
    ∃ pkt, decodePacket aeadOpen [] (.owned raw) key' = .ok pkt ∧
      Reads pkt topic body encoding key timestamp nonce := by
  have hdecode := decodePacket_eq_receive hseal hopen hkey hkey' h
  obtain ⟨env, hsize, rfl, hstamp⟩ := exists_datagram_of_encodePacket hseal hkey h
  rw [MulticastPubSub.receive_datagram hsize env topic encoding (r := keyed key')] at hdecode
  swap
  · intro hon
    rw [encryptionEnabled_keyed] at hon
    rcases hsame with rfl | rfl
    · cases hon
    · exact ⟨(encryptionEnabled_keyed key').trans hon, rfl⟩
  cases hpkt : decodePacket aeadOpen [] (.owned ((keyed key).datagram env topic body encoding))
      key' with
  | error e =>
    rw [hpkt] at hdecode
    cases hdecode
  | ok pkt =>
    rw [hpkt, encryptionEnabled_keyed] at hdecode
    have hfields := Option.some.inj hdecode
    simp only [ofDecodedPacket, ofReceived, Reference.DecodedMessage.mk.injEq] at hfields
    obtain ⟨hcrc, hencoding, hbody, hts, hnonce, hon⟩ := hfields
    have hencrypted : pkt.wasEncrypted = key.isSome := by
      rw [hon]
      cases key <;> rfl
    refine ⟨pkt, rfl, UInt32.toNat_inj.mp hcrc, ?_, hbody, hencrypted, ?_, ?_⟩
    · have hown : Encoding.ofUInt8 pkt.encoding.toUInt8 = some pkt.encoding :=
        Encoding.ofUInt8_eq_some_iff.mpr rfl
      rw [UInt8.toNat_inj.mp hencoding, Encoding.ofUInt8_eq_some_iff.mpr rfl] at hown
      exact (Option.some.inj hown).symm
    · intro hsome
      rw [hencrypted, hsome, if_pos rfl] at hts
      exact (UInt32.toNat_inj.mp (Option.some.inj hts)).trans (hstamp hsome).1
    · intro hsome
      rw [hencrypted, hsome, if_pos rfl] at hnonce
      exact (UInt32.toNat_inj.mp (Option.some.inj hnonce)).trans (hstamp hsome).2

/-- A sealed packet is not read without a key. -/
theorem decodePacket_keyless (hsealed : key ≠ none) (hnone : key' = none)
    (pkt : Bridge.DecodedPacket) : decodePacket aeadOpen [] (.owned raw) key' ≠ .ok pkt := by
  intro hpkt
  have hdecode := decodePacket_eq_receive hseal hopen hkey hkey' h
  obtain ⟨env, hsize, rfl, -⟩ := exists_datagram_of_encodePacket hseal hkey h
  have hmode : (keyed key).encMode = .AEAD := by
    rw [MulticastPubSub.encMode, encryptionEnabled_keyed, if_pos]
    exact Option.isSome_iff_ne_none.mpr hsealed
  have hreceive : (keyed key').receive ((keyed key).datagram env topic body encoding) = none := by
    unfold MulticastPubSub.receive
    rw [MulticastPubSub.decode_datagram hsize, hmode, hnone]
    rfl
  rw [hpkt, hreceive] at hdecode
  cases hdecode

end Decoding

/-! ## One bridge behind another -/

/-- What a handler encodes for an entry: the body and the encoding. -/
def encoded (jsonToProto : Schema → Bytes → Option Bytes) (entry : LoadedEntry)
    (payload : Bytes) : Option (Bytes × Encoding) :=
  match entry.schemaPtr with
  | none => some (payload, .RAW)
  | some s => (jsonToProto s payload).map fun body => (storeU16le s.schemaID ++ body, .PROTOBUF)

/-- What comes out at an entry of what went in at another one: the payload itself if neither has
a schema, and if both have one, with the same SCHEMA_ID, the JSON of the message. -/
def relayedPayload (jsonToProto protoToJSON : Schema → Bytes → Option Bytes)
    (sender entry : LoadedEntry) (payload : Bytes) : Option Bytes :=
  match sender.schemaPtr, entry.schemaPtr with
  | none, none => some payload
  | some s, some s' =>
    if s.schemaID = s'.schemaID then (jsonToProto s payload).bind (protoToJSON s') else none
  | _, _ => none

theorem toOption_eq_some_iff {ε α : Type} {x : Except ε α} {a : α} :
    x.toOption = some a ↔ x = .ok a := by
  cases x with
  | error e => exact iff_of_false (nomatch ·) (nomatch ·)
  | ok b => exact ⟨fun h => congrArg _ (Option.some.inj h), fun h => congrArg _ (Except.ok.inj h)⟩

section Relay

variable {ι : Type} {net : Network ι}

/-- What the handler hands to the socket is the encoded message, for the group of its topic. -/
theorem exists_encodePacket_of_handle {i : ι} {entry : LoadedEntry} {msg : MqttMessage}
    {now : UInt32} {nonce : Bytes} {out : Resend.Outgoing}
    (h : net.handle i entry msg now nonce = some out) :
    out.group = topicToGroup (entry.topicOf msg.topic) net.scope ∧
    ∃ body encoding, encoded net.jsonToProto entry msg.payload = some (body, encoding) ∧
      encodePacket net.aeadSeal (entry.topicOf msg.topic) body encoding.toUInt8
        (net.peers i).mpubsub.encryptionKey
        (if (net.peers i).mpubsub.encryptionKey.isSome then now else 0)
        (if (net.peers i).mpubsub.encryptionKey.isSome then nonce else []) = .ok out.pkt := by
  obtain ⟨⟨body, encoding⟩, hbody, hout⟩ := Option.bind_eq_some_iff.mp h
  obtain ⟨pkt, hpkt, rfl⟩ := Option.map_eq_some_iff.mp hout
  refine ⟨rfl, body, encoding, ?_, ?_⟩
  · rw [encoded, ← hbody]
    cases entry.schemaPtr <;> rfl
  · have hkey : (net.peers i).sender.encryptionKey = (net.peers i).mpubsub.encryptionKey := rfl
    rw [hkey] at hpkt
    cases hset : (net.peers i).mpubsub.encryptionKey with
    | none =>
      rw [hset] at hpkt
      exact toOption_eq_some_iff.mp hpkt
    | some k =>
      rw [hset] at hpkt
      exact toOption_eq_some_iff.mp hpkt

/-- What an entry of the bridge `j` is due of a message to an entry of the bridge `i`. -/
def relayed (net : Network ι) (i j : ι) (sender : LoadedEntry) (msg : MqttMessage)
    (entry : LoadedEntry) : Option (Publish Bytes) :=
  if entry.direction = Direction.name .DirMPubsubToMQTT ∧
      topicCrc32 entry.mpubsubTopic = topicCrc32 (sender.topicOf msg.topic) ∧
      (entry.requireEncryption = true → (net.peers i).mpubsub.encryptionKey ≠ none) then
    (relayedPayload net.jsonToProto net.protoToJSON sender entry msg.payload).map fun payload =>
      ⟨entry.mqttTopic, (net.peers j).mqtt.qos, (net.peers j).mqtt.retain, payload⟩
  else none

/-- The body of a packet that was encoded for an entry is worth to another one what is relayed. -/
theorem duePayload_encoded {pkt : Bridge.DecodedPacket} {sender : LoadedEntry}
    {payload body : Bytes} {encoding : Encoding}
    (h : encoded net.jsonToProto sender payload = some (body, encoding))
    (hencoding : pkt.encoding = encoding) (entry : LoadedEntry) :
    duePayload net.protoToJSON pkt body entry =
      relayedPayload net.jsonToProto net.protoToJSON sender entry payload := by
  unfold encoded at h
  unfold duePayload relayedPayload
  cases hsender : sender.schemaPtr with
  | none =>
    rw [hsender] at h
    cases h
    cases entry.schemaPtr with
    | none => exact if_pos hencoding
    | some s' =>
      refine if_neg fun hproto => ?_
      rw [hencoding] at hproto
      cases hproto.1
  | some s =>
    rw [hsender] at h
    obtain ⟨proto, hproto, heq⟩ := Option.map_eq_some_iff.mp h
    cases heq
    cases entry.schemaPtr with
    | none =>
      refine if_neg fun hraw => ?_
      rw [hencoding] at hraw
      cases hraw
    | some s' =>
      have hid : loadU16le ((storeU16le s.schemaID ++ proto).getD 0 0)
          ((storeU16le s.schemaID ++ proto).getD 1 0) = s.schemaID := loadU16le_storeU16le _
      simp only [hencoding, hid, hproto]
      by_cases hsame : s.schemaID = s'.schemaID
      · rw [if_pos ⟨trivial, by simp [storeU16le], hsame⟩, if_pos hsame]
        rfl
      · rw [if_neg fun h => hsame h.2.2, if_neg hsame]

/-- **The relay law.** A message that a handler of the bridge `i` has encoded, and whose datagram
reaches the bridge `j`, is published by `j` for the entries that it is due to, in their order: a
RAW one with the payload of the message. A bridge without the key publishes nothing of a sealed
one. What is asked of the bridges is that there are no two keys, and of the guard that it takes
the nonce. -/
theorem relay_law (hseal : SealsRfc8439 net.aeadSeal) (hopen : OpensRfc8439 net.aeadOpen)
    (hok : ∀ i, (net.peers i).Ok) {i j : ι}
    (hkeys : ∀ k ∈ (net.peers i).mpubsub.encryptionKey,
      ∀ k' ∈ (net.peers j).mpubsub.encryptionKey, k = k')
    {sender : LoadedEntry} {msg : MqttMessage} {now : UInt32} {nonce : Bytes}
    {out : Resend.Outgoing} (h : net.handle i sender msg now nonce = some out)
    {replay : ReplayGuard} {clock : UInt32}
    (hreplay : (net.peers i).mpubsub.encryptionKey ≠ none → replay.enabled = true →
      (replay.accept clock true now (loadU32leAt nonce 0)).2 = true) :
    out.group = topicToGroup (sender.topicOf msg.topic) net.scope ∧
      (net.receive j replay clock out.pkt).2 =
        if (net.peers i).mpubsub.encryptionKey ≠ none ∧
            (net.peers j).mpubsub.encryptionKey = none then []
        else (net.peers j).bridges.filterMap (relayed net i j sender msg) := by
  obtain ⟨hgroup, body, encoding, hbody, hencode⟩ := exists_encodePacket_of_handle h
  have hkey := (hok i).key
  have hkey' := (hok j).key
  have hcut : out.pkt.take MAX_DATAGRAM = out.pkt :=
    List.take_of_length_le (length_encodePacket_le hseal hkey hencode)
  refine ⟨hgroup, ?_⟩
  unfold Network.receive
  rw [hcut]
  by_cases hkeyless : (net.peers i).mpubsub.encryptionKey ≠ none ∧
      (net.peers j).mpubsub.encryptionKey = none
  · rw [if_pos hkeyless]
    have hnone := decodePacket_keyless hseal hopen hkey hkey' hencode hkeyless.1 hkeyless.2
    simp only [Bridge.receive]
    cases hpkt : decodePacket net.aeadOpen [] (.owned out.pkt)
        (net.peers j).receiver.encryptionKey with
    | error e => rfl
    | ok pkt => exact absurd hpkt (hnone pkt)
  · rw [if_neg hkeyless]
    have hsame : (net.peers i).mpubsub.encryptionKey = none ∨
        (net.peers j).mpubsub.encryptionKey = (net.peers i).mpubsub.encryptionKey := by
      cases hi : (net.peers i).mpubsub.encryptionKey with
      | none => exact .inl rfl
      | some k =>
        cases hj : (net.peers j).mpubsub.encryptionKey with
        | none => exact absurd ⟨by simp [hi], hj⟩ hkeyless
        | some k' => exact .inr (congrArg some (hkeys k hi k' hj).symm)
    obtain ⟨pkt, hpkt, hreads⟩ := exists_reads hseal hopen hkey hkey' hencode hsame
    have hcheck : (replayCheck replay clock pkt).2 = true := by
      unfold replayCheck
      by_cases hasked : (pkt.wasEncrypted && replay.enabled) = true
      · obtain ⟨hencrypted, henabled⟩ := (Bool.and_eq_true ..).mp hasked
        rw [hreads.wasEncrypted] at hencrypted
        have hts := hreads.timestamp hencrypted
        have hnonce := hreads.nonce hencrypted
        rw [if_pos hencrypted] at hts hnonce
        rw [if_pos hasked, hts, hnonce]
        exact hreplay (Option.isSome_iff_ne_none.mp hencrypted) henabled
      · rw [if_neg hasked]
    have hforward := forward_eq net.protoToJSON (net.peers j) pkt
    rw [← receive_of_ok hpkt hcheck] at hforward
    refine hforward.trans (List.filterMap_congr fun entry _ => ?_)
    have hmatch : Matches pkt entry ↔ entry.direction = Direction.name .DirMPubsubToMQTT ∧
        topicCrc32 entry.mpubsubTopic = topicCrc32 (sender.topicOf msg.topic) ∧
        (entry.requireEncryption = true → (net.peers i).mpubsub.encryptionKey ≠ none) := by
      unfold Matches
      rw [hreads.topicCRC, hreads.wasEncrypted, Option.isSome_iff_ne_none]
    have hpayload := duePayload_encoded hbody hreads.encoding entry
    unfold duePublish relayed
    rw [hreads.body, hpayload]
    exact if_congr hmatch rfl rfl

/-- A handler without a schema relays what fits. -/
theorem exists_handle (hseal : SealsRfc8439 net.aeadSeal)
    (hok : ∀ i, (net.peers i).Ok) {i : ι} {entry : LoadedEntry} (hraw : entry.schemaPtr = none)
    {msg : MqttMessage}
    (hfits : msg.payload.length ≤ (keyed (net.peers i).mpubsub.encryptionKey).effectiveMax)
    (now : UInt32) (nonce : Vector UInt8 12) :
    ∃ out, net.handle i entry msg now nonce.toList = some out := by
  have hencode : ∀ ts nonce', (∃ v : Vector UInt8 12, nonce' = v.toList) →
      ∃ pkt, encodePacket net.aeadSeal (entry.topicOf msg.topic) msg.payload
        Encoding.RAW.toUInt8 (net.peers i).mpubsub.encryptionKey ts nonce' = .ok pkt := by
    rintro ts _ ⟨v, rfl⟩
    have h := encodePacket_eq hseal (keyed (net.peers i).mpubsub.encryptionKey)
      (entry.topicOf msg.topic) msg.payload .RAW v ts
    rw [if_pos hfits, keySetting_keyed (hok i).key] at h
    exact ⟨_, h⟩
  have hkey : (net.peers i).sender.encryptionKey = (net.peers i).mpubsub.encryptionKey := rfl
  unfold Network.handle Resend.encode
  simp only [hraw, Option.bind_some, hkey]
  cases hset : (net.peers i).mpubsub.encryptionKey with
  | none =>
    obtain ⟨pkt, hpkt⟩ := hencode 0 nonce.toList ⟨nonce, rfl⟩
    rw [hset] at hpkt
    -- Without a key, the nonce is not looked at.
    have hpkt' : encodePacket net.aeadSeal (entry.topicOf msg.topic) msg.payload
        Encoding.RAW.toUInt8 none 0 [] = .ok pkt := hpkt
    simp only [Option.isSome_none, Bool.false_eq_true, if_false, hpkt']
    exact ⟨_, rfl⟩
  | some k =>
    obtain ⟨pkt, hpkt⟩ := hencode now nonce.toList ⟨nonce, rfl⟩
    rw [hset] at hpkt
    simp only [Option.isSome_some, if_true, hpkt]
    exact ⟨_, rfl⟩

end Relay

/-! ## What `Run` has set up -/

section SetUp

variable {σ : Type} {answers : Answers} {scope : Scope} {promoteQoS : Bool} {qos : UInt8}

/-- `Run`'s loop subscribes to the topics of one direction in their order, and for the other one
fills the routing table and joins each group once. -/
theorem setUp_tables {t t' : Tables σ} {bridges : List (BridgeEntry σ)}
    (h : setUp answers scope promoteQoS qos t bridges = .ok t') :
    t'.subscriptions = t.subscriptions ++ (bridges.filter (·.direction = .DirMQTTToMPubsub)).map
        (fun e => (e.mqttTopic, subQoS promoteQoS qos, e)) ∧
      t'.crcToMQTT = bridges.foldl addRoute t.crcToMQTT ∧
      (t.joined.Nodup → t'.joined.Nodup) ∧
      ∀ g, g ∈ t'.joined ↔ g ∈ t.joined ∨ ∃ e ∈ bridges, e.direction = .DirMPubsubToMQTT ∧
        topicToGroup e.mpubsubTopic scope = g := by
  induction bridges generalizing t with
  | nil =>
    cases h
    simp
  | cons entry bridges ih =>
    obtain ⟨mid, hmid, hrest⟩ := bind_eq_ok.mp h
    obtain ⟨hsubs, hroutes, hnodup, hjoined⟩ := ih hrest
    rcases setUpEntry_cases hmid with ⟨hfrom, rfl⟩ | ⟨hto, joined, rfl, hin⟩
    · refine ⟨?_, ?_, hnodup, ?_⟩
      · rw [hsubs, List.filter_cons_of_pos (by simpa using hfrom), List.map_cons,
          List.append_assoc]
        rfl
      · rw [hroutes, List.foldl_cons, addRoute, hfrom]
      · intro g
        rw [hjoined]
        simp [hfrom]
    · have hkept : ∀ g, g ∈ joined ↔ g ∈ t.joined ∨ topicToGroup entry.mpubsubTopic scope = g := by
        intro g
        rcases hin with ⟨hold, rfl⟩ | ⟨-, rfl⟩
        · refine ⟨.inl, fun h => h.elim id ?_⟩
          rintro rfl
          exact hold
        · rw [List.mem_append, List.mem_singleton, eq_comm (a := g)]
      refine ⟨?_, ?_, fun h => hnodup ?_, ?_⟩
      · rw [hsubs, List.filter_cons_of_neg (by simp [hto])]
      · rw [hroutes, List.foldl_cons]
      · rcases hin with ⟨-, rfl⟩ | ⟨hnew, rfl⟩
        · exact h
        · exact List.Nodup.append h (List.nodup_singleton _) (by simpa using hnew)
      · intro g
        rw [hjoined, hkept]
        simp [hto, or_assoc]

end SetUp

/-- **The tunnel.** The bridge `j` has gone through its entries without an error. Then it has
joined each group once, among them that of every topic it forwards, and of a message that a
handler of the bridge `i` has relayed it publishes what its entries are due. -/
theorem tunnel_delivers {ι : Type} {net : Network ι} (hseal : SealsRfc8439 net.aeadSeal)
    (hopen : OpensRfc8439 net.aeadOpen) (hok : ∀ i, (net.peers i).Ok) {i j : ι}
    (hkeys : ∀ k ∈ (net.peers i).mpubsub.encryptionKey,
      ∀ k' ∈ (net.peers j).mpubsub.encryptionKey, k = k')
    {answers : Answers} {t : Tables Schema}
    (hsetup : setUp answers net.scope (net.peers j).mpubsub.promoteQoS (net.peers j).mqtt.qos {}
      (net.peers j).receiver.bridges = .ok t)
    {sender : LoadedEntry} {msg : MqttMessage} {now : UInt32} {nonce : Bytes}
    {out : Resend.Outgoing} (h : net.handle i sender msg now nonce = some out)
    {replay : ReplayGuard} {clock : UInt32}
    (hreplay : (net.peers i).mpubsub.encryptionKey ≠ none → replay.enabled = true →
      (replay.accept clock true now (loadU32leAt nonce 0)).2 = true) :
    t.joined.Nodup ∧ t.crcToMQTT = crcToMQTT (net.peers j).receiver.bridges ∧
    (∀ entry ∈ (net.peers j).bridges, entry.direction = Direction.name .DirMPubsubToMQTT →
      entry.mpubsubTopic = sender.topicOf msg.topic → out.group ∈ t.joined) ∧
    (net.receive j replay clock out.pkt).2 =
      if (net.peers i).mpubsub.encryptionKey ≠ none ∧
          (net.peers j).mpubsub.encryptionKey = none then []
      else (net.peers j).bridges.filterMap (relayed net i j sender msg) := by
  obtain ⟨-, hroutes, hnodup, hjoined⟩ := setUp_tables hsetup
  obtain ⟨hgroup, hpublishes⟩ := relay_law hseal hopen hok hkeys h hreplay
  refine ⟨hnodup List.nodup_nil, hroutes, ?_, hpublishes⟩
  intro entry hentry hdirection htopic
  rw [hjoined, hgroup, ← htopic]
  refine .inr ⟨entry.entry, List.mem_map_of_mem hentry, ?_, rfl⟩
  exact if_pos hdirection

/-! ## An example -/

/-- A configuration with these entries, a key and a replay window of a minute. -/
def sealedConfig (bridges : List LoadedEntry) : LoadedConfig where
  mqtt := { broker := [98] }
  mpubsub :=
    { port := 18512, scope := [], hops := 1, retransmitCount := 1, retransmitDelay := 100000000
      promoteQoS := false, encryptionKey := some (List.replicate 32 0), replayWindowSeconds := 60 }
  bridges := bridges

theorem sealedConfig_ok {bridges : List LoadedEntry}
    (h : ∀ b ∈ bridges, b.Ok (some (List.replicate 32 0))) : (sealedConfig bridges).Ok where
  count := .inr ⟨Int.le_refl 1, (by decide : (1 : Int) ≤ 255)⟩
  indefinite := nofun
  delay := (by decide : (0 : Int) ≤ 100000000)
  key := by
    rintro k hk
    cases hk
    exact List.length_replicate
  entries := h

/-- An entry of each direction, for the topic "x". -/
def entryTo (mqttTopic : Bytes) : LoadedEntry :=
  { direction := Direction.name .DirMPubsubToMQTT, mqttTopic := mqttTopic, mpubsubTopic := [120] }

def entryFrom (mqttTopic : Bytes) : LoadedEntry :=
  { direction := Direction.name .DirMQTTToMPubsub, mqttTopic := mqttTopic, mpubsubTopic := [120] }

theorem entryTo_ok {mqttTopic : Bytes} (h : mqttTopic ≠ []) (key : Option Bytes) :
    (entryTo mqttTopic).Ok key :=
  ⟨h, ⟨.DirMPubsubToMQTT, rfl⟩, fun _ => List.cons_ne_nil _ _, nofun⟩

theorem entryFrom_ok {mqttTopic : Bytes} (h : mqttTopic ≠ []) (key : Option Bytes) :
    (entryFrom mqttTopic).Ok key :=
  ⟨h, ⟨.DirMQTTToMPubsub, rfl⟩, fun _ => List.cons_ne_nil _ _, nofun⟩

/-- Bridges on a broker with plain topic names. -/
def plainNetwork {ι : Type} (peers : ι → LoadedConfig) : Network ι where
  peers := peers
  scope := .LINK_LOCAL
  aeadSeal := rfcSeal
  aeadOpen := rfcOpen
  jsonToProto _ _ := none
  protoToJSON _ _ := none
  Matches := Eq
  Overhears _ _ := False

/-- One bridge takes "a" to the link, and the other one what is on the link to "b". -/
def tunnelNetwork : Network Bool :=
  plainNetwork fun i => if i then sealedConfig [entryTo [98]] else sealedConfig [entryFrom [97]]

theorem tunnelNetwork_ok (i : Bool) : (tunnelNetwork.peers i).Ok := by
  cases i with
  | false =>
    exact sealedConfig_ok (List.forall_mem_singleton.mpr (entryFrom_ok (List.cons_ne_nil _ _) _))
  | true =>
    exact sealedConfig_ok (List.forall_mem_singleton.mpr (entryTo_ok (List.cons_ne_nil _ _) _))

/-- `tunnel_delivers` for the message 7 on "a". -/
theorem tunnel_delivers_plain :
    ∃ out t, tunnelNetwork.handle false (entryFrom [97]) ⟨[97], [7], 0⟩ 1000
        (Vector.replicate 12 0).toList = some out ∧
      setUp ⟨fun _ => true, fun _ => true⟩ .LINK_LOCAL false 0 {}
        (tunnelNetwork.peers true).receiver.bridges = .ok t ∧
      out.group ∈ t.joined ∧
      (tunnelNetwork.receive true (ReplayGuard.new 60 4096) 1000 out.pkt).2 =
        [⟨[98], 0, false, [7]⟩] := by
  have hraw : (entryFrom [97]).schemaPtr = none := rfl
  obtain ⟨out, hout⟩ := exists_handle (i := false) sealsRfc8439_rfcSeal tunnelNetwork_ok hraw
    (show (⟨[97], [7], 0⟩ : MqttMessage).payload.length ≤ _ by decide) 1000 (Vector.replicate 12 0)
  have hkeys : ∀ k ∈ (tunnelNetwork.peers false).mpubsub.encryptionKey,
      ∀ k' ∈ (tunnelNetwork.peers true).mpubsub.encryptionKey, k = k' := by
    rintro k hk k' hk'
    cases hk
    cases hk'
    rfl
  obtain ⟨-, -, hjoined, hpublishes⟩ := @tunnel_delivers Bool tunnelNetwork sealsRfc8439_rfcSeal
    opensRfc8439_rfcOpen tunnelNetwork_ok false true hkeys ⟨fun _ => true, fun _ => true⟩ _ rfl
    (entryFrom [97]) ⟨[97], [7], 0⟩ 1000 _ out hout (ReplayGuard.new 60 4096) 1000
    fun _ _ => by decide
  refine ⟨out, _, hout, rfl, ?_, hpublishes.trans ?_⟩
  · exact hjoined (entryTo [98]) (List.mem_singleton_self _) rfl rfl
  · decide +kernel

end Mpubsub.Theorems
