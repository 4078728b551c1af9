import Mpubsub.Bridge.Config
import Mpubsub.Lib.Lists
import Mpubsub.Theorems.Forwardable
import Mpubsub.Theorems.Forwarding

/-!
# The routing law of the bridge

What the receive loop publishes for a datagram, in terms of the entries of the configuration
file. `duePublish` is what the loop makes of an entry, and `law` the loop in these terms.
`IsDue` says which entries a publish is due to, and `Lawful` that each of them gets it, in the order
of the file: a body that decodes comes out as an object with its fields. Both are one except
where the body has a number that JSON has not, which `ProtoToJSON` drops with the whole message
(`routing_law`, `nan_misses_its_route`). What the MQTT client writes later is
`Theorems.Forwarding`.
-/

namespace Mpubsub.Theorems

open Mpubsub.Lib Mpubsub.Wire Mpubsub.Bridge
open Mpubsub.Replay.Go (ReplayGuard)

/-! ## The law -/

/-- What the entry is due of a packet with this body: the body of a RAW packet if it has no
schema; if it has one, the JSON of a PROTOBUF packet with the SCHEMA_ID of the schema. -/
def duePayload (protoToJSON : Schema → Bytes → Option Bytes) (pkt : Bridge.DecodedPacket) (body : Bytes)
    (b : LoadedEntry) : Option Bytes :=
  match b.schemaPtr with
  | none => if pkt.encoding = .RAW then some body else none
  | some s =>
    if pkt.encoding = .PROTOBUF ∧ 2 ≤ body.length ∧
        loadU16le (body.getD 0 0) (body.getD 1 0) = s.schemaID then
      protoToJSON s (body.drop 2)
    else none

/-- The entry forwards the topics of the packet, and is open to it. -/
def Matches (pkt : Bridge.DecodedPacket) (b : LoadedEntry) : Prop :=
  b.direction = Direction.name .DirMPubsubToMQTT ∧ topicCrc32 b.mpubsubTopic = pkt.topicCRC ∧
    (b.requireEncryption = true → pkt.wasEncrypted = true)

instance (pkt : Bridge.DecodedPacket) (b : LoadedEntry) : Decidable (Matches pkt b) :=
  inferInstanceAs (Decidable (_ ∧ _ ∧ _))

/-- The publish that the entry is due. -/
def duePublish (protoToJSON : Schema → Bytes → Option Bytes) (mqtt : MQTTConfig)
    (pkt : Bridge.DecodedPacket) (body : Bytes) (b : LoadedEntry) : Option (Publish Bytes) :=
  if Matches pkt b then
    (duePayload protoToJSON pkt body b).map fun payload =>
      ⟨b.mqttTopic, mqtt.qos, mqtt.retain, payload⟩
  else none

/-- The law, as a machine over datagrams: one that decodes, and that the guard accepts if it is
encrypted and the protection is on, is published for every entry that is due. -/
def law (aeadOpen : AeadOpen) (protoToJSON : Schema → Bytes → Option Bytes) (c : LoadedConfig)
    (entries : List LoadedEntry) : Machine ReplayGuard Arrival (List (Publish Bytes)) where
  step guard arrival :=
    match decodePacket aeadOpen [] (.owned (arrival.datagram.take MAX_DATAGRAM))
        c.mpubsub.encryptionKey with
    | .error _ => (guard, [])
    | .ok pkt =>
      if pkt.wasEncrypted = true ∧ guard.enabled = true then
        let (guard, accepted) := guard.accept arrival.now true pkt.timestamp pkt.nonce
        (guard, if accepted then
          entries.filterMap (duePublish protoToJSON c.mqtt pkt (pkt.payload.read [])) else [])
      else
        (guard, entries.filterMap (duePublish protoToJSON c.mqtt pkt (pkt.payload.read [])))

/-- The receive loop as a machine over datagrams: the calls of `mqtt.Publish`, with the payloads
that they are given. -/
def publishes {σ : Type} (aeadOpen : AeadOpen) (ops : SchemaOps σ) (cfg : Config σ) :
    Machine (Buffer MAX_DATAGRAM × ReplayGuard) Arrival (List (Publish Bytes)) where
  step s arrival :=
    let (buf, replay, made) := (mcastReceiveLoop aeadOpen ops cfg).iterate s.1 s.2 arrival
    ((buf, replay), made.map (·.read buf.val))

/-! ## The routes of a CRC -/

/-- The route of an entry, if it forwards topics with this CRC. -/
def routeFor {σ : Type} (crc : UInt32) (entry : BridgeEntry σ) : Option (Route σ) :=
  if entry.direction = .DirMPubsubToMQTT ∧ topicCrc32 entry.mpubsubTopic = crc then
    some ⟨entry.mqttTopic, entry.requireEncryption, entry.schemaPtr⟩
  else none

theorem addRoute_apply {σ : Type} (table : UInt32 → List (Route σ)) (entry : BridgeEntry σ)
    (crc : UInt32) : addRoute table entry crc = table crc ++ (routeFor crc entry).toList := by
  unfold addRoute routeFor
  cases entry.direction with
  | DirMQTTToMPubsub => simp
  | DirMPubsubToMQTT =>
    by_cases hcrc : topicCrc32 entry.mpubsubTopic = crc
    · subst hcrc
      simp
    · simp [hcrc, Function.update_of_ne (Ne.symm hcrc)]

/-- The routes of a CRC are those of its entries, in their order. -/
theorem crcToMQTT_eq {σ : Type} (bridges : List (BridgeEntry σ)) (crc : UInt32) :
    crcToMQTT bridges crc = bridges.filterMap (routeFor crc) := by
  have hfold : ∀ (bridges : List (BridgeEntry σ)) (table : UInt32 → List (Route σ)),
      bridges.foldl addRoute table crc = table crc ++ bridges.filterMap (routeFor crc) := by
    intro bridges
    induction bridges with
    | nil => simp
    | cons entry bridges ih =>
      intro table
      rw [List.foldl_cons, ih, addRoute_apply, List.append_assoc, List.filterMap_cons]
      cases routeFor crc entry <;> rfl
  exact (hfold bridges _).trans (List.nil_append _)

/-! ## One packet -/

section Packet

variable {protoToJSON : Schema → Bytes → Option Bytes} {c : LoadedConfig}
  {pkt : Bridge.DecodedPacket}

/-- A PROTOBUF body without a SCHEMA_ID is due to no entry. -/
theorem duePublish_short (h : pkt.encoding = .PROTOBUF ∧ (pkt.payload.read []).length < 2)
    (b : LoadedEntry) : duePublish protoToJSON c.mqtt pkt (pkt.payload.read []) b = none := by
  have hpayload : duePayload protoToJSON pkt (pkt.payload.read []) b = none := by
    unfold duePayload
    split
    · rw [if_neg]
      rw [h.1]
      decide
    · rw [if_neg]
      rintro ⟨-, hlong, -⟩
      exact absurd h.2 (Nat.not_lt.mpr hlong)
  rw [duePublish, hpayload]
  split <;> rfl

/-- What the `switch` of the loop makes of a body that may be looked at. -/
theorem mqttPayload_eq (h : ¬(pkt.encoding = .PROTOBUF ∧ (pkt.payload.read []).length < 2))
    (b : LoadedEntry) (r : Route Schema) (hschema : r.schema = b.schemaPtr) :
    (mqttPayload ⟨Schema.schemaID, protoToJSON⟩ [] pkt r).map (·.read []) =
      duePayload protoToJSON pkt (pkt.payload.read []) b := by
  unfold mqttPayload duePayload
  rw [hschema]
  cases b.schemaPtr with
  | none =>
    cases hencoding : pkt.encoding with
    | RAW => rfl
    | PROTOBUF => rfl
  | some s =>
    cases hencoding : pkt.encoding with
    | RAW => rfl
    | PROTOBUF =>
      have hlong : 2 ≤ (pkt.payload.read []).length := by
        by_contra hshort
        exact h ⟨hencoding, by omega⟩
      simp only [hlong, true_and, Slice.read_drop]
      by_cases hid : loadU16le ((pkt.payload.read []).getD 0 0) ((pkt.payload.read []).getD 1 0) =
          s.schemaID
      · rw [if_neg (not_not.mpr hid), if_pos hid, Option.map_map]
        exact Option.map_id' ..
      · rw [if_pos hid, if_neg hid]
        rfl

/-- The route of an entry makes the publish that the entry is due. -/
theorem publishTo_entry (h : ¬(pkt.encoding = .PROTOBUF ∧ (pkt.payload.read []).length < 2))
    (b : LoadedEntry) :
    (routeFor pkt.topicCRC b.entry).bind (fun r =>
        (publishTo ⟨Schema.schemaID, protoToJSON⟩ c.receiver [] pkt r).map (·.read [])) =
      duePublish protoToJSON c.mqtt pkt (pkt.payload.read []) b := by
  have hdirection : b.entry.direction = .DirMPubsubToMQTT ↔
      b.direction = Direction.name .DirMPubsubToMQTT := by
    simp only [LoadedEntry.entry]
    split
    · rename_i hto
      exact iff_of_true rfl hto
    · rename_i hother
      exact iff_of_false (by decide) hother
  unfold routeFor duePublish
  by_cases hroute : b.direction = Direction.name .DirMPubsubToMQTT ∧
      topicCrc32 b.mpubsubTopic = pkt.topicCRC
  · rw [if_pos ⟨hdirection.mpr hroute.1, hroute.2⟩, Option.bind_some, publishTo_read,
      mqttPayload_eq h b _ rfl]
    show (if b.requireEncryption && !pkt.wasEncrypted then none else _) = _
    cases hrequire : b.requireEncryption with
    | false =>
      have hmatch : Matches pkt b := ⟨hroute.1, hroute.2, by simp [hrequire]⟩
      rw [if_pos hmatch]
      rfl
    | true =>
      cases hencrypted : pkt.wasEncrypted with
      | false => simp [Matches, hrequire, hencrypted]
      | true =>
        have hmatch : Matches pkt b := ⟨hroute.1, hroute.2, fun _ => hencrypted⟩
        rw [if_pos hmatch]
        rfl
  · rw [if_neg fun heq => hroute ⟨hdirection.mp heq.1, heq.2⟩, if_neg fun heq =>
      hroute ⟨heq.1, heq.2.1⟩]
    rfl

/-- The loop over the routes makes the publishes that the entries are due. -/
theorem forward_eq (protoToJSON : Schema → Bytes → Option Bytes) (c : LoadedConfig)
    (pkt : Bridge.DecodedPacket) :
    (forward ⟨Schema.schemaID, protoToJSON⟩ c.receiver [] pkt
        (crcToMQTT c.receiver.bridges pkt.topicCRC)).map (·.read []) =
      c.bridges.filterMap (duePublish protoToJSON c.mqtt pkt (pkt.payload.read [])) := by
  unfold forward
  by_cases h : pkt.encoding = .PROTOBUF ∧ (pkt.payload.read []).length < 2
  · rw [if_pos h, List.map_nil]
    exact (List.filterMap_eq_nil_iff.mpr fun b _ => duePublish_short h b).symm
  · rw [if_neg h, crcToMQTT_eq, List.filterMap_filterMap, List.map_filterMap]
    show List.filterMap _ (c.bridges.map LoadedEntry.entry) = _
    rw [List.filterMap_map]
    refine List.filterMap_congr fun b _ => ?_
    rw [← publishTo_entry h b]
    show Option.map _ ((routeFor pkt.topicCRC b.entry).bind _) = _
    cases routeFor pkt.topicCRC b.entry <;> rfl

end Packet

/-! ## Every run -/

/-- An iteration of the loop makes the publishes of the law. -/
theorem step_publishes (aeadOpen : AeadOpen) (protoToJSON : Schema → Bytes → Option Bytes)
    (c : LoadedConfig) (s : Buffer MAX_DATAGRAM × ReplayGuard) (arrival : Arrival) :
    ((publishes aeadOpen ⟨Schema.schemaID, protoToJSON⟩ c.receiver).step s arrival).1.2 =
        ((law aeadOpen protoToJSON c c.bridges).step s.2 arrival).1 ∧
      ((publishes aeadOpen ⟨Schema.schemaID, protoToJSON⟩ c.receiver).step s arrival).2 =
        ((law aeadOpen protoToJSON c c.bridges).step s.2 arrival).2 := by
  obtain ⟨hstate, hvalues⟩ := makes_forwarding aeadOpen ⟨Schema.schemaID, protoToJSON⟩ c.receiver
  have hstate := hstate s.1 s.2 arrival
  have hvalues := hvalues s.1 s.2 arrival
  simp only [publishes]
  rw [hstate, hvalues]
  have hkey : c.receiver.encryptionKey = c.mpubsub.encryptionKey := rfl
  simp only [forwarding, receive, law, hkey]
  cases decodePacket aeadOpen [] (.owned (arrival.datagram.take MAX_DATAGRAM))
      c.mpubsub.encryptionKey with
  | error e => exact ⟨rfl, rfl⟩
  | ok pkt =>
    have hforward := forward_eq protoToJSON c pkt
    simp only
    by_cases hcheck : pkt.wasEncrypted = true ∧ s.2.enabled = true
    · have haccept : replayCheck s.2 arrival.now pkt =
          s.2.accept arrival.now true pkt.timestamp pkt.nonce := by
        rw [replayCheck, if_pos]
        rw [Bool.and_eq_true]
        exact hcheck
      rw [if_pos hcheck, haccept]
      cases (s.2.accept arrival.now true pkt.timestamp pkt.nonce).2 with
      | false => exact ⟨rfl, rfl⟩
      | true => exact ⟨rfl, hforward⟩
    · have hskip : replayCheck s.2 arrival.now pkt = (s.2, true) := by
        rw [replayCheck, if_neg]
        rw [Bool.and_eq_true]
        exact hcheck
      rw [if_neg hcheck, hskip]
      exact ⟨rfl, hforward⟩

/-- An entry without a schema is due no PROTOBUF packet, and one that requires encryption no
plaintext packet. -/
theorem of_duePublish {protoToJSON : Schema → Bytes → Option Bytes} {mqtt : MQTTConfig}
    {pkt : Bridge.DecodedPacket} {body : Bytes} {b : LoadedEntry}
    (h : duePublish protoToJSON mqtt pkt body b ≠ none) :
    (pkt.encoding = .PROTOBUF → b.schemaPtr ≠ none) ∧
      (b.requireEncryption = true → pkt.wasEncrypted = true) := by
  unfold duePublish at h
  split at h
  · rename_i hmatch
    refine ⟨?_, hmatch.2.2⟩
    intro hproto hnone
    have hpayload : duePayload protoToJSON pkt body b = none := by
      simp only [duePayload, hnone, hproto]
      rfl
    rw [hpayload] at h
    exact h rfl
  · exact absurd rfl h

/-! ## What is due -/

/-- `ProtoToJSON` with the text that `json.Marshal` writes of a tree. -/
def jsonBytes (text : Json → Bytes) (s : Schema) (body : Bytes) : Option Bytes :=
  (Bridge.protoToJSON s body).toOption.map text

/-- The body is one of the schema of an entry, or RAW if it has none. -/
def CanRead (pkt : Bridge.DecodedPacket) (body : Bytes) : Option Schema → Prop
  | none => pkt.encoding = .RAW
  | some s =>
    pkt.encoding = .PROTOBUF ∧ 2 ≤ body.length ∧
      loadU16le (body.getD 0 0) (body.getD 1 0) = s.schemaID ∧
      (decodeProto s (body.drop 2)).isOk = true

instance (pkt : Bridge.DecodedPacket) (body : Bytes) :
    ∀ schema, Decidable (CanRead pkt body schema)
  | none => inferInstanceAs (Decidable (_ = _))
  | some _ => inferInstanceAs (Decidable (_ ∧ _ ∧ _ ∧ _))

/-- A publish of the packet is due to the entry. -/
def IsDue (pkt : Bridge.DecodedPacket) (body : Bytes) (b : LoadedEntry) : Prop :=
  Matches pkt b ∧ CanRead pkt body b.schemaPtr

instance (pkt : Bridge.DecodedPacket) (body : Bytes) (b : LoadedEntry) :
    Decidable (IsDue pkt body b) :=
  inferInstanceAs (Decidable (_ ∧ _))

/-- The payload is the body, or the JSON of the message: an object with the decoded names for its
keys. -/
def IsPayload (text : Json → Bytes) (body : Bytes) (b : LoadedEntry) (payload : Bytes) : Prop :=
  match b.schemaPtr with
  | none => payload = body
  | some s =>
    ∃ out members, decodeProto s (body.drop 2) = .ok out ∧
      Bridge.protoToJSON s (body.drop 2) = .ok (.object members) ∧
      (members.map Prod.fst).Perm (out.entries.map Prod.fst) ∧ payload = text (.object members)

/-- The publish goes to the topic of the entry, as `mqtt` says, with the payload that is due. -/
def IsPublish (text : Json → Bytes) (mqtt : MQTTConfig) (body : Bytes) (b : LoadedEntry)
    (p : Publish Bytes) : Prop :=
  p.mqttTopic = b.mqttTopic ∧ p.qos = mqtt.qos ∧ p.retained = mqtt.retain ∧
    IsPayload text body b p.payload

/-- The datagram decodes to `pkt`, and the guard accepts it if it is encrypted and the protection
is on. -/
def LetThrough (aeadOpen : AeadOpen) (c : LoadedConfig) (guard : ReplayGuard) (arrival : Arrival)
    (pkt : Bridge.DecodedPacket) : Prop :=
  decodePacket aeadOpen [] (.owned (arrival.datagram.take MAX_DATAGRAM))
      c.mpubsub.encryptionKey = .ok pkt ∧
    (pkt.wasEncrypted = true → guard.enabled = true →
      (guard.accept arrival.now true pkt.timestamp pkt.nonce).2 = true)

/-- The publishes for a datagram are those that are due, in the order of the entries, and there are
none for a datagram that is not let through. -/
def Lawful (aeadOpen : AeadOpen) (text : Json → Bytes) (c : LoadedConfig)
    (entries : List LoadedEntry) (guard : ReplayGuard) (arrival : Arrival)
    (made : List (Publish Bytes)) : Prop :=
  (∀ pkt, LetThrough aeadOpen c guard arrival pkt →
    List.Forall₂ (IsPublish text c.mqtt (pkt.payload.read []))
      (entries.filter (IsDue pkt (pkt.payload.read []))) made) ∧
    ((∀ pkt, ¬LetThrough aeadOpen c guard arrival pkt) → made = [])

/-- JSON can say what the datagram has for the entries: no value that is decoded for an entry
which a publish is due to is a NaN or an infinity, and the names are valid UTF-8. -/
def Expressible (aeadOpen : AeadOpen) (c : LoadedConfig) (entries : List LoadedEntry)
    (guard : ReplayGuard) (arrival : Arrival) : Prop :=
  ∀ pkt, LetThrough aeadOpen c guard arrival pkt →
    ∀ b ∈ entries, IsDue pkt (pkt.payload.read []) b → ∀ s, b.schemaPtr = some s →
      ∀ out, decodeProto s ((pkt.payload.read []).drop 2) = .ok out →
        ∀ name v, out.get? name = some v → ValidUtf8 name ∧ v.Finite

/-! ## The loop against what is due -/

section Due

variable {text : Json → Bytes} {mqtt : MQTTConfig} {pkt : Bridge.DecodedPacket} {body : Bytes}
  {b : LoadedEntry}

/-- `ProtoToJSON` fails on what does not decode. -/
theorem jsonBytes_eq_none {s : Schema} (h : ¬(decodeProto s body).isOk = true) :
    jsonBytes text s body = none := by
  cases hdecode : decodeProto s body with
  | ok out =>
    rw [hdecode] at h
    exact absurd rfl h
  | error e =>
    unfold jsonBytes protoToJSON
    rw [hdecode]
    rfl

/-- The loop makes nothing of the other entries. -/
theorem duePublish_eq_none (h : ¬IsDue pkt body b) :
    duePublish (jsonBytes text) mqtt pkt body b = none := by
  unfold duePublish
  split
  · rename_i hmatch
    have hread : ¬CanRead pkt body b.schemaPtr := fun hread => h ⟨hmatch, hread⟩
    rw [Option.map_eq_none_iff]
    unfold duePayload
    cases hptr : b.schemaPtr with
    | none =>
      rw [hptr] at hread
      exact if_neg hread
    | some s =>
      rw [hptr] at hread
      simp only
      split
      · rename_i hid
        exact jsonBytes_eq_none fun hok => hread ⟨hid.1, hid.2.1, hid.2.2, hok⟩
      · rfl
  · rfl

/-- The text of an object with the decoded names comes out where JSON can say the values. -/
theorem exists_jsonBytes_iff {s : Schema} (hs : s.Valid) {out : Dict Bytes Value}
    (h : decodeProto s body = .ok out) :
    (∃ payload, jsonBytes text s body = some payload ∧
      ∃ out' members, decodeProto s body = .ok out' ∧ Bridge.protoToJSON s body =
        .ok (.object members) ∧ (members.map Prod.fst).Perm (out'.entries.map Prod.fst) ∧
        payload = text (.object members)) ↔
      ∀ name v, out.get? name = some v → ValidUtf8 name ∧ v.Finite := by
  rw [← forwards_iff hs h]
  constructor
  · rintro ⟨_, -, out', members, hout', hmembers, hperm, -⟩
    cases h.symm.trans hout'
    exact ⟨members, hmembers, hperm⟩
  · rintro ⟨members, hmembers, hperm⟩
    refine ⟨text (.object members), ?_, out, members, h, hmembers, hperm, rfl⟩
    unfold jsonBytes
    rw [hmembers]
    rfl

/-- The loop makes the publish that is due, or the body has what JSON cannot say. -/
theorem exists_duePublish_iff (hdue : IsDue pkt body b)
    (hvalid : ∀ s, b.schemaPtr = some s → s.Valid) :
    (∃ p, duePublish (jsonBytes text) mqtt pkt body b = some p ∧ IsPublish text mqtt body b p) ↔
      ∀ s, b.schemaPtr = some s → ∀ out, decodeProto s (body.drop 2) = .ok out →
        ∀ name v, out.get? name = some v → ValidUtf8 name ∧ v.Finite := by
  obtain ⟨hmatch, hread⟩ := hdue
  -- Topic, QoS and retain flag are those of the entry in any case.
  have hpublish : (∃ p, duePublish (jsonBytes text) mqtt pkt body b = some p ∧
      IsPublish text mqtt body b p) ↔ ∃ payload, duePayload (jsonBytes text) pkt body b =
        some payload ∧ IsPayload text body b payload := by
    unfold duePublish
    rw [if_pos hmatch]
    constructor
    · rintro ⟨p, hp, -, -, -, hpayload⟩
      obtain ⟨payload, hsome, rfl⟩ := Option.map_eq_some_iff.mp hp
      exact ⟨payload, hsome, hpayload⟩
    · rintro ⟨payload, hsome, hpayload⟩
      exact ⟨_, by rw [hsome]; rfl, rfl, rfl, rfl, hpayload⟩
  rw [hpublish]
  unfold duePayload IsPayload
  cases hptr : b.schemaPtr with
  | none =>
    rw [hptr] at hread
    refine iff_of_true ⟨body, if_pos hread, rfl⟩ fun s hs => ?_
    cases hs
  | some s =>
    rw [hptr] at hread
    obtain ⟨hproto, hlong, hid, hok⟩ := hread
    obtain ⟨out, hout⟩ := isOk_iff.mp hok
    simp only [hproto, hlong, hid, and_self, if_true]
    rw [exists_jsonBytes_iff (hvalid s hptr) hout]
    constructor
    · rintro hall s' hs' out' hout'
      cases hs'
      cases hout.symm.trans hout'
      exact hall
    · exact fun hall => hall s rfl out hout

end Due

/-- What the law publishes for a datagram that is let through, -/
theorem law_letThrough {aeadOpen : AeadOpen} {protoToJSON : Schema → Bytes → Option Bytes}
    {c : LoadedConfig} {guard : ReplayGuard} {arrival : Arrival} {pkt : Bridge.DecodedPacket}
    (h : LetThrough aeadOpen c guard arrival pkt) (entries : List LoadedEntry) :
    ((law aeadOpen protoToJSON c entries).step guard arrival).2 =
      entries.filterMap (duePublish protoToJSON c.mqtt pkt (pkt.payload.read [])) := by
  unfold law
  simp only [h.1]
  by_cases hcheck : pkt.wasEncrypted = true ∧ guard.enabled = true
  · rw [if_pos hcheck]
    simp only [h.2 hcheck.1 hcheck.2, if_true]
  · rw [if_neg hcheck]

/-- and that it publishes nothing else. -/
theorem law_not_letThrough {aeadOpen : AeadOpen} {protoToJSON : Schema → Bytes → Option Bytes}
    {c : LoadedConfig} {guard : ReplayGuard} {arrival : Arrival}
    (h : ∀ pkt, ¬LetThrough aeadOpen c guard arrival pkt) (entries : List LoadedEntry) :
    ((law aeadOpen protoToJSON c entries).step guard arrival).2 = [] := by
  unfold law
  cases hdecode : decodePacket aeadOpen [] (.owned (arrival.datagram.take MAX_DATAGRAM))
      c.mpubsub.encryptionKey with
  | error e => simp only [hdecode]
  | ok pkt =>
    have hrejected : ¬(pkt.wasEncrypted = true → guard.enabled = true →
        (guard.accept arrival.now true pkt.timestamp pkt.nonce).2 = true) :=
      fun haccept => h pkt ⟨hdecode, haccept⟩
    simp only [Classical.not_imp] at hrejected
    obtain ⟨hencrypted, henabled, hno⟩ := hrejected
    simp only [hdecode, hencrypted, henabled, and_self, if_true, hno, Bool.false_eq_true, if_false]

/-- A datagram is published lawfully if and only if JSON can say what it has. -/
theorem lawful_iff {aeadOpen : AeadOpen} {text : Json → Bytes} {c : LoadedConfig}
    {entries : List LoadedEntry} (hvalid : ∀ b ∈ entries, ∀ s, b.schemaPtr = some s → s.Valid)
    (guard : ReplayGuard) (arrival : Arrival) :
    Lawful aeadOpen text c entries guard arrival
        ((law aeadOpen (jsonBytes text) c entries).step guard arrival).2 ↔
      Expressible aeadOpen c entries guard arrival := by
  have hiff (pkt : Bridge.DecodedPacket) (hpkt : LetThrough aeadOpen c guard arrival pkt) :
      List.Forall₂ (IsPublish text c.mqtt (pkt.payload.read []))
          (entries.filter (IsDue pkt (pkt.payload.read [])))
          ((law aeadOpen (jsonBytes text) c entries).step guard arrival).2 ↔
        ∀ b ∈ entries, IsDue pkt (pkt.payload.read []) b → ∀ s, b.schemaPtr = some s →
          ∀ out, decodeProto s ((pkt.payload.read []).drop 2) = .ok out →
            ∀ name v, out.get? name = some v → ValidUtf8 name ∧ v.Finite := by
    rw [law_letThrough hpkt, forall₂_filter_filterMap_iff fun b _ => duePublish_eq_none]
    exact forall₂_congr fun b hb => forall_congr' fun hdue => exists_duePublish_iff hdue (hvalid b hb)
  constructor
  · exact fun h pkt hpkt => (hiff pkt hpkt).mp (h.1 pkt hpkt)
  · exact fun h => ⟨fun pkt hpkt => (hiff pkt hpkt).mpr (h pkt hpkt),
      fun hnone => law_not_letThrough hnone entries⟩

/-- The loop, after any datagrams, publishes the next one lawfully if and only if JSON can say what
it has. -/
theorem publishes_lawful_iff (aeadOpen : AeadOpen) (text : Json → Bytes) {std : Std}
    {file : ConfigFile} {c : LoadedConfig} (h : loadConfig std file = .ok c)
    (s : Buffer MAX_DATAGRAM × ReplayGuard) (arrival : Arrival) :
    Lawful aeadOpen text c (file.bridges.map file.resolve) s.2 arrival
        ((publishes aeadOpen ⟨Schema.schemaID, jsonBytes text⟩ c.receiver).step s arrival).2 ↔
      Expressible aeadOpen c (file.bridges.map file.resolve) s.2 arrival := by
  have hvalid : ∀ b ∈ file.bridges.map file.resolve, ∀ s, b.schemaPtr = some s → s.Valid := by
    intro b hb s hs
    obtain ⟨entry, -, rfl⟩ := List.mem_map.mp hb
    exact ConfigFile.valid_of_resolve hs
  have hstep := (step_publishes aeadOpen (jsonBytes text) c s arrival).2
  rw [bridges_of_loadConfig h] at hstep
  rw [hstep]
  exact lawful_iff hvalid s.2 arrival

/-! ## A route that gets nothing -/

/-- Three entries for the topic "a": one without a schema, one that requires encryption and one
with a schema. -/
def sensorFile : ConfigFile where
  mqtt := { broker := [98] }
  mpubsub := { key := [107] }
  schemas := [⟨utf8 "sensor", sensorFields⟩]
  jsonTranslation := true
  bridges :=
    [{ direction := Direction.name .DirMPubsubToMQTT, mqttTopic := [65], mpubsubTopic := [97] },
      { direction := Direction.name .DirMPubsubToMQTT, mqttTopic := [66], mpubsubTopic := [97]
        requireEncryption := true },
      { direction := Direction.name .DirMPubsubToMQTT, mqttTopic := [67], mpubsubTopic := [97]
        schema := utf8 "sensor" }]

/-- What the loader makes of it. -/
def sensorConfig : LoadedConfig where
  mqtt := { broker := [98], clientID := utf8 "mpubsub-bridge" }
  mpubsub :=
    { port := 18512, scope := utf8 "link-local", hops := 1, retransmitCount := 1
      retransmitDelay := 100000000, promoteQoS := false
      encryptionKey := some (Bridge.deriveKey [107]), replayWindowSeconds := 0 }
  bridges := sensorFile.bridges.map sensorFile.resolve

theorem loadConfig_sensorFile (std : Std) : loadConfig std sensorFile = .ok sensorConfig := by
  obtain ⟨s, hs⟩ := newSchema_of_accepted accepted_sensorFields
  have hschema : sensorFile.schema? (utf8 "sensor") = some s := by
    show (newSchema (utf8 "sensor") sensorFields).toOption = some s
    rw [hs]
    rfl
  have hschemas : loadSchemas .empty 0 sensorFile.schemas =
      .ok (Dict.empty.set (utf8 "sensor") s) := by
    simp only [sensorFile, loadSchemas, hs]
    rfl
  have hbridges : loadBridges sensorFile = .ok sensorConfig.bridges := by
    show loadSchemas .empty 0 sensorFile.schemas >>= _ = _
    rw [hschemas, ok_bind]
    have hresolved : ∃ bridges, resolveSchemas (Dict.empty.set (utf8 "sensor") s) 0
        sensorFile.bridges = .ok bridges := ⟨_, rfl⟩
    obtain ⟨bridges, hresolved⟩ := hresolved
    rw [hresolved, eq_map_of_resolveSchemas hresolved]
    refine congrArg Except.ok (List.map_congr_left fun b hb => ?_)
    have hname : b.schema = [] ∨ b.schema = utf8 "sensor" := by
      simp only [sensorFile, List.mem_cons, List.not_mem_nil, or_false] at hb
      rcases hb with rfl | rfl | rfl
      · exact .inl rfl
      · exact .inl rfl
      · exact .inr rfl
    unfold ConfigFile.resolve
    rcases hname with hname | hname
    · rw [hname, if_pos rfl, if_pos rfl]
    · rw [hname, hschema, Dict.get?_set, if_pos rfl]
  have hdefaults : applyDefaults std sensorFile = .ok sensorConfig := by
    unfold applyDefaults
    rw [hbridges]
    rfl
  unfold loadConfig
  rw [hdefaults]
  rfl

/-- The SCHEMA_ID of the two fields. -/
theorem schemaID_sensor {s : Schema} (hs : s.Valid) (hfields : s.fields = sensorFields) :
    s.schemaID = 0x5F54 := by
  have hsorted : (sensorFields.map canonicalLine).mergeSort (fun a b => a ≤ b) =
      sensorFields.map canonicalLine := List.mergeSort_of_pairwise (by decide +kernel)
  rw [Schema.schemaID, hs.sid, computeSchemaID, canonicalSchemaString, hfields, hsorted]
  decide +kernel

/-- A plaintext PROTOBUF datagram on "a" with the SCHEMA_ID and this message, -/
def sensorArrival (message : Bytes) : Arrival :=
  ⟨encodeHeader (topicCrc32 [97]) .PROTOBUF (2 + message.length).toUInt16 .NONE ++
    [0x54, 0x5F] ++ message, 1000⟩

/-- and what it decodes to. -/
def sensorPacket (message : Bytes) : Bridge.DecodedPacket where
  topicCRC := topicCrc32 [97]
  encoding := .PROTOBUF
  encMode := .NONE
  wasEncrypted := false
  payload := .owned ([0x54, 0x5F] ++ message)

/-- The entry with the schema. -/
def sensorEntry : EntryFile where
  direction := Direction.name .DirMPubsubToMQTT
  mqttTopic := [67]
  mpubsubTopic := [97]
  schema := utf8 "sensor"

theorem schemaPtr_sensorEntry {s : Schema}
    (hs : newSchema (utf8 "sensor") sensorFields = .ok s) :
    (sensorFile.resolve sensorEntry).schemaPtr = some s := by
  show (newSchema (utf8 "sensor") sensorFields).toOption = some s
  rw [hs]
  rfl

/-- No other entry has a schema. -/
theorem eq_of_schemaPtr {s : Schema} {b : LoadedEntry}
    (hb : b ∈ sensorFile.bridges.map sensorFile.resolve) (hs : b.schemaPtr = some s) :
    b = sensorFile.resolve sensorEntry := by
  obtain ⟨entry, hentry, rfl⟩ := List.mem_map.mp hb
  simp only [sensorFile, List.mem_cons, List.not_mem_nil, or_false] at hentry
  rcases hentry with rfl | rfl | rfl
  · cases hs
  · cases hs
  · rfl

/-- It is due a publish of a message that decodes. -/
theorem isDue_sensorEntry {s : Schema} (hs : newSchema (utf8 "sensor") sensorFields = .ok s)
    {message : Bytes} (hok : (decodeProto s message).isOk = true) :
    IsDue (sensorPacket message) ([0x54, 0x5F] ++ message) (sensorFile.resolve sensorEntry) := by
  obtain ⟨-, hfields, hvalid⟩ := valid_of_newSchema hs
  refine ⟨⟨rfl, rfl, fun h => absurd h Bool.false_ne_true⟩, ?_⟩
  rw [schemaPtr_sensorEntry hs]
  refine ⟨rfl, Nat.le_add_left 2 _, ?_, hok⟩
  rw [schemaID_sensor hvalid hfields]
  show loadU16le 0x54 0x5F = 0x5F54
  decide

/-- A message with a NaN is due to the entry, and not published. -/
theorem nan_misses_its_route :
    ¬∀ (aeadOpen : AeadOpen) (text : Json → Bytes) (std : Std) (file : ConfigFile)
      (c : LoadedConfig), loadConfig std file = .ok c → ∀ (arrivals : List Arrival) arrival,
      let m := publishes aeadOpen ⟨Schema.schemaID, jsonBytes text⟩ c.receiver
      let s := m.exec ((start c.receiver).mem, (start c.receiver).state) arrivals
      Lawful aeadOpen text c (file.bridges.map file.resolve) s.2 arrival (m.step s arrival).2 := by
  intro h
  obtain ⟨s, hs⟩ := newSchema_of_accepted accepted_sensorFields
  obtain ⟨-, hfields, hvalid⟩ := valid_of_newSchema hs
  have hload : loadU32leAt [0x00, 0x00, 0xC0, 0x7F] 0 = 0x7FC00000 := by decide
  have hdecode := decodeProto_state hvalid hfields hload
  have hconfig := loadConfig_sensorFile ⟨fun _ => .error "", fun _ => 0⟩
  have hlawful := h (fun _ _ _ _ => none) (fun _ => []) _ _ _ hconfig []
    (sensorArrival [0x0D, 0x00, 0x00, 0xC0, 0x7F])
  have hexpressible := (publishes_lawful_iff _ _ hconfig _ _).mp hlawful
  have hthrough : LetThrough (fun _ _ _ _ => none) sensorConfig
      (start sensorConfig.receiver).state (sensorArrival [0x0D, 0x00, 0x00, 0xC0, 0x7F])
      (sensorPacket [0x0D, 0x00, 0x00, 0xC0, 0x7F]) :=
    ⟨by decide +kernel, fun h => absurd h Bool.false_ne_true⟩
  have hdue := isDue_sensorEntry hs (by rw [hdecode]; rfl)
  have hmem : sensorFile.resolve sensorEntry ∈ sensorFile.bridges.map sensorFile.resolve :=
    List.mem_map_of_mem (by simp [sensorFile, sensorEntry])
  have hstate := hexpressible _ hthrough _ hmem hdue s (schemaPtr_sensorEntry hs) _ hdecode
    (utf8 "state") (.float64 (Ieee754.widen 0x7FC00000)) (by rw [Dict.get?_set, if_pos rfl])
  have hnot : ¬Value.Finite (.float64 (Ieee754.widen 0x7FC00000)) := by
    rw [Value.Finite]
    decide +kernel
  exact hnot hstate.2

/-- **The routing law.** For every accepted file, after every sequence of datagrams, the next
datagram makes the loop publish what is due to the entries of the file if and only if JSON can say
what the datagram has for them. In any case the loop publishes what `law` says. No entry without
a schema gets a PROTOBUF body, and no entry that requires encryption a plaintext packet. -/
theorem routing_law (aeadOpen : AeadOpen) (text : Json → Bytes) {std : Std} {file : ConfigFile}
    {c : LoadedConfig} (h : loadConfig std file = .ok c) (arrivals : List Arrival) :
    (∀ arrival,
      let m := publishes aeadOpen ⟨Schema.schemaID, jsonBytes text⟩ c.receiver
      let s := m.exec ((start c.receiver).mem, (start c.receiver).state) arrivals
      Lawful aeadOpen text c (file.bridges.map file.resolve) s.2 arrival (m.step s arrival).2 ↔
        Expressible aeadOpen c (file.bridges.map file.resolve) s.2 arrival) ∧
    (publishes aeadOpen ⟨Schema.schemaID, jsonBytes text⟩ c.receiver).trace
        ((start c.receiver).mem, (start c.receiver).state) arrivals =
      (law aeadOpen (jsonBytes text) c (file.bridges.map file.resolve)).trace
        (ReplayGuard.new c.mpubsub.replayWindowSeconds 4096) arrivals ∧
    ∀ pkt body b, duePublish (jsonBytes text) c.mqtt pkt body b ≠ none →
      (pkt.encoding = .PROTOBUF → b.schemaPtr ≠ none) ∧
        (b.requireEncryption = true → pkt.wasEncrypted = true) := by
  refine ⟨fun arrival => publishes_lawful_iff aeadOpen text h _ arrival, ?_,
    fun pkt body b => of_duePublish⟩
  rw [← bridges_of_loadConfig h]
  refine (Machine.trace_eq_of_sim (R := fun s guard => s.2 = guard) ?_ ?_ arrivals).1
  · rintro s guard arrival rfl
    exact step_publishes aeadOpen (jsonBytes text) c s arrival
  · rfl

/-- The text of the object with the state 1.5. -/
def sensorText : Json → Bytes := fun _ => utf8 "\x7b\"state\":1.5\x7d"

/-- `routing_law` for a RAW datagram on "a", which goes to the first entry, and for a message with
a number behind it. -/
theorem routing_law_sensor :
    let m := publishes (fun _ _ _ _ => none) ⟨Schema.schemaID, jsonBytes sensorText⟩
      sensorConfig.receiver
    let start := ((start sensorConfig.receiver).mem, (start sensorConfig.receiver).state)
    let s := m.exec start [rawArrival [97] 7]
    m.trace start [rawArrival [97] 7] = [[⟨[65], 0, false, [7]⟩]] ∧
      Lawful (fun _ _ _ _ => none) sensorText sensorConfig
        (sensorFile.bridges.map sensorFile.resolve) s.2
        (sensorArrival [0x0D, 0x00, 0x00, 0xC0, 0x3F])
        (m.step s (sensorArrival [0x0D, 0x00, 0x00, 0xC0, 0x3F])).2 := by
  have hconfig := loadConfig_sensorFile ⟨fun _ => .error "", fun _ => 0⟩
  refine ⟨?_, (routing_law _ sensorText hconfig [rawArrival [97] 7]).1 _ |>.mpr ?_⟩
  · rw [(routing_law (fun _ _ _ _ => none) sensorText hconfig [rawArrival [97] 7]).2.1]
    decide +kernel
  · intro pkt hpkt b hb _ s hs out hout name v hv
    have hdecoded : decodePacket (fun _ _ _ _ => none) []
        (.owned ((sensorArrival [0x0D, 0x00, 0x00, 0xC0, 0x3F]).datagram.take MAX_DATAGRAM))
        sensorConfig.mpubsub.encryptionKey =
          .ok (sensorPacket [0x0D, 0x00, 0x00, 0xC0, 0x3F]) := by decide +kernel
    cases hdecoded.symm.trans hpkt.1
    obtain ⟨s', hs'⟩ := newSchema_of_accepted accepted_sensorFields
    obtain ⟨-, hfields, hvalid⟩ := valid_of_newSchema hs'
    rw [eq_of_schemaPtr hb hs, schemaPtr_sensorEntry hs'] at hs
    cases hs
    have hload : loadU32leAt [0x00, 0x00, 0xC0, 0x3F] 0 = 0x3FC00000 := by decide
    cases (decodeProto_state hvalid hfields hload).symm.trans hout
    exact finite_state (by decide +kernel) hv

end Mpubsub.Theorems
