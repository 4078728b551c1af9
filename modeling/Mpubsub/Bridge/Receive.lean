import Mpubsub.Lib.Deferred
import Mpubsub.Bridge.Wire
import Mpubsub.Replay.Go
import Mpubsub.Wire.Topic

/-!
# From multicast to MQTT (`bridge.go`)

The receive loop reads every datagram into one buffer, decodes it, asks the
replay guard and publishes to the MQTT topics that are routed from its CRC. The
MQTT client keeps the payload slice it is given and serialises it later on a
goroutine of its own, so the loop and the client are a producer and a consumer of
slices of the buffer (`mcastReceiveLoop`, `machine`).

What an iteration publishes, read when the iteration ends, depends on the bytes
that were read from the socket alone (`makes_forwarding`).
-/

namespace Mpubsub.Bridge

open Mpubsub.Lib Mpubsub.Wire
open Mpubsub.Replay.Go (ReplayGuard)

variable {σ : Type}

/-- `Direction`. -/
inductive Direction where
  | DirMQTTToMPubsub
  | DirMPubsubToMQTT
deriving DecidableEq

/-- `BridgeEntry`, with its schema resolved to one of type `σ`. -/
structure BridgeEntry (σ : Type) where
  direction : Direction
  mqttTopic : Bytes
  mpubsubTopic : Bytes
  requireEncryption : Bool := false
  schemaPtr : Option σ := none

/-- What the receive loop reads of `Config`. -/
structure Config (σ : Type) where
  qos : UInt8 := 0
  retain : Bool := false
  encryptionKey : Option Bytes := none
  replayWindowSeconds : UInt32 := 0
  bridges : List (BridgeEntry σ) := []

/-- What the receive loop calls on schemas: `SchemaID` and `ProtoToJSON`, whose error is
only logged. -/
structure SchemaOps (σ : Type) where
  schemaID : σ → UInt16
  protoToJSON : σ → Bytes → Option Bytes

/-- `mpubsubToMQTTRoute`. -/
structure Route (σ : Type) where
  mqttTopic : Bytes
  requireEncryption : Bool
  schema : Option σ

/-- An iteration of `Run`'s loop over the entries, for `crcToMQTT`. -/
def addRoute (crcToMQTT : UInt32 → List (Route σ)) (entry : BridgeEntry σ) :
    UInt32 → List (Route σ) :=
  match entry.direction with
  | .DirMQTTToMPubsub => crcToMQTT
  | .DirMPubsubToMQTT =>
    let crc := topicCrc32 entry.mpubsubTopic
    Function.update crcToMQTT crc
      (crcToMQTT crc ++ [⟨entry.mqttTopic, entry.requireEncryption, entry.schemaPtr⟩])

/-- The `crcToMQTT` of a running bridge. -/
def crcToMQTT (bridges : List (BridgeEntry σ)) : UInt32 → List (Route σ) :=
  bridges.foldl addRoute fun _ => []

/-- The arguments of a call of `mqtt.Publish`, for a kind of payload `π`. -/
structure Publish (π : Type) where
  mqttTopic : Bytes
  qos : UInt8
  retained : Bool
  payload : π
deriving DecidableEq

/-- The publish with its payload serialised. -/
def Publish.read (mem : Bytes) (p : Publish Slice) : Publish Bytes :=
  ⟨p.mqttTopic, p.qos, p.retained, p.payload.read mem⟩

/-- The `switch` of the loop over routes: the payload for a route, if it has one. -/
def mqttPayload (ops : SchemaOps σ) (mem : Bytes) (pkt : DecodedPacket) (r : Route σ) :
    Option Slice :=
  match r.schema, pkt.encoding with
  | none, .RAW => some pkt.payload
  -- An MQTT subscriber has no use for the `SCHEMA_ID` prefix.
  | none, .PROTOBUF => none
  | some _, .RAW => none
  | some schema, .PROTOBUF =>
    let payload := pkt.payload.read mem
    let protoSchemaID := loadU16le (payload.getD 0 0) (payload.getD 1 0)
    let protoBody := pkt.payload.drop 2
    if protoSchemaID ≠ ops.schemaID schema then none
    -- The JSON is a new slice.
    else (ops.protoToJSON schema (protoBody.read mem)).map .owned

/-- The body of the loop over routes: what is published to a route. -/
def publishTo (ops : SchemaOps σ) (cfg : Config σ) (mem : Bytes) (pkt : DecodedPacket)
    (r : Route σ) : Option (Publish Slice) :=
  if r.requireEncryption && !pkt.wasEncrypted then none
  else
    (mqttPayload ops mem pkt r).map fun payload => ⟨r.mqttTopic, cfg.qos, cfg.retain, payload⟩

/-- The loop over the routes of a packet. -/
def forward (ops : SchemaOps σ) (cfg : Config σ) (mem : Bytes) (pkt : DecodedPacket)
    (routes : List (Route σ)) : List (Publish Slice) :=
  if pkt.encoding = .PROTOBUF ∧ (pkt.payload.read mem).length < 2 then []
  else routes.filterMap (publishTo ops cfg mem pkt)

/-- The replay check of the loop. -/
def replayCheck (replay : ReplayGuard) (now : UInt32) (pkt : DecodedPacket) :
    ReplayGuard × Bool :=
  if pkt.wasEncrypted && replay.enabled then replay.accept now true pkt.timestamp pkt.nonce
  else (replay, true)

/-- The body of the loop behind the socket read. -/
def receive (aeadOpen : AeadOpen) (ops : SchemaOps σ) (cfg : Config σ) (mem : Bytes)
    (replay : ReplayGuard) (now : UInt32) (datagram : Slice) :
    ReplayGuard × List (Publish Slice) :=
  match decodePacket aeadOpen mem datagram cfg.encryptionKey with
  | .error _ => (replay, [])
  | .ok pkt =>
    let (replay, accepted) := replayCheck replay now pkt
    if !accepted then (replay, [])
    else (replay, forward ops cfg mem pkt (crcToMQTT cfg.bridges pkt.topicCRC))

/-- A datagram, and the time at which it is handled. -/
structure Arrival where
  datagram : Bytes
  now : UInt32
deriving DecidableEq

/-- `mcastReceiveLoop`: the socket read fills the start of the one buffer, and the body of
the loop gets a slice of it. -/
def mcastReceiveLoop (aeadOpen : AeadOpen) (ops : SchemaOps σ) (cfg : Config σ) :
    Producer (Buffer MAX_DATAGRAM) ReplayGuard Arrival (Publish Slice) where
  iterate buf replay arrival :=
    let buf := buf.fill arrival.datagram
    let n := Buffer.filled MAX_DATAGRAM arrival.datagram
    let (replay, publishes) := receive aeadOpen ops cfg buf.val replay arrival.now (.view 0 n)
    (buf, replay, publishes)

/-- A running bridge. -/
abbrev State := Producer.State (Buffer MAX_DATAGRAM) ReplayGuard (Publish Slice)

/-- The receive loop and the MQTT client's writer. -/
def machine (aeadOpen : AeadOpen) (ops : SchemaOps σ) (cfg : Config σ) :
    Machine State (Producer.Event Arrival) (Option (Publish Bytes)) :=
  (mcastReceiveLoop aeadOpen ops cfg).machine fun buf p => p.read buf.val

/-- The bridge before the first datagram. -/
def start (cfg : Config σ) : State :=
  { mem := ⟨List.replicate MAX_DATAGRAM 0, List.length_replicate⟩
    state := ReplayGuard.new cfg.replayWindowSeconds 4096 }

/-! ## Forwarding by value -/

/-- The loop with a copy of every datagram in place of the buffer. -/
def forwarding (aeadOpen : AeadOpen) (ops : SchemaOps σ) (cfg : Config σ) :
    Producer Unit ReplayGuard Arrival (Publish Bytes) where
  iterate _ replay arrival :=
    let (replay, publishes) := receive aeadOpen ops cfg [] replay arrival.now
      (.owned (arrival.datagram.take MAX_DATAGRAM))
    (⟨⟩, replay, publishes.map (·.read []))

theorem mqttPayload_copied (ops : SchemaOps σ) (mem : Bytes) (pkt : DecodedPacket)
    (r : Route σ) :
    (mqttPayload ops mem pkt r).map (·.read mem) =
      (mqttPayload ops [] (pkt.copied mem) r).map (·.read []) := by
  unfold mqttPayload
  cases r.schema with
  | none =>
    dsimp only [DecodedPacket.copied_encoding]
    cases pkt.encoding with
    | RAW => rfl
    | PROTOBUF => rfl
  | some schema =>
    dsimp only [DecodedPacket.copied_encoding, DecodedPacket.copied_payload]
    cases pkt.encoding with
    | RAW => rfl
    | PROTOBUF =>
      simp only [Slice.read_owned, Slice.read_drop]
      split
      · rfl
      · cases ops.protoToJSON schema ((pkt.payload.read mem).drop 2) with
        | none => rfl
        | some json => rfl

theorem publishTo_read (ops : SchemaOps σ) (cfg : Config σ) (mem : Bytes) (pkt : DecodedPacket)
    (r : Route σ) :
    (publishTo ops cfg mem pkt r).map (·.read mem) =
      if r.requireEncryption && !pkt.wasEncrypted then none
      else ((mqttPayload ops mem pkt r).map (·.read mem)).map fun bytes =>
        ⟨r.mqttTopic, cfg.qos, cfg.retain, bytes⟩ := by
  unfold publishTo
  split
  · rfl
  · rw [Option.map_map, Option.map_map]
    rfl

theorem publishTo_copied (ops : SchemaOps σ) (cfg : Config σ) (mem : Bytes)
    (pkt : DecodedPacket) (r : Route σ) :
    (publishTo ops cfg mem pkt r).map (·.read mem) =
      (publishTo ops cfg [] (pkt.copied mem) r).map (·.read []) := by
  rw [publishTo_read, publishTo_read, mqttPayload_copied]
  rfl

theorem forward_copied (ops : SchemaOps σ) (cfg : Config σ) (mem : Bytes)
    (pkt : DecodedPacket) (routes : List (Route σ)) :
    (forward ops cfg mem pkt routes).map (·.read mem) =
      (forward ops cfg [] (pkt.copied mem) routes).map (·.read []) := by
  have hshort : ((pkt.copied mem).encoding = .PROTOBUF ∧
      ((pkt.copied mem).payload.read []).length < 2) ↔
    (pkt.encoding = .PROTOBUF ∧ (pkt.payload.read mem).length < 2) := Iff.rfl
  unfold forward
  by_cases h : pkt.encoding = .PROTOBUF ∧ (pkt.payload.read mem).length < 2
  · rw [if_pos h, if_pos (hshort.mpr h)]
    rfl
  · rw [if_neg h, if_neg (mt hshort.mp h), List.map_filterMap, List.map_filterMap]
    exact List.filterMap_congr fun r _ => publishTo_copied ops cfg mem pkt r

/-- The loop body on a slice of the buffer is the loop body on a copy of it. -/
theorem receive_read (aeadOpen : AeadOpen) (ops : SchemaOps σ) (cfg : Config σ) (mem : Bytes)
    (replay : ReplayGuard) (now : UInt32) (datagram : Slice) :
    (receive aeadOpen ops cfg mem replay now datagram).1 =
        (receive aeadOpen ops cfg [] replay now (.owned (datagram.read mem))).1 ∧
      (receive aeadOpen ops cfg mem replay now datagram).2.map (·.read mem) =
        (receive aeadOpen ops cfg [] replay now (.owned (datagram.read mem))).2.map
          (·.read []) := by
  unfold receive
  rw [← decodePacket_read]
  cases decodePacket aeadOpen mem datagram cfg.encryptionKey with
  | error e => exact ⟨rfl, rfl⟩
  | ok pkt =>
    have hcheck : replayCheck replay now (pkt.copied mem) = replayCheck replay now pkt := rfl
    simp only [Except.map, hcheck]
    split
    · exact ⟨rfl, rfl⟩
    · exact ⟨rfl, forward_copied ops cfg mem pkt _⟩

/-- What the loop publishes reads, at the end of the iteration, what forwarding by value
publishes. -/
theorem makes_forwarding (aeadOpen : AeadOpen) (ops : SchemaOps σ) (cfg : Config σ) :
    (mcastReceiveLoop aeadOpen ops cfg).Makes (fun buf p => p.read buf.val)
      (forwarding aeadOpen ops cfg) := by
  constructor
  · intro buf replay arrival
    have h := (receive_read aeadOpen ops cfg (buf.fill arrival.datagram).val replay arrival.now
      (.view 0 (Buffer.filled MAX_DATAGRAM arrival.datagram))).1
    rw [Slice.read_fill] at h
    exact h
  · intro buf replay arrival
    have h := (receive_read aeadOpen ops cfg (buf.fill arrival.datagram).val replay arrival.now
      (.view 0 (Buffer.filled MAX_DATAGRAM arrival.datagram))).2
    rw [Slice.read_fill] at h
    exact h

/-! ## What is published -/

/-- A packet that decodes and that the guard takes is forwarded. -/
theorem receive_of_ok {aeadOpen : AeadOpen} {ops : SchemaOps σ} {cfg : Config σ} {mem : Bytes}
    {replay : ReplayGuard} {now : UInt32} {datagram : Slice} {pkt : DecodedPacket}
    (hdecode : decodePacket aeadOpen mem datagram cfg.encryptionKey = .ok pkt)
    (hcheck : (replayCheck replay now pkt).2 = true) :
    (receive aeadOpen ops cfg mem replay now datagram).2 =
      forward ops cfg mem pkt (crcToMQTT cfg.bridges pkt.topicCRC) := by
  unfold receive
  rw [hdecode]
  simp only [hcheck, Bool.not_true, Bool.false_eq_true, if_false]

/-- A packet with a payload for one of its routes, which is open to it, is published. -/
theorem forward_ne_nil {ops : SchemaOps σ} (cfg : Config σ) {mem : Bytes} {pkt : DecodedPacket}
    {routes : List (Route σ)} {r : Route σ} {payload : Slice} (hr : r ∈ routes)
    (hopen : r.requireEncryption = false) (hpayload : mqttPayload ops mem pkt r = some payload)
    (hlen : ¬(pkt.encoding = .PROTOBUF ∧ (pkt.payload.read mem).length < 2)) :
    forward ops cfg mem pkt routes ≠ [] := by
  have hpublish : publishTo ops cfg mem pkt r =
      some ⟨r.mqttTopic, cfg.qos, cfg.retain, payload⟩ := by
    unfold publishTo
    rw [hopen, Bool.false_and, if_neg Bool.false_ne_true, hpayload]
    rfl
  unfold forward
  rw [if_neg hlen]
  exact List.ne_nil_of_mem (List.mem_filterMap.mpr ⟨r, hr, hpublish⟩)

/-- The one route of a single entry. -/
theorem crcToMQTT_singleton {entry : BridgeEntry σ} (h : entry.direction = .DirMPubsubToMQTT) :
    crcToMQTT [entry] (topicCrc32 entry.mpubsubTopic) =
      [⟨entry.mqttTopic, entry.requireEncryption, entry.schemaPtr⟩] := by
  simp only [crcToMQTT, List.foldl_cons, List.foldl_nil, addRoute, h, List.nil_append]
  exact Function.update_self ..

/-- A PROTOBUF packet is forwarded to a route whose schema decodes its body. -/
theorem exists_schema_of_mqttPayload {ops : SchemaOps σ} {mem : Bytes} {pkt : DecodedPacket}
    {r : Route σ} {payload : Slice} (h : mqttPayload ops mem pkt r = some payload)
    (hproto : pkt.encoding = .PROTOBUF) :
    ∃ schema json, loadU16le ((pkt.payload.read mem).getD 0 0) ((pkt.payload.read mem).getD 1 0) =
        ops.schemaID schema ∧
      ops.protoToJSON schema ((pkt.payload.read mem).drop 2) = some json := by
  unfold mqttPayload at h
  rw [hproto] at h
  cases hschema : r.schema with
  | none =>
    rw [hschema] at h
    cases h
  | some schema =>
    rw [hschema] at h
    simp only [Slice.read_drop] at h
    split at h
    · cases h
    rename_i hid
    obtain ⟨json, hjson, -⟩ := Option.map_eq_some_iff.mp h
    exact ⟨schema, json, not_not.mp hid, hjson⟩

/-- `message` is due to a route that `arrival` matches, with the payload of `arrival`. -/
def DueTo (aeadOpen : AeadOpen) (ops : SchemaOps σ) (cfg : Config σ) (arrival : Arrival)
    (message : Publish Bytes) : Prop :=
  ∃ pkt r, decodePacket aeadOpen [] (.owned (arrival.datagram.take MAX_DATAGRAM))
      cfg.encryptionKey = .ok pkt ∧
    ¬(pkt.encoding = .PROTOBUF ∧ (pkt.payload.read []).length < 2) ∧
    r ∈ crcToMQTT cfg.bridges pkt.topicCRC ∧ (publishTo ops cfg [] pkt r).map (·.read []) = some message

/-- What forwarding by value publishes in an iteration is due to its datagram. -/
theorem dueTo_of_mem_forwarding {aeadOpen : AeadOpen} {ops : SchemaOps σ} {cfg : Config σ}
    {replay : ReplayGuard} {arrival : Arrival} {message : Publish Bytes}
    (h : message ∈ ((forwarding aeadOpen ops cfg).iterate ⟨⟩ replay arrival).2.2) :
    DueTo aeadOpen ops cfg arrival message := by
  obtain ⟨p, hp, rfl⟩ := List.mem_map.mp h
  change p ∈ (receive aeadOpen ops cfg [] replay arrival.now _).2 at hp
  unfold receive at hp
  split at hp
  · cases hp
  rename_i pkt hdecode
  simp only at hp
  split at hp
  · cases hp
  unfold forward at hp
  split at hp
  · cases hp
  rename_i hlen
  obtain ⟨r, hr, hpublish⟩ := List.mem_filterMap.mp hp
  exact ⟨pkt, r, hdecode, hlen, hr, by rw [hpublish]; rfl⟩

end Mpubsub.Bridge
