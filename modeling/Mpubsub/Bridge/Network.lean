import Mpubsub.Lib.Cascade
import Mpubsub.Lib.Except
import Mpubsub.Bridge.Config
import Mpubsub.Bridge.Resend

/-!
# Running bridges on one broker and one link (`bridge.go`, `mcast.go`)

`Run` goes through the entries once: it subscribes to the MQTT topics of one direction, and
joins the groups and fills `crcToMQTT` for the other (`setUp`). Then a bridge reacts to two
kinds of things, a message that the MQTT client hands to the handler of an entry (`handle`),
and a datagram (`receive`), and what it makes of one kind is of the other kind: a `Network` of
bridges is a cascade of messages and datagrams on their way.

The broker passes a message on to any subscriptions whose filter it matches, or to none. The
link takes a datagram to any sockets that hear its group, the sender's among them
(`IPV6_MULTICAST_LOOP`), any number of times, or never; finite retransmissions are copies too. A
bridge takes what has reached it (`Turn`), or resends what it does indefinitely (`Step`).
-/

namespace Mpubsub.Bridge

open Mpubsub.Lib Mpubsub.Wire
open Mpubsub.Replay.Go (ReplayGuard)

/-! ## `Run` up to the receive loop -/

section SetUp

variable {σ : Type}

/-- What the two sides answer: whether `JoinGroup` and `Subscribe` succeed. -/
structure Answers where
  joinGroup : GroupAddr → Bool
  subscribe : Bytes → Bool

/-- The errors that `Run` returns from its loop over the entries. -/
inductive RunError where
  | join (group : GroupAddr)
  | subscribe (mqttTopic : Bytes)
deriving DecidableEq

/-- A bridge while `Run` goes through the entries. -/
structure Tables (σ : Type) where
  /-- The calls of `mqtt.Subscribe`: the filter, the QoS, and the entry of the handler. -/
  subscriptions : List (Bytes × UInt8 × BridgeEntry σ) := []
  /-- The groups of the map `joined`, in the order of the calls of `JoinGroup`. -/
  joined : List GroupAddr := []
  crcToMQTT : UInt32 → List (Route σ) := fun _ => []

/-- `MulticastSocket.Join`. -/
def join (answers : Answers) (joined : List GroupAddr) (group : GroupAddr) :
    Except RunError (List GroupAddr) :=
  if group ∈ joined then .ok joined
  else if answers.joinGroup group then .ok (joined ++ [group])
  else .error (.join group)

/-- The QoS of the subscriptions. -/
def subQoS (promoteQoS : Bool) (qos : UInt8) : UInt8 := if promoteQoS then 2 else qos

/-- An iteration of `Run`'s loop over the entries. -/
def setUpEntry (answers : Answers) (scope : Scope) (promoteQoS : Bool) (qos : UInt8)
    (t : Tables σ) (entry : BridgeEntry σ) : Except RunError (Tables σ) :=
  match entry.direction with
  | .DirMQTTToMPubsub =>
    if answers.subscribe entry.mqttTopic then
      .ok { t with subscriptions :=
              t.subscriptions ++ [(entry.mqttTopic, subQoS promoteQoS qos, entry)] }
    else .error (.subscribe entry.mqttTopic)
  | .DirMPubsubToMQTT =>
    (join answers t.joined (topicToGroup entry.mpubsubTopic scope)).map fun joined =>
      { t with joined := joined, crcToMQTT := addRoute t.crcToMQTT entry }

/-- `Run`'s loop over the entries. -/
def setUp (answers : Answers) (scope : Scope) (promoteQoS : Bool) (qos : UInt8) :
    Tables σ → List (BridgeEntry σ) → Except RunError (Tables σ)
  | t, [] => .ok t
  | t, entry :: entries =>
    setUpEntry answers scope promoteQoS qos t entry >>=
      (setUp answers scope promoteQoS qos · entries)

variable {answers : Answers} {scope : Scope} {promoteQoS : Bool} {qos : UInt8}

/-- What an iteration does. -/
theorem setUpEntry_cases {t t' : Tables σ} {entry : BridgeEntry σ}
    (h : setUpEntry answers scope promoteQoS qos t entry = .ok t') :
    (entry.direction = .DirMQTTToMPubsub ∧
      t' = { t with subscriptions :=
              t.subscriptions ++ [(entry.mqttTopic, subQoS promoteQoS qos, entry)] }) ∨
    (entry.direction = .DirMPubsubToMQTT ∧ ∃ joined,
      t' = { t with joined := joined, crcToMQTT := addRoute t.crcToMQTT entry } ∧
      (topicToGroup entry.mpubsubTopic scope ∈ t.joined ∧ joined = t.joined ∨
        topicToGroup entry.mpubsubTopic scope ∉ t.joined ∧
          joined = t.joined ++ [topicToGroup entry.mpubsubTopic scope])) := by
  unfold setUpEntry at h
  cases hdirection : entry.direction with
  | DirMQTTToMPubsub =>
    rw [hdirection] at h
    simp only at h
    split at h
    · cases h
      exact .inl ⟨rfl, rfl⟩
    · cases h
  | DirMPubsubToMQTT =>
    rw [hdirection] at h
    simp only [join] at h
    refine .inr ⟨rfl, ?_⟩
    split at h
    · rename_i hin
      cases h
      exact ⟨_, rfl, .inl ⟨hin, rfl⟩⟩
    · rename_i hout
      split at h
      · cases h
        exact ⟨_, rfl, .inr ⟨hout, rfl⟩⟩
      · cases h

end SetUp

/-! ## What a bridge makes of what reaches it -/

/-- A message, as the MQTT client hands it to a handler. -/
structure MqttMessage where
  topic : Bytes
  payload : Bytes
  qos : UInt8 := 0
deriving DecidableEq

/-- The `mpubsubTopic` of a handler's message: the MQTT topic if the entry has none. -/
def LoadedEntry.topicOf (entry : LoadedEntry) (mqttTopic : Bytes) : Bytes :=
  if entry.mpubsubTopic = [] then mqttTopic else entry.mpubsubTopic

/-- Bridges with their configurations, and what is outside them. -/
structure Network (ι : Type) where
  peers : ι → LoadedConfig
  scope : Scope
  aeadSeal : AeadSeal
  aeadOpen : AeadOpen
  jsonToProto : Schema → Bytes → Option Bytes
  protoToJSON : Schema → Bytes → Option Bytes
  /-- The topic filter of a subscription matches a topic. -/
  Matches : (filter topic : Bytes) → Prop
  /-- The groups that other sockets on a bridge's host have joined: a socket that is bound to `[::]`
  gets their datagrams too. -/
  Overhears : ι → GroupAddr → Prop

/-- What is on its way: a message to the handler of an entry, or a datagram to a socket. -/
inductive Transit (ι : Type) where
  | message (i : ι) (entry : LoadedEntry) (msg : MqttMessage)
  | datagram (i : ι) (raw : Bytes)

namespace Network

variable {ι : Type} (net : Network ι)

/-- The handler `h` of an entry, with the time and the random bytes that it reads: the datagram
that it hands to the socket, or none on an error. -/
def handle (i : ι) (entry : LoadedEntry) (msg : MqttMessage) (now : UInt32)
    (nonce : Bytes) : Option Resend.Outgoing :=
  Resend.encode net.aeadSeal ⟨Schema.schemaID, net.jsonToProto⟩ (net.peers i).sender 0
    { mpubsubTopic := entry.topicOf msg.topic
      group := topicToGroup (entry.topicOf msg.topic) net.scope
      payload := msg.payload, qos := msg.qos, schema := entry.schemaPtr, now := now, nonce := nonce }

/-- The receive loop's iteration for a datagram: the guard, and the calls of `mqtt.Publish`. -/
def receive (i : ι) (replay : ReplayGuard) (now : UInt32) (raw : Bytes) :
    ReplayGuard × List (Publish Bytes) :=
  let (replay, publishes) := Bridge.receive net.aeadOpen ⟨Schema.schemaID, net.protoToJSON⟩
    (net.peers i).receiver [] replay now (.owned (raw.take MAX_DATAGRAM))
  (replay, publishes.map (·.read []))

/-- `Run` has joined the group for an entry. -/
def Joined (i : ι) (group : GroupAddr) : Prop :=
  ∃ entry ∈ (net.peers i).bridges, entry.direction = Direction.name .DirMPubsubToMQTT ∧
    topicToGroup entry.mpubsubTopic net.scope = group

/-- The link takes the datagrams of the group to the socket of the bridge. -/
def Hears (i : ι) (group : GroupAddr) : Prop := net.Joined i group ∨ net.Overhears i group

/-- A goroutine of `startIndefinite`. -/
structure Job where
  out : Resend.Outgoing
  /-- Its `cancel` channel is closed. -/
  cancelled : Bool := false

/-- The bridges' guards and goroutines, and what is on its way. -/
structure State (ι : Type) where
  replay : ι → ReplayGuard
  resending : ι → List Job
  transit : List (Transit ι)

/-- The goroutine of the topic, if any, is told to return. -/
def cancelIndefinite (jobs : List Job) (mpubsubTopic : Bytes) : List Job :=
  jobs.map fun job =>
    if job.out.mpubsubTopic = mpubsubTopic then { job with cancelled := true } else job

/-- The goroutines of a bridge after a handler that has encoded `out`: that of the topic is told to
return, and a new one starts if the message is to be sent indefinitely and `SendTo` succeeds. -/
def keepResending (jobs : List Job) (out : Option Resend.Outgoing) (ok : Bool) : List Job :=
  match out with
  | none => jobs
  | some out =>
    cancelIndefinite jobs out.mpubsubTopic ++ if ok ∧ out.count = -1 then [{ out := out }] else []

/-- A copy of a datagram is on its way to a socket that hears its group. -/
def Copied (out : Resend.Outgoing) (t : Transit ι) : Prop :=
  ∃ j, net.Hears j out.group ∧ t = .datagram j out.pkt

/-- A message is on its way to a subscription that it matches, with its QoS or a lower one. -/
def Subscribed (p : Publish Bytes) (t : Transit ι) : Prop :=
  ∃ j, ∃ entry ∈ (net.peers j).bridges, entry.direction = Direction.name .DirMQTTToMPubsub ∧
    net.Matches entry.mqttTopic p.mqttTopic ∧
      ∃ qos ≤ min p.qos (subQoS (net.peers j).mpubsub.promoteQoS (net.peers j).mqtt.qos),
        t = .message j entry ⟨p.mqttTopic, p.payload, qos⟩

variable [DecidableEq ι]

/-- A bridge takes what has reached it, at the time `now`. What becomes of it is on its way
then. -/
inductive Turn (now : UInt32) : State ι → State ι → Prop where
  | handled {s : State ι} {i : ι} {entry : LoadedEntry} {msg : MqttMessage}
      {before after copies : List (Transit ι)} (nonce : Bytes) (ok : Bool)
      (htransit : s.transit = before ++ .message i entry msg :: after)
      (hcopies : ∀ t ∈ copies, ok = true ∧ ∃ out, net.handle i entry msg now nonce = some out ∧
        net.Copied out t) :
      Turn now s
        { s with
          resending := Function.update s.resending i
            (keepResending (s.resending i) (net.handle i entry msg now nonce) ok)
          transit := before ++ copies ++ after }
  | received {s : State ι} {i : ι} {raw : Bytes} {before after made : List (Transit ι)}
      (htransit : s.transit = before ++ .datagram i raw :: after)
      (hmade : ∀ t ∈ made, ∃ p ∈ (net.receive i (s.replay i) now raw).2, net.Subscribed p t) :
      Turn now s
        { s with
          replay := Function.update s.replay i (net.receive i (s.replay i) now raw).1
          transit := before ++ made ++ after }

/-- A bridge takes its turn, or one of its goroutines resends its datagram or returns. -/
inductive Step : State ι → State ι → Prop where
  | turn {now : UInt32} {s s' : State ι} (h : net.Turn now s s') : Step s s'
  -- Where both the tick and `cancel` are there, `select` may still take the tick.
  | resent {s : State ι} {i : ι} {job : Job} {copies : List (Transit ι)}
      (hjob : job ∈ s.resending i) (hcopies : ∀ t ∈ copies, net.Copied job.out t) :
      Step s { s with transit := s.transit ++ copies }
  | returned {s : State ι} {i : ι} {job : Job} {before after : List Job}
      (hjob : s.resending i = before ++ job :: after) (hcancelled : job.cancelled = true) :
      Step s { s with resending := Function.update s.resending i (before ++ after) }

/-- The bridges before their first datagrams. -/
def start (transit : List (Transit ι)) : State ι where
  replay i := ReplayGuard.new (net.peers i).receiver.replayWindowSeconds 4096
  resending _ := []
  transit := transit

end Network

end Mpubsub.Bridge
