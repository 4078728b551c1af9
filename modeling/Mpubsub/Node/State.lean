import Mpubsub.Replay.Cpp
import Mpubsub.Wire.Topic
import Mpubsub.Wire.Format

/-!
# The node's state (`multicast_pubsub.h`)

`MulticastPubSub` as a record, and its two entry points for subscribers. A
callback is known by an identity `κ`; what a step does to the outside is
returned beside the next state, as the invocations it made and the datagrams it
handed to the socket. Timers are the pending `set_timeout` calls of the
component, with the closures as data.

The model is the socket-based build; the ESP8266 build differs in the calls that
reach the network stack.
-/

namespace Mpubsub.Node

open Mpubsub.Lib Mpubsub.Wire
open Mpubsub.Replay (ReplayGuardT)

variable {κ : Type}

/-- `TypedCallback`. -/
structure TypedCallback (κ : Type) where
  schemaId : UInt16
  callback : κ
deriving DecidableEq

/-- `Subscription`. -/
structure Subscription (κ : Type) where
  topic : Bytes
  crc : UInt32
  group : GroupAddr
  rawCallbacks : List κ := []
  typedCallbacks : List (TypedCallback κ) := []
  requireEncryption : Bool := false
deriving DecidableEq

/-- The variables captured by the self-rescheduling closure of an indefinite
retransmit chain. -/
structure IndefiniteJob where
  datagram : Bytes
  group : GroupAddr
  topic : Bytes
  delay : UInt32
  rtId : UInt32
deriving DecidableEq

/-- What a pending timeout will run: one resend, or one link of an indefinite
chain. -/
inductive TimeoutFn where
  | resend (datagram : Bytes) (group : GroupAddr)
  | indefinite (job : IndefiniteJob)
deriving DecidableEq

/-- A pending `set_timeout`, with its numeric id if it was given one. -/
structure Timeout where
  id : Option UInt32
  delay : UInt32
  fn : TimeoutFn
deriving DecidableEq

/-- The capacity of `ReplayGuard`. -/
abbrev REPLAY_CAPACITY : Nat := 64

instance instNeZeroReplayCapacity : NeZero REPLAY_CAPACITY := ⟨by decide⟩

/-- `MulticastPubSub`. `socket` tells whether `socket_` is set, `timeouts` are
the component's pending timeouts. -/
structure MulticastPubSub (κ : Type) where
  scope : Scope := .LINK_LOCAL
  retransmitCount : Int16 := 1
  retransmitDelayMs : UInt32 := 100
  encryptionEnabled : Bool := false
  encryptionKeyBytes : Key := Vector.replicate 32 0
  replayGuard : ReplayGuardT REPLAY_CAPACITY := ReplayGuardT.init REPLAY_CAPACITY 0
  socket : Bool := false
  subscriptions : List (Subscription κ) := []
  packetsSent : UInt32 := 0
  packetsReceived : UInt32 := 0
  verifyOk : UInt32 := 0
  verifyFailed : UInt32 := 0
  indefiniteJobs : List (Bytes × IndefiniteJob) := []
  timeouts : List Timeout := []
deriving DecidableEq

/-- A callback of `topic`'s subscription was called with `body`. -/
structure Invocation (κ : Type) where
  topic : Bytes
  callback : κ
  body : Bytes
deriving DecidableEq

/-- A datagram handed to the socket, and where it was sent. -/
structure Sent where
  datagram : Bytes
  group : GroupAddr
deriving DecidableEq

namespace MulticastPubSub

/-- `set_encryption_key`. -/
def setEncryptionKey (node : MulticastPubSub κ) (key : Bytes) : MulticastPubSub κ :=
  if key.length = 32 then
    { node with
      encryptionEnabled := true
      encryptionKeyBytes := Vector.ofFn fun i => key.getD i 0 }
  else { node with encryptionEnabled := false }

/-- `set_replay_window`. -/
def setReplayWindow (node : MulticastPubSub κ) (windowSeconds : UInt32) : MulticastPubSub κ :=
  { node with replayGuard := { node.replayGuard with window := windowSeconds } }

/-! ## Subscribing -/

/-- `find_or_create_subscription_`, and `update` applied to the record it returns. -/
def updateSubscription (topic : Bytes) (requireEncryption : Bool) (scope : Scope)
    (update : Subscription κ → Subscription κ) : List (Subscription κ) → List (Subscription κ)
  | [] =>
    [update
      { topic := topic
        crc := topicCrc32 topic
        group := topicToGroup topic scope
        requireEncryption := requireEncryption }]
  | sub :: subs =>
    if sub.topic = topic then
      update (if requireEncryption then { sub with requireEncryption := true } else sub) :: subs
    else sub :: updateSubscription topic requireEncryption scope update subs

/-- `subscribe`. -/
def subscribe (node : MulticastPubSub κ) (topic : Bytes) (cb : κ) (requireEncryption : Bool) :
    MulticastPubSub κ :=
  { node with
    subscriptions := updateSubscription topic requireEncryption node.scope
      (fun sub => { sub with rawCallbacks := sub.rawCallbacks ++ [cb] }) node.subscriptions }

/-- `subscribe_typed`, for a message type with the given `SCHEMA_ID`. -/
def subscribeTyped (node : MulticastPubSub κ) (topic : Bytes) (schemaId : UInt16) (cb : κ)
    (requireEncryption : Bool) : MulticastPubSub κ :=
  { node with
    subscriptions := updateSubscription topic requireEncryption node.scope
      (fun sub => { sub with typedCallbacks := sub.typedCallbacks ++ [⟨schemaId, cb⟩] })
      node.subscriptions }

/-- The groups the node has joined. -/
def joinedGroups (node : MulticastPubSub κ) : List GroupAddr := node.subscriptions.map (·.group)

end MulticastPubSub

end Mpubsub.Node
