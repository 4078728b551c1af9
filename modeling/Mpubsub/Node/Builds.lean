import Mpubsub.Lib.Ieee754
import Mpubsub.Node.Retransmit

/-!
# The two builds (`multicast_pubsub.cpp`)

The class is written twice: over a socket, and over the raw callbacks of lwip for the
ESP8266. Both builds are machines over the same entries: `setup`, the calls of the
application and of the scheduler, and `loop` with the datagrams that come in as it starts. They
differ in who hands in a datagram (the read loop, or a callback of the stack), in when a group is
joined (at once, or by the first `loop` that finds a network interface) and in what a send
needs. What `loop` ends with is the same, `publish_metrics_`.
-/

namespace Mpubsub.Node

open Mpubsub.Lib Mpubsub.Wire

variable {κ : Type}

/-! ## The diagnostic sensors -/

/-- The counters that have a sensor. -/
inductive Counter where
  | packetsSent
  | packetsReceived
  | verifyOk
  | verifyFailed
deriving DecidableEq

def MulticastPubSub.counter (node : MulticastPubSub κ) : Counter → UInt32
  | .packetsSent => node.packetsSent
  | .packetsReceived => node.packetsReceived
  | .verifyOk => node.verifyOk
  | .verifyFailed => node.verifyFailed

/-- A sensor: whether it was set, and its `last_published_*`. -/
structure Metric where
  sensor : Bool := false
  lastPublished : UInt32 := 0xFFFFFFFF
deriving DecidableEq

/-- `static_cast<float>` of a counter. -/
def toFloat (n : UInt32) : UInt32 := UInt32.ofNat (Ieee754.binary32.ofInt n.toNat)

/-- One statement of `publish_metrics_`. -/
def Metric.publish (m : Metric) (counter : UInt32) : Metric × Option UInt32 :=
  if m.sensor = true ∧ counter ≠ m.lastPublished then
    ({ m with lastPublished := counter }, some (toFloat counter))
  else (m, none)

/-- The four sensors. -/
structure Metrics where
  packetsSent : Metric := {}
  packetsReceived : Metric := {}
  verifyOk : Metric := {}
  verifyFailed : Metric := {}
deriving DecidableEq

def Metrics.metric (ms : Metrics) : Counter → Metric
  | .packetsSent => ms.packetsSent
  | .packetsReceived => ms.packetsReceived
  | .verifyOk => ms.verifyOk
  | .verifyFailed => ms.verifyFailed

/-- `publish_metrics_`: what each sensor publishes. -/
def Metrics.publish (ms : Metrics) (node : MulticastPubSub κ) :
    Metrics × List (Counter × UInt32) :=
  let (sent, sentState) := ms.packetsSent.publish node.packetsSent
  let (received, receivedState) := ms.packetsReceived.publish node.packetsReceived
  let (ok, okState) := ms.verifyOk.publish node.verifyOk
  let (failed, failedState) := ms.verifyFailed.publish node.verifyFailed
  (⟨sent, received, ok, failed⟩,
    (sentState.map (Prod.mk .packetsSent)).toList ++
      (receivedState.map (Prod.mk .packetsReceived)).toList ++
      (okState.map (Prod.mk .verifyOk)).toList ++
      (failedState.map (Prod.mk .verifyFailed)).toList)

/-! ## Entries and effects -/

/-- What lwip gives an ESP8266 while an entry runs: whether `netif_default` is set, and whether
`pbuf_alloc` finds a buffer. -/
structure Lwip where
  netif : Bool := true
  pbuf : Bool := true
deriving DecidableEq

/-- An entry into the component. `setup` comes with what creating and binding the socket gives;
`loop` with the datagrams that come in as it starts, and the time that the clock gives at each
of them; a datagram that lwip hands in between two other entries is left out. -/
inductive Entry (κ : Type) where
  | setup (created bound : Bool)
  | subscribe (topic : Bytes) (cb : κ) (requireEncryption : Bool)
  | subscribeTyped (topic : Bytes) (schemaId : UInt16) (cb : κ) (requireEncryption : Bool)
  | setRetransmitCount (count : Int16)
  | setRetransmitDelayMs (delayMs : UInt32)
  | publish (lwip : Lwip) (env : PublishEnv) (topic payload : Bytes) (encoding : Encoding)
  | timeout (lwip : Lwip) (sendOk : Bool) (i : Nat)
  | loop (lwip : Lwip) (clock : Nat → Option UInt32) (arrivals : List Bytes)

/-- What an entry does to the outside: what `publish` returns, the callbacks, the datagrams
that were sent without an error, and what the sensors publish. -/
structure Effects (κ : Type) where
  result : Option Bool := none
  invocations : List (Invocation κ) := []
  transmitted : List Sent := []
  states : List (Counter × UInt32) := []
deriving DecidableEq

/-- `find_subscription_`. -/
def MulticastPubSub.findSubscription (node : MulticastPubSub κ) (topic : Bytes) :
    Option (Subscription κ) :=
  node.subscriptions.find? fun sub => sub.topic = topic

/-! ## Over a socket -/

/-- The socket build. `groups` are the `IPV6_JOIN_GROUP` calls, `queue` is what the socket has
received and `read` has not returned yet. -/
structure SocketBuild (κ : Type) where
  node : MulticastPubSub κ
  metrics : Metrics := {}
  groups : List GroupAddr := []
  queue : List Bytes := []

/-- The read loop of `loop`, from its `i`-th iteration on: the callbacks, and what is left to
read. -/
def readLoop (node : MulticastPubSub κ) (clock : Nat → Option UInt32) (i : Nat) :
    List Bytes → MulticastPubSub κ × List (Invocation κ) × List Bytes
  | [] => (node, [], [])
  | datagram :: queue =>
    let buf := datagram.take MAX_DATAGRAM
    if buf.length = 0 then (node, [], queue)
    else
      let (node, calls) := node.onPacket buf (clock i)
      let (node, more, queue) := readLoop node clock (i + 1) queue
      (node, calls ++ more, queue)

namespace SocketBuild

/-- The groups that `find_or_create_subscription_` joins. -/
def lateJoins (b : SocketBuild κ) (topic : Bytes) : List GroupAddr :=
  if (b.node.findSubscription topic).isNone ∧ b.node.socket = true then
    [topicToGroup topic b.node.scope]
  else []

def step (b : SocketBuild κ) : Entry κ → SocketBuild κ × Effects κ
  | .setup created bound =>
    let node := { b.node with socket := created }
    if created = true ∧ bound = true then
      ({ b with node := node, groups := b.groups ++ node.subscriptions.map (·.group) }, {})
    else ({ b with node := node }, {})
  | .subscribe topic cb requireEncryption =>
    ({ b with
        node := b.node.subscribe topic cb requireEncryption
        groups := b.groups ++ b.lateJoins topic }, {})
  | .subscribeTyped topic schemaId cb requireEncryption =>
    ({ b with
        node := b.node.subscribeTyped topic schemaId cb requireEncryption
        groups := b.groups ++ b.lateJoins topic }, {})
  | .setRetransmitCount count => ({ b with node := { b.node with retransmitCount := count } }, {})
  | .setRetransmitDelayMs delayMs =>
    ({ b with node := { b.node with retransmitDelayMs := delayMs } }, {})
  | .publish _ env topic payload encoding =>
    let (node, sent, ok) := b.node.publish env topic payload encoding
    ({ b with node := node }, { result := some ok, transmitted := if ok then sent else [] })
  | .timeout _ sendOk i =>
    let (node, sent) := b.node.fireTimeout sendOk i
    ({ b with node := node }, { transmitted := if sendOk then sent else [] })
  | .loop _ clock arrivals =>
    let (node, calls, queue) :=
      if b.node.socket then readLoop b.node clock 0 (b.queue ++ arrivals)
      else (b.node, [], b.queue)
    let (metrics, states) := b.metrics.publish node
    ({ b with node := node, metrics := metrics, queue := queue },
      { invocations := calls, states := states })

def machine : Machine (SocketBuild κ) (Entry κ) (Effects κ) := ⟨step⟩

end SocketBuild

/-! ## Over lwip -/

/-- The ESP8266 build. The `socket` of its node stands for `pcb_`, `joined` are the flags of its
subscriptions, and `groups` the `mld6_joingroup_netif` calls. -/
structure Esp8266Build (κ : Type) where
  node : MulticastPubSub κ
  metrics : Metrics := {}
  joined : List Bool := []
  groups : List GroupAddr := []

namespace Esp8266Build

/-- `send_datagram_`: whether the send succeeded, and what was handed to `udp_sendto_if`. -/
def sendDatagram (node : MulticastPubSub κ) (lwip : Lwip) (sendOk : Bool) (datagram : Bytes)
    (group : GroupAddr) : MulticastPubSub κ × List Sent × Bool :=
  if !node.socket || !lwip.netif then (node, [], false)
  else if !lwip.pbuf then (node, [], false)
  else if !sendOk then (node, [⟨datagram, group⟩], false)
  else ({ node with packetsSent := node.packetsSent + 1 }, [⟨datagram, group⟩], true)

/-- `publish`. -/
def publish (node : MulticastPubSub κ) (lwip : Lwip) (env : PublishEnv) (topic payload : Bytes)
    (encoding : Encoding) : MulticastPubSub κ × List Sent × Bool :=
  if !node.socket then (node, [], false)
  else if payload.length > node.effectiveMax then (node, [], false)
  else if !lwip.netif then (node, [], false)
  else
    let group := topicToGroup topic node.scope
    let datagram := node.datagram env topic payload encoding
    let (node, sent, ok) := sendDatagram node lwip env.sendOk datagram group
    if !ok then (node, sent, false)
    else (node.scheduleRetransmits topic datagram group, sent, true)

/-- A pending timeout runs. -/
def fireTimeout (node : MulticastPubSub κ) (lwip : Lwip) (sendOk : Bool) (i : Nat) :
    MulticastPubSub κ × List Sent × Bool :=
  match node.timeouts[i]? with
  | none => (node, [], false)
  | some t =>
    let node := { node with timeouts := node.timeouts.eraseIdx i }
    match t.fn with
    | .resend datagram group => sendDatagram node lwip sendOk datagram group
    | .indefinite job =>
      let (node, sent, ok) := sendDatagram node lwip sendOk job.datagram job.group
      match node.indefiniteJobs.lookup job.topic with
      | none => (node, sent, ok)
      | some next => (node.setTimeoutId job.rtId job.delay (.indefinite next), sent, ok)

/-- The calls of `recv_trampoline_`, one for each datagram, from the `i`-th on. -/
def recvTrampoline (node : MulticastPubSub κ) (clock : Nat → Option UInt32) (i : Nat) :
    List Bytes → MulticastPubSub κ × List (Invocation κ)
  | [] => (node, [])
  | datagram :: arrivals =>
    let (node, calls) := node.onPacket (datagram.take MAX_DATAGRAM) (clock i)
    let (node, more) := recvTrampoline node clock (i + 1) arrivals
    (node, calls ++ more)

/-- The flag of the record that `find_or_create_subscription_` creates. -/
def lateFlags (b : Esp8266Build κ) (topic : Bytes) : List Bool :=
  if (b.node.findSubscription topic).isNone then [false] else []

/-- The groups that the loop over the subscriptions joins. -/
def joinLoop : List (Subscription κ) → List Bool → List GroupAddr
  | sub :: subs, joined :: flags =>
    if joined then joinLoop subs flags else sub.group :: joinLoop subs flags
  | _, _ => []

def step (b : Esp8266Build κ) : Entry κ → Esp8266Build κ × Effects κ
  | .setup created bound =>
    let node := { b.node with socket := created && bound }
    if created = true ∧ bound = true then
      ({ b with node := node, joined := b.joined.map fun _ => false }, {})
    else ({ b with node := node }, {})
  | .subscribe topic cb requireEncryption =>
    ({ b with
        node := b.node.subscribe topic cb requireEncryption
        joined := b.joined ++ b.lateFlags topic }, {})
  | .subscribeTyped topic schemaId cb requireEncryption =>
    ({ b with
        node := b.node.subscribeTyped topic schemaId cb requireEncryption
        joined := b.joined ++ b.lateFlags topic }, {})
  | .setRetransmitCount count => ({ b with node := { b.node with retransmitCount := count } }, {})
  | .setRetransmitDelayMs delayMs =>
    ({ b with node := { b.node with retransmitDelayMs := delayMs } }, {})
  | .publish lwip env topic payload encoding =>
    let (node, sent, ok) := publish b.node lwip env topic payload encoding
    ({ b with node := node }, { result := some ok, transmitted := if ok then sent else [] })
  | .timeout lwip sendOk i =>
    let (node, sent, ok) := fireTimeout b.node lwip sendOk i
    ({ b with node := node }, { transmitted := if ok then sent else [] })
  | .loop lwip clock arrivals =>
    -- The callback is registered on the pcb; lwip calls it for what has just come in.
    let (node, calls) :=
      if b.node.socket then recvTrampoline b.node clock 0 arrivals else (b.node, [])
    let (joined, groups) :=
      if node.socket && lwip.netif then
        (b.joined.map fun _ => true, joinLoop node.subscriptions b.joined)
      else (b.joined, [])
    let (metrics, states) := b.metrics.publish node
    (⟨node, metrics, joined, b.groups ++ groups⟩, { invocations := calls, states := states })

def machine : Machine (Esp8266Build κ) (Entry κ) (Effects κ) := ⟨step⟩

end Esp8266Build

/-! ## The common parts -/

/-- What a `publish_metrics_` does to one sensor. -/
theorem Metrics.metric_publish (ms : Metrics) (node : MulticastPubSub κ) (c : Counter) :
    (ms.publish node).1.metric c = ((ms.metric c).publish (node.counter c)).1 := by
  cases c <;> rfl

/-- What it publishes for one sensor. -/
theorem Metrics.filter_publish (ms : Metrics) (node : MulticastPubSub κ) (c : Counter) :
    ((ms.publish node).2.filterMap fun state => if state.1 = c then some state.2 else none) =
      ((ms.metric c).publish (node.counter c)).2.toList := by
  have hown (c : Counter) (value : Option UInt32) :
      (value.map (Prod.mk c)).toList.filterMap
        (fun state => if state.1 = c then some state.2 else none) = value.toList := by
    cases value <;> simp
  have hother {c c' : Counter} (h : c' ≠ c) (value : Option UInt32) :
      (value.map (Prod.mk c')).toList.filterMap
        (fun state => if state.1 = c then some state.2 else none) = [] := by
    cases value <;> simp [h]
  simp only [Metrics.publish, List.filterMap_append]
  cases c <;> simp [hown, hother, metric, MulticastPubSub.counter]

namespace MulticastPubSub

theorem subscriptions_onPacket (node : MulticastPubSub κ) (raw : Bytes) (clock : Option UInt32) :
    (node.onPacket raw clock).1.subscriptions = node.subscriptions ∧
      (node.onPacket raw clock).1.socket = node.socket ∧
      (node.onPacket raw clock).1.scope = node.scope := by
  obtain ⟨_, _, _, _, h, -⟩ := node.onPacket_frame raw clock
  rw [h]
  exact ⟨rfl, rfl, rfl⟩

/-- A new subscription brings its group along, another one changes no group. -/
theorem map_group_updateSubscription {update : Subscription κ → Subscription κ}
    (hadds : AddsCallback update) (node : MulticastPubSub κ) (topic : Bytes)
    (requireEncryption : Bool) :
    (updateSubscription topic requireEncryption node.scope update node.subscriptions).map
        (·.group) =
      node.subscriptions.map (·.group) ++
        if (node.findSubscription topic).isNone then [topicToGroup topic node.scope] else [] := by
  have hfind : (node.findSubscription topic).isNone = true ↔
      ∀ sub ∈ node.subscriptions, sub.topic ≠ topic := by
    simp [findSubscription]
  rcases updateSubscription_cases topic requireEncryption node.scope update node.subscriptions with
    ⟨before, sub, after, hsubs, htopic, heq⟩ | ⟨hnone, heq⟩
  · have hsome : ¬(node.findSubscription topic).isNone = true := by
      rw [hfind, hsubs]
      intro hall
      exact hall sub (by simp) htopic
    rw [if_neg hsome, List.append_nil, heq, hsubs]
    simp only [List.map_append, List.map_cons, hadds.group]
    split <;> rfl
  · rw [if_pos (hfind.mpr hnone), heq, List.map_append, List.map_singleton, hadds.group]

end MulticastPubSub

end Mpubsub.Node
