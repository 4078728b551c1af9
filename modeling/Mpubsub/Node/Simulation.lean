import Mpubsub.Node.Builds

/-!
# The builds step by step

An ESP8266 does what the socket build does on a network where `sendto` fails exactly when one of
its own three steps fails: the interface, the buffer, the send. The relation between the two is
`Agrees`: one node, the same sensors, nothing left to read, and of the groups of the socket
build those joined whose flags are set. `step_agrees` says that every entry keeps it.
-/

namespace Mpubsub.Node

open Mpubsub.Lib Mpubsub.Wire
open MulticastPubSub (AddsCallback addsCallback_raw addsCallback_typed)

variable {κ : Type}

/-- The entry as the socket build sees it. -/
def Entry.onSocket : Entry κ → Entry κ
  | .publish lwip env topic payload encoding =>
    .publish lwip { env with sendOk := lwip.netif && lwip.pbuf && env.sendOk } topic payload encoding
  | .timeout lwip sendOk i => .timeout lwip (lwip.netif && lwip.pbuf && sendOk) i
  | entry => entry

/-- `setup` is called before there is a socket and does not fail halfway, and no datagram is
empty. -/
def Esp8266Build.Admits (b : Esp8266Build κ) : Entry κ → Prop
  | .setup created bound => b.node.socket = false ∧ (created = true → bound = true)
  | .loop _ _ arrivals => ∀ datagram ∈ arrivals, datagram ≠ []
  | _ => True

/-! ## Sending -/

/-- A send of the ESP8266 is the send over a socket, or it fails before lwip gets the datagram. -/
theorem sendDatagram_agrees (node : MulticastPubSub κ) (lwip : Lwip) (sendOk : Bool)
    (datagram : Bytes) (group : GroupAddr) :
    Esp8266Build.sendDatagram node lwip sendOk datagram group =
        node.sendDatagram (lwip.netif && lwip.pbuf && sendOk) datagram group ∨
      (lwip.netif && lwip.pbuf && sendOk) = false ∧
        Esp8266Build.sendDatagram node lwip sendOk datagram group = (node, [], false) ∧
        node.sendDatagram (lwip.netif && lwip.pbuf && sendOk) datagram group =
          (node, [⟨datagram, group⟩], false) := by
  obtain ⟨netif, pbuf⟩ := lwip
  unfold Esp8266Build.sendDatagram MulticastPubSub.sendDatagram
  cases node.socket <;> cases netif <;> cases pbuf <;> cases sendOk <;> simp

theorem publish_agrees (node : MulticastPubSub κ) (lwip : Lwip) (env : PublishEnv)
    (topic payload : Bytes) (encoding : Encoding) {env' : PublishEnv}
    (henv : env' = { env with sendOk := lwip.netif && lwip.pbuf && env.sendOk }) :
    Esp8266Build.publish node lwip env topic payload encoding =
        node.publish env' topic payload encoding ∨
      Esp8266Build.publish node lwip env topic payload encoding = (node, [], false) ∧
        ∃ sent, node.publish env' topic payload encoding = (node, sent, false) := by
  -- The datagram does not depend on how its send will go.
  have hdatagram : node.datagram env topic payload encoding =
      node.datagram env' topic payload encoding := by
    rw [henv]
    rfl
  have hsendOk : env'.sendOk = (lwip.netif && lwip.pbuf && env.sendOk) := by rw [henv]
  unfold Esp8266Build.publish MulticastPubSub.publish
  rw [hdatagram, hsendOk]
  cases hsocket : node.socket with
  | false => simp
  | true =>
    by_cases hsize : payload.length > node.effectiveMax
    · simp [hsize]
    · cases hnetif : lwip.netif with
      | false => simp [hsize, MulticastPubSub.sendDatagram, hsocket]
      | true =>
        have hsend := sendDatagram_agrees node lwip env.sendOk
          (node.datagram env' topic payload encoding) (topicToGroup topic node.scope)
        rw [hnetif, Bool.true_and] at hsend
        simp only [Bool.true_and, hsize, if_false, Bool.not_true, Bool.false_eq_true]
        rcases hsend with hsame | ⟨-, hesp, hfails⟩
        · simp [hsame]
        · simp [hesp, hfails]

theorem fireTimeout_agrees (node : MulticastPubSub κ) (lwip : Lwip) (sendOk : Bool) (i : Nat) :
    (Esp8266Build.fireTimeout node lwip sendOk i).1 =
        (node.fireTimeout (lwip.netif && lwip.pbuf && sendOk) i).1 ∧
      (if (Esp8266Build.fireTimeout node lwip sendOk i).2.2 then
          (Esp8266Build.fireTimeout node lwip sendOk i).2.1
        else []) =
        if (lwip.netif && lwip.pbuf && sendOk) = true then
          (node.fireTimeout (lwip.netif && lwip.pbuf && sendOk) i).2
        else [] := by
  -- What a send over the socket transmits.
  have hresult (node : MulticastPubSub κ) (ok : Bool) (datagram : Bytes) (group : GroupAddr) :
      (if (node.sendDatagram ok datagram group).2.2 then
          (node.sendDatagram ok datagram group).2.1
        else []) = if ok = true then (node.sendDatagram ok datagram group).2.1 else [] := by
    unfold MulticastPubSub.sendDatagram
    cases node.socket <;> cases ok <;> simp
  unfold Esp8266Build.fireTimeout MulticastPubSub.fireTimeout
  cases node.timeouts[i]? with
  | none => simp
  | some t =>
    obtain ⟨fired, hfired⟩ : ∃ fired, fired =
      { node with timeouts := node.timeouts.eraseIdx i } := ⟨_, rfl⟩
    simp only [← hfired]
    cases t.fn with
    | resend datagram group =>
      simp only
      rcases sendDatagram_agrees fired lwip sendOk datagram group with hsame | ⟨hok, hesp, hfails⟩
      · rw [hsame]
        exact ⟨rfl, hresult ..⟩
      · rw [hesp, hfails, hok]
        exact ⟨rfl, rfl⟩
    | indefinite job =>
      simp only
      rcases sendDatagram_agrees fired lwip sendOk job.datagram job.group with
        hsame | ⟨hok, hesp, hfails⟩
      · rw [hsame]
        cases (fired.sendDatagram (lwip.netif && lwip.pbuf && sendOk) job.datagram
          job.group).1.indefiniteJobs.lookup job.topic with
        | none => exact ⟨rfl, hresult ..⟩
        | some next => exact ⟨rfl, hresult ..⟩
      · rw [hesp, hfails, hok]
        simp only
        cases fired.indefiniteJobs.lookup job.topic with
        | none => exact ⟨rfl, rfl⟩
        | some next => exact ⟨rfl, rfl⟩

/-! ## Receiving -/

/-- Without an empty datagram, the read loop takes in what the callback is given. -/
theorem readLoop_eq_recvTrampoline {arrivals : List Bytes} (node : MulticastPubSub κ)
    (clock : Nat → Option UInt32) (i : Nat) (h : ∀ datagram ∈ arrivals, datagram ≠ []) :
    readLoop node clock i arrivals =
      ((Esp8266Build.recvTrampoline node clock i arrivals).1,
        (Esp8266Build.recvTrampoline node clock i arrivals).2, []) := by
  induction arrivals generalizing node i with
  | nil => rfl
  | cons datagram arrivals ih =>
    obtain ⟨hhead, hrest⟩ := List.forall_mem_cons.mp h
    have hlength : ¬(datagram.take MAX_DATAGRAM).length = 0 := by
      simp [hhead, MAX_DATAGRAM]
    rw [readLoop, Esp8266Build.recvTrampoline]
    simp only [if_neg hlength, ih _ _ hrest]

/-- The read loop leaves the subscriptions and the socket alone. -/
theorem readLoop_frame (node : MulticastPubSub κ) (clock : Nat → Option UInt32) (i : Nat)
    (queue : List Bytes) :
    (readLoop node clock i queue).1.subscriptions = node.subscriptions ∧
      (readLoop node clock i queue).1.socket = node.socket := by
  induction queue generalizing node i with
  | nil => exact ⟨rfl, rfl⟩
  | cons datagram queue ih =>
    obtain ⟨hsubs, hsocket, -⟩ := node.subscriptions_onPacket (datagram.take MAX_DATAGRAM) (clock i)
    rw [readLoop]
    simp only
    split
    · exact ⟨rfl, rfl⟩
    · rw [(ih _ _).1, (ih _ _).2, hsubs, hsocket]
      exact ⟨rfl, rfl⟩

theorem recvTrampoline_frame (node : MulticastPubSub κ) (clock : Nat → Option UInt32) (i : Nat)
    (arrivals : List Bytes) :
    (Esp8266Build.recvTrampoline node clock i arrivals).1.subscriptions = node.subscriptions ∧
      (Esp8266Build.recvTrampoline node clock i arrivals).1.socket = node.socket := by
  induction arrivals generalizing node i with
  | nil => exact ⟨rfl, rfl⟩
  | cons datagram arrivals ih =>
    obtain ⟨hsubs, hsocket, -⟩ := node.subscriptions_onPacket (datagram.take MAX_DATAGRAM) (clock i)
    rw [Esp8266Build.recvTrampoline]
    simp only
    rw [(ih _ _).1, (ih _ _).2, hsubs, hsocket]
    exact ⟨rfl, rfl⟩

/-! ## Groups -/

/-- The flags of the subscriptions, where `rest` are the groups that are still to be joined. -/
def joinFlags (groups rest : List GroupAddr) : List Bool :=
  groups.map (fun _ => true) ++ rest.map fun _ => false

/-- The loop over the subscriptions joins what is still to be joined. -/
theorem joinLoop_eq {subs : List (Subscription κ)} {groups rest : List GroupAddr}
    (h : subs.map (·.group) = groups ++ rest) :
    Esp8266Build.joinLoop subs (joinFlags groups rest) = rest := by
  induction groups generalizing subs with
  | nil =>
    obtain rfl : rest = subs.map (·.group) := h.symm
    simp only [joinFlags, List.map_nil, List.nil_append]
    clear h
    induction subs with
    | nil => rfl
    | cons sub subs ih =>
      simp only [List.map_cons, Esp8266Build.joinLoop, Bool.false_eq_true, if_false, ih]
  | cons group groups ih =>
    cases subs with
    | nil => simp at h
    | cons sub subs =>
      rw [List.map_cons, List.cons_append, List.cons.injEq] at h
      exact ih h.2

/-- The builds have the same node and sensors, the socket build has joined the groups of all
subscriptions, and the ESP8266 those whose flags are set. -/
structure Agrees (e : Esp8266Build κ) (s : SocketBuild κ) : Prop where
  node : e.node = s.node
  metrics : e.metrics = s.metrics
  queue : s.queue = []
  joined : ∃ rest, s.node.subscriptions.map (·.group) = e.groups ++ rest ∧
    e.joined = joinFlags e.groups rest
  closed : s.node.socket = false → e.groups = [] ∧ s.groups = []
  opened : s.node.socket = true → s.groups = s.node.subscriptions.map (·.group)

/-- The groups of the ESP8266 are the first of those of the socket build. -/
theorem Agrees.groups_prefix {e : Esp8266Build κ} {s : SocketBuild κ} (h : Agrees e s) :
    e.groups <+: s.groups := by
  cases hsocket : s.node.socket with
  | false =>
    rw [(h.closed hsocket).1]
    exact List.nil_prefix
  | true =>
    obtain ⟨rest, hrest, -⟩ := h.joined
    rw [h.opened hsocket, hrest]
    exact List.prefix_append _ _

/-- A subscription keeps the agreement: a new one is joined at once on the socket, and flagged
on the ESP8266. -/
theorem Agrees.subscribe {e : Esp8266Build κ} {s : SocketBuild κ} (h : Agrees e s) (topic : Bytes)
    (requireEncryption : Bool) {update : Subscription κ → Subscription κ}
    (hadds : AddsCallback update) :
    Agrees
      { e with
        node := { e.node with
          subscriptions := MulticastPubSub.updateSubscription topic requireEncryption e.node.scope
            update e.node.subscriptions }
        joined := e.joined ++ e.lateFlags topic }
      { s with
        node := { s.node with
          subscriptions := MulticastPubSub.updateSubscription topic requireEncryption s.node.scope
            update s.node.subscriptions }
        groups := s.groups ++ s.lateJoins topic } := by
  obtain ⟨rest, hrest, hflags⟩ := h.joined
  have hgroups := s.node.map_group_updateSubscription hadds topic requireEncryption
  constructor
  · simp only [h.node]
  · exact h.metrics
  · exact h.queue
  · refine ⟨rest ++ if (s.node.findSubscription topic).isNone then
      [topicToGroup topic s.node.scope] else [], ?_, ?_⟩
    · simp only [hgroups, hrest, List.append_assoc]
    · simp only [hflags, joinFlags, Esp8266Build.lateFlags, h.node, List.map_append,
        List.append_assoc]
      split <;> rfl
  · intro hsocket
    have hclosed := h.closed hsocket
    have hnone : s.lateJoins topic = [] := by
      simp only at hsocket
      simp [SocketBuild.lateJoins, hsocket]
    exact ⟨hclosed.1, by simp only [hclosed.2, hnone, List.append_nil]⟩
  · intro hsocket
    simp only at hsocket
    simp only [hgroups, h.opened hsocket, SocketBuild.lateJoins, hsocket, and_true]

/-- An entry that leaves the subscriptions and the socket alone. -/
theorem Agrees.withNode {e : Esp8266Build κ} {s : SocketBuild κ} (h : Agrees e s)
    {node : MulticastPubSub κ} (metrics : Metrics)
    (hsubs : node.subscriptions = s.node.subscriptions) (hsocket : node.socket = s.node.socket) :
    Agrees { e with node := node, metrics := metrics }
      { s with node := node, metrics := metrics } :=
  ⟨rfl, rfl, h.queue, by simpa only [hsubs] using h.joined,
    by simpa only [hsocket] using h.closed, by simpa only [hsubs, hsocket] using h.opened⟩

/-- `setup` gives both builds a socket or none, and the socket build the groups so far. -/
theorem Agrees.setup {e : Esp8266Build κ} {s : SocketBuild κ} (h : Agrees e s)
    (hclosed : s.node.socket = false) (created : Bool) :
    Agrees (e.step (.setup created created)).1 (s.step (.setup created created)).1 := by
  obtain ⟨rest, hrest, hflags⟩ := h.joined
  obtain ⟨hgroups, hnone⟩ := h.closed hclosed
  rw [hgroups, List.nil_append] at hrest
  have hreset : e.joined.map (fun _ => false) = e.joined := by
    simp [hflags, hgroups, joinFlags]
  cases created with
  | false =>
    refine ⟨?_, h.metrics, h.queue, h.joined, fun _ => ⟨hgroups, hnone⟩, nofun⟩
    simp [Esp8266Build.step, SocketBuild.step, h.node]
  | true =>
    refine ⟨?_, h.metrics, h.queue, ?_, nofun, fun _ => ?_⟩
    · simp [Esp8266Build.step, SocketBuild.step, h.node]
    · simp only [Esp8266Build.step, SocketBuild.step, hreset]
      exact h.joined
    · simp [SocketBuild.step, hnone]

/-- `loop`: the callback of lwip takes what the read loop reads, and the groups that are still to
be joined are joined if there is an interface. -/
theorem Agrees.loop {e : Esp8266Build κ} {s : SocketBuild κ} (h : Agrees e s) (lwip : Lwip)
    (clock : Nat → Option UInt32) {arrivals : List Bytes}
    (harrivals : ∀ datagram ∈ arrivals, datagram ≠ []) :
    Agrees (e.step (.loop lwip clock arrivals)).1 (s.step (.loop lwip clock arrivals)).1 ∧
      (e.step (.loop lwip clock arrivals)).2 = (s.step (.loop lwip clock arrivals)).2 := by
  obtain ⟨rest, hrest, hflags⟩ := h.joined
  simp only [Esp8266Build.step, SocketBuild.step, h.node, h.metrics, h.queue, List.nil_append]
  cases hsocket : s.node.socket with
  | false =>
    simp only [Bool.false_eq_true, if_false, hsocket, Bool.false_and, List.append_nil]
    have hsame := h.withNode (s.metrics.publish s.node).1 rfl rfl
    rw [h.queue] at hsame
    exact ⟨hsame, trivial⟩
  | true =>
    obtain ⟨hsubs, hopen⟩ := recvTrampoline_frame s.node clock 0 arrivals
    rw [hsocket] at hopen
    simp only [if_true, readLoop_eq_recvTrampoline s.node clock 0 harrivals, hopen, Bool.true_and]
    refine ⟨⟨rfl, rfl, rfl, ?_, ?_, ?_⟩, trivial⟩
    · simp only [hsubs]
      cases lwip.netif with
      | false => exact ⟨rest, by simpa using hrest, by simpa using hflags⟩
      | true =>
        have hjoins := joinLoop_eq hrest
        rw [← hflags] at hjoins
        simp only [if_true, hjoins]
        exact ⟨[], by simpa using hrest, by simp [hflags, joinFlags]⟩
    · simp only [hopen]
      exact nofun
    · simp only [hsubs]
      exact fun _ => h.opened hsocket

/-- **The step.** An admissible entry has the same effects on both builds. -/
theorem step_agrees (e : Esp8266Build κ) (s : SocketBuild κ) (entry : Entry κ) (h : Agrees e s)
    (hadmits : e.Admits entry) :
    Agrees (e.step entry).1 (s.step entry.onSocket).1 ∧
      (e.step entry).2 = (s.step entry.onSocket).2 := by
  have hnode := h.node
  have hmetrics := h.metrics
  cases entry with
  | setup created bound =>
    obtain ⟨hclosed, hbound⟩ := hadmits
    rw [hnode] at hclosed
    cases created with
    | false => exact ⟨h.setup hclosed false, rfl⟩
    | true =>
      obtain rfl : bound = true := hbound rfl
      exact ⟨h.setup hclosed true, rfl⟩
  | subscribe topic cb requireEncryption =>
    exact ⟨h.subscribe topic requireEncryption (addsCallback_raw cb), rfl⟩
  | subscribeTyped topic schemaId cb requireEncryption =>
    exact ⟨h.subscribe topic requireEncryption (addsCallback_typed ⟨schemaId, cb⟩), rfl⟩
  | setRetransmitCount count =>
    simp only [Esp8266Build.step, SocketBuild.step, Entry.onSocket, hnode]
    exact ⟨hmetrics ▸ h.withNode e.metrics rfl rfl, trivial⟩
  | setRetransmitDelayMs delayMs =>
    simp only [Esp8266Build.step, SocketBuild.step, Entry.onSocket, hnode]
    exact ⟨hmetrics ▸ h.withNode e.metrics rfl rfl, trivial⟩
  | publish lwip env topic payload encoding =>
    obtain ⟨env', henv⟩ : ∃ env' : PublishEnv,
      env' = { env with sendOk := lwip.netif && lwip.pbuf && env.sendOk } := ⟨_, rfl⟩
    obtain ⟨_, _, _, hframe⟩ := s.node.publish_frame env' topic payload encoding
    have hsubs : (s.node.publish env' topic payload encoding).1.subscriptions =
        s.node.subscriptions := by rw [hframe]
    have hsocket : (s.node.publish env' topic payload encoding).1.socket = s.node.socket := by
      rw [hframe]
    simp only [Esp8266Build.step, SocketBuild.step, Entry.onSocket, hnode, ← henv]
    rcases publish_agrees s.node lwip env topic payload encoding henv with
      hsame | ⟨hesp, sent, hfails⟩
    · rw [hsame]
      exact ⟨hmetrics ▸ h.withNode e.metrics hsubs hsocket, rfl⟩
    · rw [hesp, hfails]
      exact ⟨hmetrics ▸ h.withNode e.metrics rfl rfl, rfl⟩
  | timeout lwip sendOk i =>
    obtain ⟨hfired, htransmitted⟩ := fireTimeout_agrees s.node lwip sendOk i
    obtain ⟨_, _, hframe⟩ := s.node.fireTimeout_frame (lwip.netif && lwip.pbuf && sendOk) i
    have hsubs : (s.node.fireTimeout (lwip.netif && lwip.pbuf && sendOk) i).1.subscriptions =
        s.node.subscriptions := by rw [hframe]
    have hsocket : (s.node.fireTimeout (lwip.netif && lwip.pbuf && sendOk) i).1.socket =
        s.node.socket := by rw [hframe]
    simp only [Esp8266Build.step, SocketBuild.step, Entry.onSocket, hnode, hfired, htransmitted]
    exact ⟨hmetrics ▸ h.withNode e.metrics hsubs hsocket, trivial⟩
  | loop lwip clock arrivals => exact h.loop lwip clock hadmits

/-- A `loop` with a network interface joins what is still to be joined. -/
theorem Agrees.groups_loop {e : Esp8266Build κ} {s : SocketBuild κ} (h : Agrees e s) {lwip : Lwip}
    (hnetif : lwip.netif = true) (clock : Nat → Option UInt32) (arrivals : List Bytes) :
    (e.step (.loop lwip clock arrivals)).1.groups = s.groups := by
  obtain ⟨rest, hrest, hflags⟩ := h.joined
  simp only [Esp8266Build.step, h.node, hnetif, Bool.and_true]
  cases hsocket : s.node.socket with
  | false =>
    obtain ⟨hgroups, hnone⟩ := h.closed hsocket
    simp [hsocket, hgroups, hnone]
  | true =>
    obtain ⟨hsubs, hopen⟩ := recvTrampoline_frame s.node clock 0 arrivals
    simp only [if_true, hopen, hsocket, hsubs, hflags, joinLoop_eq hrest]
    rw [h.opened hsocket, hrest]

/-! ## Where binding fails -/

/-- An entry that does not set the component up again. -/
def Entry.Later : Entry κ → Prop
  | .setup _ _ => False
  | _ => True

/-- Without a pcb, nothing is sent or received, and there will be no pcb. -/
theorem Esp8266Build.closed_step {e : Esp8266Build κ} (hsocket : e.node.socket = false)
    {entry : Entry κ} (hlater : entry.Later) :
    (e.step entry).1.node.socket = false ∧ (e.step entry).2.transmitted = [] ∧
      (e.step entry).2.invocations = [] ∧ (e.step entry).2.result ≠ some true := by
  cases entry with
  | setup created bound => exact hlater.elim
  | subscribe topic cb requireEncryption => exact ⟨hsocket, rfl, rfl, nofun⟩
  | subscribeTyped topic schemaId cb requireEncryption => exact ⟨hsocket, rfl, rfl, nofun⟩
  | setRetransmitCount count => exact ⟨hsocket, rfl, rfl, nofun⟩
  | setRetransmitDelayMs delayMs => exact ⟨hsocket, rfl, rfl, nofun⟩
  | publish lwip env topic payload encoding => simp [step, publish, hsocket]
  | timeout lwip sendOk i =>
    simp only [step, fireTimeout, sendDatagram, hsocket]
    cases e.node.timeouts[i]? with
    | none => simp [hsocket]
    | some t =>
      cases hfn : t.fn with
      | resend datagram group => simp [hfn]
      | indefinite job =>
        cases hnext : e.node.indefiniteJobs.lookup job.topic with
        | none => simp [hfn, hnext]
        | some next => simp [hfn, hnext, MulticastPubSub.setTimeoutId]
  | loop lwip clock arrivals => simp [step, hsocket]

/-- No entry but `setup` opens or closes the socket. -/
theorem SocketBuild.socket_step (b : SocketBuild κ) {entry : Entry κ} (hlater : entry.Later) :
    (b.step entry).1.node.socket = b.node.socket := by
  cases entry with
  | setup created bound => exact hlater.elim
  | subscribe topic cb requireEncryption => rfl
  | subscribeTyped topic schemaId cb requireEncryption => rfl
  | setRetransmitCount count => rfl
  | setRetransmitDelayMs delayMs => rfl
  | publish lwip env topic payload encoding =>
    obtain ⟨_, _, _, h⟩ := b.node.publish_frame env topic payload encoding
    show (b.node.publish env topic payload encoding).1.socket = _
    rw [h]
  | timeout lwip sendOk i =>
    obtain ⟨_, _, h⟩ := b.node.fireTimeout_frame sendOk i
    show (b.node.fireTimeout sendOk i).1.socket = _
    rw [h]
  | loop lwip clock arrivals =>
    simp only [step]
    split
    · exact (readLoop_frame b.node clock 0 (b.queue ++ arrivals)).2
    · rfl

end Mpubsub.Node
