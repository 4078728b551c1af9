import Mpubsub.Lib.Medium
import Mpubsub.Node.Delivery
import Mpubsub.Node.Retransmit

/-!
# A fabric of nodes

Nodes on one link: what a node hands to its socket may reach any node, at any time, any
number of times, or never. A packet that no node has sent comes in as a call `packet` of the
node that receives it. A datagram on the link is the one of a publish of the run
(`exec_published`): the retransmissions are copies, since what a node will send later
(`armed`) is what it has sent.
-/

namespace Mpubsub.Node

open Mpubsub.Lib Mpubsub.Wire
open Mpubsub.Replay (ReplayGuardT)

variable {κ : Type}

/-! ## What a node sends -/

/-- What a timeout hands to the socket. -/
def TimeoutFn.sent : TimeoutFn → Sent
  | .resend datagram group => ⟨datagram, group⟩
  | .indefinite job => job.sent

namespace MulticastPubSub

/-- What the node will send without another publish. -/
def armed (node : MulticastPubSub κ) : List Sent :=
  node.timeouts.map (·.fn.sent) ++ node.indefiniteJobs.map fun job => job.2.sent

/-- What a publish of the node hands to the socket. -/
def outgoing (node : MulticastPubSub κ) (env : PublishEnv) (topic payload : Bytes)
    (encoding : Encoding) : Sent :=
  ⟨node.datagram env topic payload encoding, topicToGroup topic node.scope⟩

section Armed

variable {P : Sent → Prop} {node : MulticastPubSub κ}

theorem forall_armed_iff :
    (∀ s ∈ node.armed, P s) ↔
      (∀ t ∈ node.timeouts, P t.fn.sent) ∧ ∀ job ∈ node.indefiniteJobs, P job.2.sent := by
  simp only [armed, List.forall_mem_append, List.forall_mem_map]

/-- What is armed depends on the timeouts and the jobs alone, and grows with them. -/
theorem forall_armed_mono {node' : MulticastPubSub κ} (h : ∀ s ∈ node.armed, P s)
    (htimeouts : ∀ t ∈ node'.timeouts, t ∈ node.timeouts)
    (hjobs : ∀ job ∈ node'.indefiniteJobs, job ∈ node.indefiniteJobs) :
    ∀ s ∈ node'.armed, P s := by
  rw [forall_armed_iff] at h ⊢
  exact ⟨fun t ht => h.1 t (htimeouts t ht), fun job hjob => h.2 job (hjobs job hjob)⟩

theorem forall_armed_setTimeout (h : ∀ s ∈ node.armed, P s) {fn : TimeoutFn} (hfn : P fn.sent)
    (delay : UInt32) : ∀ s ∈ (node.setTimeout delay fn).armed, P s := by
  rw [forall_armed_iff] at h ⊢
  exact ⟨forall_mem_concat.mpr ⟨h.1, hfn⟩, h.2⟩

theorem forall_armed_setTimeoutId (h : ∀ s ∈ node.armed, P s) {fn : TimeoutFn} (hfn : P fn.sent)
    (id delay : UInt32) : ∀ s ∈ (node.setTimeoutId id delay fn).armed, P s := by
  rw [forall_armed_iff] at h ⊢
  exact ⟨forall_mem_concat.mpr ⟨fun t ht => h.1 t (List.mem_of_mem_filter ht), hfn⟩, h.2⟩

theorem forall_armed_cancelIndefiniteRetransmit (h : ∀ s ∈ node.armed, P s) (topic : Bytes) :
    ∀ s ∈ (node.cancelIndefiniteRetransmit topic).armed, P s := by
  unfold cancelIndefiniteRetransmit
  split
  · exact h
  · exact forall_armed_mono h (fun t ht => List.mem_of_mem_filter ht)
      fun job hjob => List.mem_of_mem_filter hjob

/-- Retransmissions are armed for the datagram that was sent, and for no other. -/
theorem forall_armed_scheduleRetransmits (h : ∀ s ∈ node.armed, P s) {s : Sent} (hs : P s)
    (topic : Bytes) : ∀ s' ∈ (node.scheduleRetransmits topic s.datagram s.group).armed, P s' := by
  have hcancel := forall_armed_cancelIndefiniteRetransmit h topic
  unfold scheduleRetransmits
  generalize node.cancelIndefiniteRetransmit topic = node at hcancel ⊢
  simp only
  split
  · refine forall_armed_setTimeoutId ?_ hs _ _
    rw [forall_armed_iff] at hcancel ⊢
    exact ⟨hcancel.1, forall_mem_concat.mpr ⟨hcancel.2, hs⟩⟩
  · rename_i hcount
    clear hcount
    generalize List.range (node.retransmitCount.toInt.toNat - 1) = is
    induction is generalizing node with
    | nil => exact hcancel
    | cons i is ih =>
      refine ih _ (forall_armed_setTimeout hcancel ?_ _)
      exact hs

theorem armed_sendDatagram (sendOk : Bool) (datagram : Bytes) (group : GroupAddr) :
    (node.sendDatagram sendOk datagram group).1.armed = node.armed := by
  obtain ⟨hjobs, htimeouts⟩ := node.sendDatagram_timers sendOk datagram group
  rw [armed, armed, hjobs, htimeouts]

theorem sent_sendDatagram {sendOk : Bool} {datagram : Bytes} {group : GroupAddr} {s : Sent}
    (h : s ∈ (node.sendDatagram sendOk datagram group).2.1) : s = ⟨datagram, group⟩ := by
  unfold sendDatagram at h
  split at h
  · cases h
  split at h
  · exact List.mem_singleton.mp h
  · exact List.mem_singleton.mp h

theorem forall_armed_publish (h : ∀ s ∈ node.armed, P s) {env : PublishEnv} {topic payload : Bytes}
    {encoding : Encoding}
    (hpublish : payload.length ≤ node.effectiveMax → P (node.outgoing env topic payload encoding)) :
    ∀ s ∈ (node.publish env topic payload encoding).1.armed, P s := by
  unfold publish
  split
  · exact h
  split
  · exact h
  rename_i hsize
  simp only
  split
  · rwa [armed_sendDatagram]
  · refine forall_armed_scheduleRetransmits (s := node.outgoing env topic payload encoding) ?_
      (hpublish (Nat.not_lt.mp hsize)) topic
    rwa [armed_sendDatagram]

theorem fireTimeout_provenance (h : ∀ s ∈ node.armed, P s) (sendOk : Bool) (i : Nat) :
    (∀ s ∈ (node.fireTimeout sendOk i).1.armed, P s) ∧
      ∀ s ∈ (node.fireTimeout sendOk i).2, P s := by
  unfold fireTimeout
  cases ht : node.timeouts[i]? with
  | none => exact ⟨h, fun s hs => by cases hs⟩
  | some t =>
    have hfn : P t.fn.sent := (forall_armed_iff.mp h).1 t (List.mem_of_getElem? ht)
    have hrest : ∀ s ∈ ({ node with timeouts := node.timeouts.eraseIdx i } :
        MulticastPubSub κ).armed, P s :=
      forall_armed_mono h (fun t ht => List.mem_of_mem_eraseIdx ht) fun job hjob => hjob
    simp only
    cases hcase : t.fn with
    | resend datagram group =>
      rw [hcase] at hfn
      simp only
      refine ⟨?_, ?_⟩
      · rwa [armed_sendDatagram]
      · intro s hs
        rw [sent_sendDatagram hs]
        exact hfn
    | indefinite job =>
      rw [hcase] at hfn
      obtain ⟨hjobs, -⟩ := sendDatagram_timers
        { node with timeouts := node.timeouts.eraseIdx i } sendOk job.datagram job.group
      simp only [hjobs]
      cases hnext : node.indefiniteJobs.lookup job.topic with
      | none =>
        refine ⟨?_, ?_⟩
        · rwa [armed_sendDatagram]
        · intro s hs
          rw [sent_sendDatagram hs]
          exact hfn
      | some next =>
        refine ⟨?_, ?_⟩
        · refine forall_armed_setTimeoutId ?_ ?_ _ _
          · rwa [armed_sendDatagram]
          · exact (forall_armed_iff.mp h).2 _ (mem_of_lookup hnext)
        · intro s hs
          rw [sent_sendDatagram hs]
          exact hfn

/-- **Provenance.** A node sends, and arms, what it had armed, and what it publishes. -/
theorem call_provenance (h : ∀ s ∈ node.armed, P s) {c : Call κ}
    (hpublish : ∀ env topic payload encoding, c = .event (.publish env topic payload encoding) →
      payload.length ≤ node.effectiveMax → P (node.outgoing env topic payload encoding)) :
    (∀ s ∈ (node.call c).1.armed, P s) ∧ ∀ s ∈ (node.call c).2.sent, P s := by
  have hnone : ∀ s ∈ ([] : List Sent), P s := fun s hs => by cases hs
  cases c with
  | setRetransmitCount count => exact ⟨h, hnone⟩
  | setRetransmitDelayMs delayMs => exact ⟨h, hnone⟩
  | event e =>
    cases e with
    | subscribe topic cb requireEncryption => exact ⟨h, hnone⟩
    | subscribeTyped topic schemaId cb requireEncryption => exact ⟨h, hnone⟩
    | publish env topic payload encoding =>
      refine ⟨forall_armed_publish h (hpublish env topic payload encoding rfl), ?_⟩
      intro s hs
      obtain ⟨hsize, rfl⟩ := sent_of_publish hs
      exact hpublish env topic payload encoding rfl hsize
    | packet raw clock =>
      obtain ⟨_, _, _, _, heq, -⟩ := node.onPacket_frame raw clock
      refine ⟨?_, hnone⟩
      show ∀ s ∈ (node.onPacket raw clock).1.armed, P s
      rw [heq]
      exact h
    | timeout sendOk i => exact fireTimeout_provenance h sendOk i

end Armed

/-! ## What does not change -/

theorem call_sameConfig (node : MulticastPubSub κ) (c : Call κ) :
    SameConfig (node.call c).1 node := by
  cases c with
  | event e => exact step_sameConfig node e
  | setRetransmitCount count => exact ⟨rfl, rfl, rfl⟩
  | setRetransmitDelayMs delayMs => exact ⟨rfl, rfl, rfl⟩

theorem SameConfig.trans {a b c : MulticastPubSub κ} (h : SameConfig a b) (h' : SameConfig b c) :
    SameConfig a c :=
  ⟨h.scope.trans h'.scope, h.encryptionEnabled.trans h'.encryptionEnabled,
    h.encryptionKeyBytes.trans h'.encryptionKeyBytes⟩

theorem call_wellFormed (node : MulticastPubSub κ) (c : Call κ) (h : WellFormed node) :
    WellFormed (node.call c).1 := by
  cases c with
  | event e => exact step_wellFormed node e h
  | setRetransmitCount count => exact ⟨h.subscriptions, h.replayGuard⟩
  | setRetransmitDelayMs delayMs => exact ⟨h.subscriptions, h.replayGuard⟩

/-- The settings decide the payload limit and what a publish sends. -/
theorem SameConfig.outgoing {a b : MulticastPubSub κ} (h : SameConfig a b) :
    a.effectiveMax = b.effectiveMax ∧ a.outgoing = b.outgoing := by
  obtain ⟨hscope, henabled, hkey⟩ := h
  constructor
  · rw [effectiveMax, effectiveMax, henabled]
  · funext env topic payload encoding
    have hmode : a.encMode = b.encMode := by rw [encMode, encMode, henabled]
    rw [MulticastPubSub.outgoing, MulticastPubSub.outgoing, hscope, datagram, datagram, hmode, hkey]

/-- The settings decide what a datagram carries. -/
theorem SameConfig.receive {a b : MulticastPubSub κ} (h : SameConfig a b) :
    a.receive = b.receive := by
  obtain ⟨-, henabled, hkey⟩ := h
  funext raw
  simp only [MulticastPubSub.receive, henabled, hkey]

/-! ## What the replay guard is asked -/

/-- The question that a call puts to the replay guard. -/
def question (node : MulticastPubSub κ) : Call κ → Option Mpubsub.Replay.Call
  | .event (.packet raw clock) =>
    ((node.receive raw).bind Received.replay).map fun fresh =>
      ⟨clock.getD 0, clock.isSome, fresh.1, fresh.2⟩
  | _ => none

theorem SameConfig.question {a b : MulticastPubSub κ} (h : SameConfig a b) :
    a.question = b.question := by
  funext c
  unfold MulticastPubSub.question
  rw [h.receive]

/-- A packet that makes no question leaves the guard alone. -/
theorem replayGuard_of_no_question {node : MulticastPubSub κ} {c : Call κ}
    (h : node.question c = none) : (node.call c).1.replayGuard = node.replayGuard := by
  cases c with
  | setRetransmitCount count => rfl
  | setRetransmitDelayMs delayMs => rfl
  | event e =>
    cases e with
    | subscribe topic cb requireEncryption => rfl
    | subscribeTyped topic schemaId cb requireEncryption => rfl
    | publish env topic payload encoding =>
      obtain ⟨_, _, _, heq⟩ := node.publish_frame env topic payload encoding
      show (node.publish env topic payload encoding).1.replayGuard = _
      rw [heq]
    | timeout sendOk i =>
      obtain ⟨_, _, heq⟩ := node.fireTimeout_frame sendOk i
      show (node.fireTimeout sendOk i).1.replayGuard = _
      rw [heq]
    | packet raw clock =>
      have h := Option.map_eq_none_iff.mp h
      show (node.onPacket raw clock).1.replayGuard = _
      cases hreceive : node.receive raw with
      | none =>
        obtain ⟨_, _, heq⟩ := onPacket_of_receive_none hreceive clock
        rw [heq]
      | some r =>
        obtain ⟨crc, encoding, payload, replay⟩ := r
        rw [hreceive] at h
        cases replay with
        | none =>
          obtain ⟨_, _, _, heq⟩ := onPacket_of_receive_plain hreceive clock
          rw [heq]
        | some fresh => cases h

/-- A question is answered by the guard, and the packet is dispatched on a yes. -/
theorem call_of_question {node : MulticastPubSub κ} (hon : node.replayGuard.enabled = true)
    {raw : Bytes} {clock : Option UInt32} {q : Mpubsub.Replay.Call}
    (h : node.question (.event (.packet raw clock)) = some q) :
    (node.call (.event (.packet raw clock))).1.replayGuard =
        (node.replayGuard.accept q.now q.nowValid q.timestamp q.nonce).1 ∧
      ∃ crc encoding payload,
        node.receive raw = some ⟨crc, encoding, payload, some (q.timestamp, q.nonce)⟩ ∧
        (node.call (.event (.packet raw clock))).2.invocations =
          if (node.replayGuard.accept q.now q.nowValid q.timestamp q.nonce).2 then
            (deliver crc encoding payload true node.subscriptions).1
          else [] := by
  obtain ⟨fresh, hfresh, rfl⟩ := Option.map_eq_some_iff.mp h
  obtain ⟨r, hreceive, hreplay⟩ := Option.bind_eq_some_iff.mp hfresh
  obtain ⟨crc, encoding, payload, replay⟩ := r
  obtain rfl : replay = some (fresh.1, fresh.2) := hreplay
  obtain ⟨_, _, heq⟩ := onPacket_of_receive_aead hreceive clock
  have hcheck : ∀ ts rnonce, replayCheck node.replayGuard clock ts rnonce =
      node.replayGuard.accept (clock.getD 0) clock.isSome ts rnonce := fun ts rnonce => if_pos hon
  rw [hcheck] at heq
  refine ⟨?_, crc, encoding, payload, hreceive, ?_⟩
  · show (node.onPacket raw clock).1.replayGuard = _
    rw [heq]
  · show (node.onPacket raw clock).2 = _
    rw [heq]

/-- The guard goes through the questions of the run. -/
theorem replayGuard_exec {node : MulticastPubSub κ} (hrange : node.replayGuard.InRange)
    (hon : node.replayGuard.enabled = true) (calls : List (Call κ)) :
    (publisher.exec node calls).replayGuard =
      (ReplayGuardT.machine REPLAY_CAPACITY).exec node.replayGuard
        (calls.filterMap node.question) := by
  induction calls generalizing node with
  | nil => rfl
  | cons c calls ih =>
    have hsame := (call_sameConfig node c).question
    show (publisher.exec (node.call c).1 calls).replayGuard = _
    cases hq : node.question c with
    | none =>
      have hguard := replayGuard_of_no_question hq
      rw [ih (by rwa [hguard]) (by rwa [hguard]), hguard, hsame, List.filterMap_cons_none hq]
    | some q =>
      have hguard : (node.call c).1.replayGuard =
          (node.replayGuard.accept q.now q.nowValid q.timestamp q.nonce).1 := by
        unfold MulticastPubSub.question at hq
        split at hq
        · exact (call_of_question hon hq).1
        · cases hq
      obtain ⟨-, hrange', hwindow⟩ := ReplayGuardT.accept_refines hrange q rfl
      rw [ih (by rwa [hguard]) (by rwa [hguard, ReplayGuardT.enabled, hwindow]), hguard, hsame,
        List.filterMap_cons_some hq]
      rfl

end MulticastPubSub

/-! ## The fabric -/

open MulticastPubSub

/-- Nodes on one link. A datagram arrives with the time that the receiver's clock gives. -/
def fabric : Medium (MulticastPubSub κ) (Call κ) (Output κ) Sent (Option UInt32) where
  machine := publisher
  emitted := Output.sent
  arrival sent clock := .event (.packet sent.datagram clock)

/-- A call of `publish` by the node `publisher`. -/
structure Publication (ι : Type) where
  publisher : ι
  env : PublishEnv
  topic : Bytes
  payload : Bytes
  encoding : Encoding
deriving DecidableEq

variable {ι : Type}

/-- The event of the run. -/
def Publication.event (p : Publication ι) : Medium.Event ι (Call κ) (Option UInt32) :=
  .call p.publisher (.event (.publish p.env p.topic p.payload p.encoding))

/-- What the publication puts on the link, in a fabric that was configured as `start`. -/
def Publication.sent (start : ι → MulticastPubSub κ) (p : Publication ι) : Sent :=
  (start p.publisher).outgoing p.env p.topic p.payload p.encoding

/-- The publication is made in the run, and is not refused for its size. -/
structure Publication.Made (start : ι → MulticastPubSub κ)
    (events : List (Medium.Event ι (Call κ) (Option UInt32))) (p : Publication ι) : Prop where
  mem : p.event ∈ events
  size : p.payload.length ≤ (start p.publisher).effectiveMax

/-- The datagram comes from a publication of the run. -/
def Published (start : ι → MulticastPubSub κ)
    (events : List (Medium.Event ι (Call κ) (Option UInt32))) (s : Sent) : Prop :=
  ∃ p : Publication ι, p.Made start events ∧ s = p.sent start

/-- A node of the fabric: configured as at the start, and what it has armed is published. -/
structure Participant (start : ι → MulticastPubSub κ) (P : Sent → Prop) (i : ι)
    (node : MulticastPubSub κ) : Prop where
  config : SameConfig node (start i)
  wellFormed : WellFormed node
  armed : ∀ s ∈ node.armed, P s

section Run

variable {start : ι → MulticastPubSub κ}

theorem Participant.call {P : Sent → Prop} {i : ι} {node : MulticastPubSub κ}
    (h : Participant start P i node) {c : Call κ}
    (hpublish : ∀ env topic payload encoding, c = .event (.publish env topic payload encoding) →
      payload.length ≤ (start i).effectiveMax → P ((start i).outgoing env topic payload encoding)) :
    Participant start P i (node.call c).1 ∧ ∀ s ∈ (node.call c).2.sent, P s := by
  obtain ⟨hmax, hout⟩ := h.config.outgoing
  obtain ⟨harmed, hsent⟩ := call_provenance (P := P) h.armed (c := c) (by
    rw [hmax, hout]
    exact hpublish)
  exact ⟨⟨(call_sameConfig node c).trans h.config, call_wellFormed node c h.wellFormed, harmed⟩,
    hsent⟩

/-- A call of the run keeps a participant, and puts publications of the run on the link. -/
theorem participant_call {events : List (Medium.Event ι (Call κ) (Option UInt32))} (i : ι) (c : Call κ)
    (hc : .call i c ∈ events) (node : MulticastPubSub κ)
    (hnode : Participant start (Published start events) i node) :
    Participant start (Published start events) i (node.call c).1 ∧
      ∀ s ∈ (node.call c).2.sent, Published start events s := by
  refine hnode.call ?_
  rintro env topic payload encoding rfl hsize
  exact ⟨⟨i, env, topic, payload, encoding⟩, ⟨hc, hsize⟩, rfl⟩

/-- So does an arrival. -/
theorem participant_arrive {events : List (Medium.Event ι (Call κ) (Option UInt32))} (i : ι)
    (node : MulticastPubSub κ) (s : Sent) (clock : Option UInt32)
    (hnode : Participant start (Published start events) i node) (_ : Published start events s) :
    Participant start (Published start events) i
        (node.call (.event (.packet s.datagram clock))).1 ∧
      ∀ s' ∈ (node.call (.event (.packet s.datagram clock))).2.sent,
        Published start events s' := by
  refine hnode.call ?_
  intro env topic payload encoding heq
  cases heq

theorem start_keeps (hfresh : ∀ i, Fresh (start i))
    (events : List (Medium.Event ι (Call κ) (Option UInt32))) :
    Medium.Keeps (Participant start (Published start events)) (Published start events)
      ⟨start, []⟩ := by
  constructor
  · intro i
    refine ⟨⟨rfl, rfl, rfl⟩, fresh_wellFormed (hfresh i), ?_⟩
    rw [MulticastPubSub.armed, (hfresh i).timeouts, (hfresh i).indefiniteJobs]
    exact fun s hs => by cases hs
  · exact fun s hs => by cases hs

variable [DecidableEq ι] (hfresh : ∀ i, Fresh (start i))
  (events : List (Medium.Event ι (Call κ) (Option UInt32)))
include hfresh

/-- Everything on the link, and everything that the nodes will send by themselves, comes from
a publication of the run. -/
theorem exec_published :
    Medium.Keeps (Participant start (Published start events)) (Published start events)
      (fabric.whole.exec ⟨start, []⟩ events) :=
  Medium.exec_provenance participant_call participant_arrive (start_keeps hfresh events)

/-- What a node takes in is a call of the run, or a copy of a publication of the run. -/
theorem inputs_published {i : ι} {c : Call κ} (hc : c ∈ fabric.inputs i ⟨start, []⟩ events) :
    .call i c ∈ events ∨ ∃ p : Publication ι, p.Made start events ∧ ∃ clock,
      c = .event (.packet (p.sent start).datagram clock) := by
  rcases Medium.inputs_provenance participant_call participant_arrive
    (start_keeps hfresh events) hc with hcall | ⟨s, clock, ⟨p, hmade, rfl⟩, rfl⟩
  · exact .inl hcall
  · exact .inr ⟨p, hmade, clock, rfl⟩

end Run

end Mpubsub.Node
