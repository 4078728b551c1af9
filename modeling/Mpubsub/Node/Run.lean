import Mpubsub.Lib.Lists
import Mpubsub.Lib.Machine
import Mpubsub.Node.Receive

/-!
# Runs of a node

The node as a machine over the calls that reach it: subscriptions, publishes,
received datagrams and timers, in any order. Two things hold of every reachable
node: its record of subscriptions is well formed (`Reachable.wellFormed`: one
record for each topic, addressed by that topic, with a callback), and it is
still configured as it was at the start (`exec_sameConfig`).
-/

namespace Mpubsub.Node

open Mpubsub.Lib Mpubsub.Wire
open Mpubsub.Replay (ReplayGuardT)

variable {κ : Type}

/-- A call into the node. A datagram comes with the time that the clock gives
while it is handled. -/
inductive Event (κ : Type) where
  | subscribe (topic : Bytes) (cb : κ) (requireEncryption : Bool)
  | subscribeTyped (topic : Bytes) (schemaId : UInt16) (cb : κ) (requireEncryption : Bool)
  | publish (env : PublishEnv) (topic payload : Bytes) (encoding : Encoding)
  | packet (raw : Bytes) (clock : Option UInt32)
  | timeout (sendOk : Bool) (i : Nat)
deriving DecidableEq

/-- What a call does to the outside. -/
structure Output (κ : Type) where
  invocations : List (Invocation κ) := []
  sent : List Sent := []
deriving DecidableEq

namespace MulticastPubSub

def step (node : MulticastPubSub κ) : Event κ → MulticastPubSub κ × Output κ
  | .subscribe topic cb requireEncryption => (node.subscribe topic cb requireEncryption, {})
  | .subscribeTyped topic schemaId cb requireEncryption =>
    (node.subscribeTyped topic schemaId cb requireEncryption, {})
  | .publish env topic payload encoding =>
    let (node, sent, _) := node.publish env topic payload encoding
    (node, { sent := sent })
  | .packet raw clock =>
    let (node, invocations) := node.onPacket raw clock
    (node, { invocations := invocations })
  | .timeout sendOk i =>
    let (node, sent) := node.fireTimeout sendOk i
    (node, { sent := sent })

def machine : Machine (MulticastPubSub κ) (Event κ) (Output κ) := ⟨step⟩

/-- A node that has been configured and has not run yet. -/
structure Fresh (node : MulticastPubSub κ) : Prop where
  subscriptions : node.subscriptions = []
  indefiniteJobs : node.indefiniteJobs = []
  timeouts : node.timeouts = []
  replayGuard : ∃ window, node.replayGuard = ReplayGuardT.init REPLAY_CAPACITY window

/-- A node after some run. -/
def Reachable (node : MulticastPubSub κ) : Prop :=
  ∃ start events, Fresh start ∧ node = machine.exec start events

/-! ## Subscribing -/

/-- What subscribing does: it updates the first record of the topic, or appends a new
one if there is none. -/
theorem updateSubscription_cases (topic : Bytes) (requireEncryption : Bool) (scope : Scope)
    (update : Subscription κ → Subscription κ) (subs : List (Subscription κ)) :
    (∃ before sub after, subs = before ++ sub :: after ∧ sub.topic = topic ∧
      updateSubscription topic requireEncryption scope update subs =
        before ++ update (if requireEncryption then { sub with requireEncryption := true }
          else sub) :: after) ∨
    ((∀ sub ∈ subs, sub.topic ≠ topic) ∧
      updateSubscription topic requireEncryption scope update subs =
        subs ++ [update
          { topic := topic
            crc := topicCrc32 topic
            group := topicToGroup topic scope
            requireEncryption := requireEncryption }]) := by
  induction subs with
  | nil => exact .inr ⟨by simp, rfl⟩
  | cons sub subs ih =>
    unfold updateSubscription
    by_cases htopic : sub.topic = topic
    · rw [if_pos htopic]
      exact .inl ⟨[], sub, subs, rfl, htopic, rfl⟩
    · rw [if_neg htopic]
      rcases ih with ⟨before, s, after, rfl, hs, heq⟩ | ⟨hnone, heq⟩
      · exact .inl ⟨sub :: before, s, after, rfl, hs, by rw [heq]; rfl⟩
      · refine .inr ⟨?_, by rw [heq]; rfl⟩
        intro s hs
        rcases List.mem_cons.mp hs with rfl | hs
        · exact htopic
        · exact hnone s hs

/-- The records of the subscriptions: one for each topic, with the topic's CRC and
group, and at least one callback. -/
structure SubscriptionsOk (scope : Scope) (subs : List (Subscription κ)) : Prop where
  nodup : (subs.map (·.topic)).Nodup
  crc_eq : ∀ sub ∈ subs, sub.crc = topicCrc32 sub.topic
  group_eq : ∀ sub ∈ subs, sub.group = topicToGroup sub.topic scope
  callbacks : ∀ sub ∈ subs, sub.rawCallbacks ≠ [] ∨ sub.typedCallbacks ≠ []

/-- In a list with distinct topics, the records of a topic that has one are that one. -/
theorem filter_topic_eq {subs : List (Subscription κ)} (hnodup : (subs.map (·.topic)).Nodup)
    {sub : Subscription κ} (hsub : sub ∈ subs) :
    subs.filter (fun s => s.topic = sub.topic) = [sub] := by
  induction subs with
  | nil => cases hsub
  | cons s subs ih =>
    rw [List.map_cons, List.nodup_cons] at hnodup
    rcases List.mem_cons.mp hsub with rfl | hin
    · rw [List.filter_cons_of_pos (by simp), List.filter_eq_nil_iff.mpr]
      intro s hs heq
      exact hnodup.1 (List.mem_map.mpr ⟨s, hs, of_decide_eq_true heq⟩)
    · have hne : s.topic ≠ sub.topic := fun heq =>
        hnodup.1 (List.mem_map.mpr ⟨sub, hin, heq.symm⟩)
      rw [List.filter_cons_of_neg (by simpa using hne)]
      exact ih hnodup.2 hin

/-- An update that adds a callback and nothing else. -/
structure AddsCallback (update : Subscription κ → Subscription κ) : Prop where
  topic : ∀ sub, (update sub).topic = sub.topic
  crc : ∀ sub, (update sub).crc = sub.crc
  group : ∀ sub, (update sub).group = sub.group
  requireEncryption : ∀ sub, (update sub).requireEncryption = sub.requireEncryption
  callbacks : ∀ sub, (update sub).rawCallbacks ≠ [] ∨ (update sub).typedCallbacks ≠ []

theorem addsCallback_raw (cb : κ) :
    AddsCallback fun sub : Subscription κ =>
      { sub with rawCallbacks := sub.rawCallbacks ++ [cb] } :=
  ⟨fun _ => rfl, fun _ => rfl, fun _ => rfl, fun _ => rfl, fun _ => .inl (by simp)⟩

theorem addsCallback_typed (tc : TypedCallback κ) :
    AddsCallback fun sub : Subscription κ =>
      { sub with typedCallbacks := sub.typedCallbacks ++ [tc] } :=
  ⟨fun _ => rfl, fun _ => rfl, fun _ => rfl, fun _ => rfl, fun _ => .inr (by simp)⟩

theorem SubscriptionsOk.update {scope : Scope} {subs : List (Subscription κ)}
    (h : SubscriptionsOk scope subs) (topic : Bytes) (requireEncryption : Bool)
    {update : Subscription κ → Subscription κ} (hadds : AddsCallback update) :
    SubscriptionsOk scope (updateSubscription topic requireEncryption scope update subs) := by
  rcases updateSubscription_cases topic requireEncryption scope update subs with
    ⟨before, sub, after, rfl, htopic, heq⟩ | ⟨hnone, heq⟩
  · rw [heq]
    generalize hold : (if requireEncryption then { sub with requireEncryption := true }
      else sub : Subscription κ) = old
    have hold' : old.topic = sub.topic ∧ old.crc = sub.crc ∧ old.group = sub.group := by
      rw [← hold]
      split <;> exact ⟨rfl, rfl, rfl⟩
    have hmem {s} (hs : s ∈ before ++ update old :: after) :
        s ∈ before ++ sub :: after ∨ s = update old := by
      simp only [List.mem_append, List.mem_cons] at hs ⊢
      tauto
    have hsub : sub ∈ before ++ sub :: after := by simp
    constructor
    · have hnodup := h.nodup
      simpa [List.map_append, hadds.topic, hold'.1] using hnodup
    · intro s hs
      rcases hmem hs with hs | rfl
      · exact h.crc_eq s hs
      · rw [hadds.crc, hadds.topic, hold'.2.1, hold'.1]
        exact h.crc_eq sub hsub
    · intro s hs
      rcases hmem hs with hs | rfl
      · exact h.group_eq s hs
      · rw [hadds.group, hadds.topic, hold'.2.2, hold'.1]
        exact h.group_eq sub hsub
    · intro s hs
      rcases hmem hs with hs | rfl
      · exact h.callbacks s hs
      · exact hadds.callbacks old
  · rw [heq]
    constructor
    · rw [List.map_append, List.nodup_append]
      refine ⟨h.nodup, by simp, ?_⟩
      intro t ht t' ht' heq'
      obtain ⟨s, hs, rfl⟩ := List.mem_map.mp ht
      rw [List.map_singleton, List.mem_singleton, hadds.topic] at ht'
      exact hnone s hs (heq'.trans ht')
    · exact forall_mem_concat.mpr ⟨h.crc_eq, by rw [hadds.crc, hadds.topic]⟩
    · exact forall_mem_concat.mpr ⟨h.group_eq, by rw [hadds.group, hadds.topic]⟩
    · exact forall_mem_concat.mpr ⟨h.callbacks, hadds.callbacks _⟩

/-! ## Publishing and timers -/

theorem sendDatagram_frame (node : MulticastPubSub κ) (sendOk : Bool) (datagram : Bytes)
    (group : GroupAddr) :
    ∃ sent, (node.sendDatagram sendOk datagram group).1 = { node with packetsSent := sent } := by
  unfold sendDatagram
  split
  · exact ⟨_, rfl⟩
  split
  · exact ⟨_, rfl⟩
  · exact ⟨_, rfl⟩

theorem scheduleRetransmits_frame (node : MulticastPubSub κ) (topic datagram : Bytes)
    (group : GroupAddr) :
    ∃ jobs timeouts, node.scheduleRetransmits topic datagram group =
      { node with indefiniteJobs := jobs, timeouts := timeouts } := by
  have hcancel : ∃ jobs timeouts, node.cancelIndefiniteRetransmit topic =
      { node with indefiniteJobs := jobs, timeouts := timeouts } := by
    unfold cancelIndefiniteRetransmit
    split
    · exact ⟨_, _, rfl⟩
    · exact ⟨_, _, rfl⟩
  obtain ⟨jobs, timeouts, hcancel⟩ := hcancel
  unfold scheduleRetransmits
  rw [hcancel]
  simp only
  split
  · exact ⟨_, _, rfl⟩
  · -- Every iteration of the finite loop arms one more timeout.
    have hloop : ∀ (is : List Nat) (ts : List Timeout), ∃ ts',
        is.foldl (fun (node : MulticastPubSub κ) i =>
          node.setTimeout (node.retransmitDelayMs * UInt32.ofNat (i + 1))
            (.resend datagram group)) { node with indefiniteJobs := jobs, timeouts := ts } =
          { node with indefiniteJobs := jobs, timeouts := ts' } := by
      intro is
      induction is with
      | nil => exact fun ts => ⟨ts, rfl⟩
      | cons i is ih => exact fun ts => ih _
    obtain ⟨ts', h⟩ := hloop (List.range (node.retransmitCount.toInt.toNat - 1)) timeouts
    exact ⟨_, _, h⟩

theorem publish_frame (node : MulticastPubSub κ) (env : PublishEnv) (topic payload : Bytes)
    (encoding : Encoding) :
    ∃ sent jobs timeouts, (node.publish env topic payload encoding).1 =
      { node with packetsSent := sent, indefiniteJobs := jobs, timeouts := timeouts } := by
  unfold publish
  split
  · exact ⟨_, _, _, rfl⟩
  split
  · exact ⟨_, _, _, rfl⟩
  obtain ⟨sent, hsend⟩ := node.sendDatagram_frame env.sendOk
    (node.datagram env topic payload encoding) (topicToGroup topic node.scope)
  simp only
  split
  · exact ⟨_, _, _, hsend⟩
  · obtain ⟨jobs, timeouts, hsched⟩ := scheduleRetransmits_frame
      (node.sendDatagram env.sendOk (node.datagram env topic payload encoding)
        (topicToGroup topic node.scope)).1 topic (node.datagram env topic payload encoding)
      (topicToGroup topic node.scope)
    exact ⟨_, _, _, by rw [hsched, hsend]⟩

theorem fireTimeout_frame (node : MulticastPubSub κ) (sendOk : Bool) (i : Nat) :
    ∃ sent timeouts, (node.fireTimeout sendOk i).1 =
      { node with packetsSent := sent, timeouts := timeouts } := by
  unfold fireTimeout
  split
  · exact ⟨_, _, rfl⟩
  simp only
  split
  · rename_i datagram group _
    obtain ⟨sent, hsend⟩ := sendDatagram_frame
      { node with timeouts := node.timeouts.eraseIdx i } sendOk datagram group
    exact ⟨_, _, hsend⟩
  · rename_i job _
    obtain ⟨sent, hsend⟩ := sendDatagram_frame
      { node with timeouts := node.timeouts.eraseIdx i } sendOk job.datagram job.group
    split
    · exact ⟨_, _, hsend⟩
    · exact ⟨_, _, by rw [hsend]; rfl⟩

/-! ## What holds along a run -/

/-- The settings of a node, which no call changes. -/
structure SameConfig (a b : MulticastPubSub κ) : Prop where
  scope : a.scope = b.scope
  encryptionEnabled : a.encryptionEnabled = b.encryptionEnabled
  encryptionKeyBytes : a.encryptionKeyBytes = b.encryptionKeyBytes

/-- The invariant of a run. -/
structure WellFormed (node : MulticastPubSub κ) : Prop where
  subscriptions : SubscriptionsOk node.scope node.subscriptions
  replayGuard : node.replayGuard.InRange

theorem fresh_wellFormed {node : MulticastPubSub κ} (h : Fresh node) : WellFormed node := by
  obtain ⟨window, hguard⟩ := h.replayGuard
  constructor
  · rw [h.subscriptions]
    exact ⟨List.nodup_nil, by simp, by simp, by simp⟩
  · rw [hguard]
    exact ReplayGuardT.init_inRange window

theorem step_sameConfig (node : MulticastPubSub κ) (e : Event κ) :
    SameConfig (node.step e).1 node := by
  cases e with
  | subscribe topic cb req => exact ⟨rfl, rfl, rfl⟩
  | subscribeTyped topic sid cb req => exact ⟨rfl, rfl, rfl⟩
  | publish env topic payload enc =>
    obtain ⟨_, _, _, h⟩ := node.publish_frame env topic payload enc
    show SameConfig (node.publish env topic payload enc).1 node
    rw [h]
    exact ⟨rfl, rfl, rfl⟩
  | packet raw clock =>
    obtain ⟨_, _, _, _, h, -⟩ := node.onPacket_frame raw clock
    show SameConfig (node.onPacket raw clock).1 node
    rw [h]
    exact ⟨rfl, rfl, rfl⟩
  | timeout sendOk i =>
    obtain ⟨_, _, h⟩ := node.fireTimeout_frame sendOk i
    show SameConfig (node.fireTimeout sendOk i).1 node
    rw [h]
    exact ⟨rfl, rfl, rfl⟩

/-- A run leaves the settings alone. -/
theorem exec_sameConfig (node : MulticastPubSub κ) (events : List (Event κ)) :
    SameConfig (machine.exec node events) node :=
  Machine.exec_invariant machine (I := fun n => SameConfig n node)
    (fun n e h =>
      let hstep := step_sameConfig n e
      ⟨hstep.scope.trans h.scope, hstep.encryptionEnabled.trans h.encryptionEnabled,
        hstep.encryptionKeyBytes.trans h.encryptionKeyBytes⟩)
    ⟨rfl, rfl, rfl⟩ events

theorem step_wellFormed (node : MulticastPubSub κ) (e : Event κ) (h : WellFormed node) :
    WellFormed (node.step e).1 := by
  cases e with
  | subscribe topic cb req =>
    exact ⟨h.subscriptions.update topic req (addsCallback_raw cb), h.replayGuard⟩
  | subscribeTyped topic sid cb req =>
    exact ⟨h.subscriptions.update topic req (addsCallback_typed ⟨sid, cb⟩), h.replayGuard⟩
  | publish env topic payload enc =>
    obtain ⟨_, _, _, heq⟩ := node.publish_frame env topic payload enc
    show WellFormed (node.publish env topic payload enc).1
    rw [heq]
    exact ⟨h.subscriptions, h.replayGuard⟩
  | packet raw clock =>
    obtain ⟨replayGuard, _, _, _, heq, hguard⟩ := node.onPacket_frame raw clock
    show WellFormed (node.onPacket raw clock).1
    rw [heq]
    refine ⟨h.subscriptions, ?_⟩
    rcases hguard with rfl | ⟨now, nowValid, ts, rnonce, rfl⟩
    · exact h.replayGuard
    · exact (ReplayGuardT.accept_refines h.replayGuard ⟨now, nowValid, ts, rnonce⟩ rfl).2.1
  | timeout sendOk i =>
    obtain ⟨_, _, heq⟩ := node.fireTimeout_frame sendOk i
    show WellFormed (node.fireTimeout sendOk i).1
    rw [heq]
    exact ⟨h.subscriptions, h.replayGuard⟩

/-- The invariant holds of every reachable node. -/
theorem Reachable.wellFormed {node : MulticastPubSub κ} (h : Reachable node) :
    WellFormed node := by
  obtain ⟨start, events, hstart, rfl⟩ := h
  exact Machine.exec_invariant machine step_wellFormed (fresh_wellFormed hstart) events

end MulticastPubSub

end Mpubsub.Node
