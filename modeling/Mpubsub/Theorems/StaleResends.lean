import Mpubsub.Node.Retransmit
import Mpubsub.Node.Delivery

/-!
# What an indefinite chain resends

A chain resends the datagram of the publish that started it, with the timestamp and
the nonce of that publish (`exec_onlyJob`). A receiver that starts with an empty guard
takes it while the sender's clock is within the window of that timestamp, and not
later (`resend_accepted_iff`): with a delay beyond the window, it takes no resend.
-/

namespace Mpubsub.Theorems

open Mpubsub.Lib Mpubsub.Wire Mpubsub.Node Mpubsub.Node.MulticastPubSub
open Mpubsub.Replay (ReplayGuardT)

variable {κ κ' : Type}

/-! ## The chain of one publish -/

/-- The topic has no other job than this one. -/
structure OnlyJob (topic : Bytes) (job : IndefiniteJob) (node : MulticastPubSub κ) : Prop where
  jobs : ∀ p ∈ node.indefiniteJobs, p.1 = topic → p.2 = job
  links : ∀ t ∈ node.timeouts, ∀ j, t.job? = some j → j.topic = topic → j = job

/-- The calls publish nothing on the topic. -/
def NoPublish (topic : Bytes) (calls : List (Call κ)) : Prop :=
  ∀ env payload encoding, Call.event (.publish env topic payload encoding) ∉ calls

theorem published_ne {topic : Bytes} {c : Call κ}
    (h : ∀ env payload encoding, c ≠ .event (.publish env topic payload encoding))
    (node : MulticastPubSub κ) (sent : Sent) : node.published c ≠ some (topic, sent) := by
  intro hpub
  unfold MulticastPubSub.published at hpub
  split at hpub
  · split at hpub
    · cases hpub
      exact h _ _ _ rfl
    · cases hpub
  · cases hpub

/-- An indefinite publish leaves the topic with its own job. -/
theorem onlyJob_of_publish {node : MulticastPubSub κ} (hkeyed : ChainsKeyed node) {c : Call κ}
    {topic : Bytes} {sent : Sent} (hpub : node.published c = some (topic, sent))
    (hcount : node.retransmitCount = -1) : OnlyJob topic (node.job topic sent) (node.call c).1 := by
  obtain ⟨hjobs, htimeouts⟩ := call_indefinite hpub hcount
  constructor
  · intro p hp htopic
    rw [hjobs] at hp
    rcases List.mem_append.mp hp with hp | hp
    · exact absurd htopic (of_decide_eq_true (List.mem_filter.mp hp).2)
    · rw [List.mem_singleton.mp hp]
  · intro t ht j hj htopic
    rw [htimeouts] at ht
    rcases hkeyed.link_indefinite t ht j hj with ⟨-, hne⟩ | rfl
    · exact absurd htopic hne
    · rfl

/-- It keeps that job until the next publish on the topic. -/
theorem call_onlyJob {node : MulticastPubSub κ} (hkeyed : ChainsKeyed node) {topic : Bytes}
    {job : IndefiniteJob} (h : OnlyJob topic job node) {c : Call κ}
    (hc : ∀ sent, node.published c ≠ some (topic, sent)) : OnlyJob topic job (node.call c).1 := by
  constructor
  · intro p hp htopic
    rcases job_cases hp with hp | ⟨topic', sent, hpub, rfl⟩
    · exact h.jobs p hp htopic
    · exact absurd (htopic ▸ hpub) (hc sent)
  · intro t ht j hj htopic
    rcases link_cases ht hj with ht | ⟨topic', sent, hpub, rfl, -⟩ | ⟨u, fired, -, -, hmem, -⟩
    · exact h.links t ht j hj htopic
    · exact absurd (htopic ▸ hpub) (hc sent)
    · exact h.jobs _ hmem ((hkeyed.jobs _ hmem).1.symm.trans htopic)

theorem exec_onlyJob {node : MulticastPubSub κ} (hkeyed : ChainsKeyed node) {topic : Bytes}
    {job : IndefiniteJob} (h : OnlyJob topic job node) {calls : List (Call κ)}
    (hcalls : NoPublish topic calls) : OnlyJob topic job (publisher.exec node calls) := by
  induction calls generalizing node with
  | nil => exact h
  | cons c calls ih =>
    refine ih (call_chainsKeyed node c hkeyed) (call_onlyJob hkeyed h ?_) ?_
    · refine published_ne ?_ node
      rintro env payload encoding rfl
      exact hcalls env payload encoding List.mem_cons_self
    · intro env payload encoding hmem
      exact hcalls env payload encoding (List.mem_cons_of_mem _ hmem)

/-! ## A receiver that starts later -/

/-- A receiver with the publisher's key and an empty guard with a window of `W` seconds. -/
structure EmptyReceiver (p : MulticastPubSub κ) (r : MulticastPubSub κ') (W : UInt32) : Prop where
  encrypted : r.encryptionEnabled = true
  key : r.encryptionKeyBytes = p.encryptionKeyBytes
  inRange : r.replayGuard.InRange
  empty : r.replayGuard.count = 0
  window : r.replayGuard.window = W
  on : W ≠ 0

/-- The receiver opens the datagram, and its guard takes it at the time `now`. -/
def AcceptedAt (r : MulticastPubSub κ) (datagram : Bytes) (now : UInt32) : Prop :=
  ∃ crc encoding payload ts rnonce,
    r.receive datagram = some ⟨crc, encoding, payload, some (ts, rnonce)⟩ ∧
      (replayCheck r.replayGuard (some now) ts rnonce).2 = true

/-- An empty guard takes what is fresh. -/
theorem replayCheck_empty {p : MulticastPubSub κ} {r : MulticastPubSub κ'} {W : UInt32}
    (hr : EmptyReceiver p r W) {ts : UInt32} (hts : ts ≠ 0) (now rnonce : UInt32) :
    (replayCheck r.replayGuard (some now) ts rnonce).2 = true ↔
      DedupLog.Fresh W.toNat now.toNat ts.toNat := by
  have hwindow : r.replayGuard.window ≠ 0 := by
    rw [hr.window]
    exact hr.on
  have hlog : r.replayGuard.log = [] :=
    List.eq_nil_of_length_eq_zero (by rw [ReplayGuardT.length_log, hr.empty])
  obtain ⟨heq, -, -⟩ := ReplayGuardT.accept_refines hr.inRange ⟨now, true, ts, rnonce⟩ rfl
  have hanswer := congrArg Prod.snd heq
  rw [Replay.accept_of_valid hwindow rfl hts, hlog, hr.window] at hanswer
  unfold replayCheck
  rw [if_pos (by simpa [ReplayGuardT.enabled] using hwindow)]
  show (r.replayGuard.accept now true ts rnonce).2 = true ↔ _
  rw [hanswer]
  exact DedupLog.offer_nil_iff W.toNat REPLAY_CAPACITY now.toNat (rnonce, ts.toNat)

/-! ## Runs -/

/-- `node` is a publisher after some run whose latest publish on `topic` started an indefinite
chain: it was made by `p`, encrypted, with a delay of at least a second, and with the clock
at `t0`. -/
structure IndefiniteSince (p node : MulticastPubSub κ) (env : PublishEnv) (topic payload : Bytes)
    (encoding : Encoding) (t0 : UInt32) : Prop where
  reached : ∃ start earlier, Fresh start ∧ p = publisher.exec start earlier
  accepted : p.Accepted env payload
  encrypted : p.encryptionEnabled = true
  count : p.retransmitCount = -1
  delay : 1000 ≤ p.retransmitDelayMs
  clock : env.clock = some t0
  synced : t0 ≠ 0
  later : ∃ calls, NoPublish topic calls ∧
    node = publisher.exec (p.call (.event (.publish env topic payload encoding))).1 calls

/-- The node hands `s` to the socket when the timeout at `i` fires, a link of the topic's
chain. -/
def ChainSends (node : MulticastPubSub κ) (topic : Bytes) (sendOk : Bool) (i : Nat) (s : Sent) :
    Prop :=
  (∃ t job, node.timeouts[i]? = some t ∧ t.job? = some job ∧ job.topic = topic) ∧
    s ∈ (node.fireTimeout sendOk i).2

/-- A firing link hands its job's datagram to the socket. -/
theorem sent_of_chainSends {node : MulticastPubSub κ} {topic : Bytes} {sendOk : Bool} {i : Nat}
    {s : Sent} (h : ChainSends node topic sendOk i s) :
    ∃ t ∈ node.timeouts, ∃ job, t.job? = some job ∧ job.topic = topic ∧ s = job.sent := by
  obtain ⟨⟨t, job, ht, hjob, htopic⟩, hs⟩ := h
  refine ⟨t, List.mem_of_getElem? ht, job, hjob, htopic, ?_⟩
  have hfn := Timeout.fn_of_job? hjob
  have hsent : ∀ n : MulticastPubSub κ, s ∈ (n.sendDatagram sendOk job.datagram job.group).2.1 →
      s = job.sent := by
    intro n hs
    unfold sendDatagram at hs
    split at hs
    · cases hs
    split at hs
    · exact List.mem_singleton.mp hs
    · exact List.mem_singleton.mp hs
  unfold fireTimeout at hs
  simp only [ht, hfn] at hs
  split at hs
  · exact hsent _ hs
  · exact hsent _ hs

/-- The chain sends the datagram of the publish, and nothing else. -/
theorem datagram_of_chainSends {p node : MulticastPubSub κ} {env : PublishEnv}
    {topic payload : Bytes} {encoding : Encoding} {t0 : UInt32}
    (hrun : IndefiniteSince p node env topic payload encoding t0) {sendOk : Bool} {i : Nat}
    {s : Sent} (hs : ChainSends node topic sendOk i s) :
    s = ⟨p.datagram env topic payload encoding, topicToGroup topic p.scope⟩ := by
  obtain ⟨start, earlier, hfresh, hreached⟩ := hrun.reached
  obtain ⟨calls, hcalls, rfl⟩ := hrun.later
  have hkeyed : ChainsKeyed p := by
    rw [hreached]
    exact exec_chainsKeyed hfresh.chainsKeyed earlier
  have honly := onlyJob_of_publish hkeyed (if_pos hrun.accepted) hrun.count
    (c := .event (.publish env topic payload encoding))
  obtain ⟨t, ht, job, hjob, htopic, rfl⟩ := sent_of_chainSends hs
  rw [(exec_onlyJob (call_chainsKeyed p _ hkeyed) honly hcalls).links t ht job hjob htopic]
  rfl

/-- What a receiver makes of a datagram that `p` published with the clock at `t0`. -/
theorem acceptedAt_iff {p : MulticastPubSub κ} {r : MulticastPubSub κ'} {W t0 : UInt32}
    (hr : EmptyReceiver p r W) {env : PublishEnv} {payload : Bytes}
    (hsize : payload.length ≤ p.effectiveMax) (hkey : p.encryptionEnabled = true)
    (hclock : env.clock = some t0) (hsynced : t0 ≠ 0) (topic : Bytes) (encoding : Encoding)
    (now : UInt32) :
    AcceptedAt r (p.datagram env topic payload encoding) now ↔
      DedupLog.Fresh W.toNat now.toNat t0.toNat := by
  have hreceive := receive_datagram hsize env topic encoding
    fun _ => (⟨hr.encrypted, hr.key⟩ : r.encryptionEnabled = true ∧ _)
  have hts : replayTimestamp env.clock = t0 := by rw [hclock]; rfl
  rw [hkey, hts] at hreceive
  rw [← replayCheck_empty hr hsynced now env.random0]
  constructor
  · rintro ⟨crc, encoding', payload', ts, rnonce, heq, haccept⟩
    rw [hreceive] at heq
    cases heq
    exact haccept
  · intro haccept
    exact ⟨_, _, _, _, _, hreceive, haccept⟩

/-- Nodes whose chain has a delay of a minute, and a receiver with a window of half a
minute. -/
def minutely : MulticastPubSub Unit :=
  { socket := true, encryptionEnabled := true, retransmitCount := -1, retransmitDelayMs := 60000 }

def lateReceiver : MulticastPubSub Unit :=
  { encryptionEnabled := true, replayGuard := ReplayGuardT.init REPLAY_CAPACITY 30 }

theorem emptyReceiver_lateReceiver : EmptyReceiver minutely lateReceiver 30 :=
  ⟨rfl, rfl, ReplayGuardT.init_inRange 30, rfl, rfl, by decide⟩

/-- The state of `minutely` when it has published on "t" with its clock at 1000. -/
def minutelyPublished : MulticastPubSub Unit :=
  (minutely.call (.event (.publish { random0 := 7, clock := some 1000 } [116] [1] .RAW))).1

theorem indefiniteSince_minutelyPublished :
    IndefiniteSince minutely minutelyPublished { random0 := 7, clock := some 1000 } [116] [1] .RAW
      1000 :=
  { reached := ⟨minutely, [], ⟨rfl, rfl, rfl, 0, rfl⟩, rfl⟩
    accepted := by decide
    encrypted := rfl
    count := rfl
    delay := by decide
    clock := rfl
    synced := by decide
    later := ⟨[], fun _ _ _ h => (by cases h), rfl⟩ }

/-- The first resend, when its timeout fires. -/
theorem chainSends_minutelyPublished :
    ChainSends minutelyPublished [116] true 0
      ⟨minutely.datagram { random0 := 7, clock := some 1000 } [116] [1] .RAW,
        topicToGroup [116] .LINK_LOCAL⟩ := by
  have hstate : minutelyPublished = { minutely with
      packetsSent := 1
      indefiniteJobs := [([116], minutely.job [116]
        ⟨minutely.datagram { random0 := 7, clock := some 1000 } [116] [1] .RAW,
          topicToGroup [116] .LINK_LOCAL⟩)]
      timeouts := [⟨some (topicCrc32 [116]), 60000, .indefinite (minutely.job [116]
        ⟨minutely.datagram { random0 := 7, clock := some 1000 } [116] [1] .RAW,
          topicToGroup [116] .LINK_LOCAL⟩)⟩] } := rfl
  rw [hstate]
  exact ⟨⟨_, _, rfl, rfl, rfl⟩, by simp [fireTimeout, sendDatagram, minutely, job]⟩

/-- The minute between two sends is longer than the window, and the first resend is refused. -/
theorem resend_refused :
    ∃ (node : MulticastPubSub Unit) (s : Sent),
      IndefiniteSince minutely node { random0 := 7, clock := some 1000 } [116] [1] .RAW 1000 ∧
      EmptyReceiver minutely lateReceiver 30 ∧ ChainSends node [116] true 0 s ∧
      ¬AcceptedAt lateReceiver s.datagram 1060 := by
  refine ⟨_, _, indefiniteSince_minutelyPublished, emptyReceiver_lateReceiver,
    chainSends_minutelyPublished, ?_⟩
  rw [acceptedAt_iff emptyReceiver_lateReceiver (by decide) rfl rfl (by decide)]
  decide

/-- Every datagram of an indefinite chain is the one of the publish that started it. A receiver
with an empty guard and the sender's clock takes it exactly while that clock is within the
window of its reading at the publish. -/
theorem resend_accepted_iff {p node : MulticastPubSub κ} {env : PublishEnv}
    {topic payload : Bytes} {encoding : Encoding} {t0 : UInt32}
    (hrun : IndefiniteSince p node env topic payload encoding t0) {r : MulticastPubSub κ'}
    {W : UInt32} (hr : EmptyReceiver p r W) {sendOk : Bool} {i : Nat} {s : Sent}
    (hs : ChainSends node topic sendOk i s) (now : UInt32) :
    s = ⟨p.datagram env topic payload encoding, topicToGroup topic p.scope⟩ ∧
      (AcceptedAt r s.datagram now ↔ DedupLog.Fresh W.toNat now.toNat t0.toNat) := by
  have heq := datagram_of_chainSends hrun hs
  refine ⟨heq, ?_⟩
  rw [heq]
  exact acceptedAt_iff hr hrun.accepted.2.1 hrun.encrypted hrun.clock hrun.synced topic encoding
    now

/-- `resend_accepted_iff` for the resend after a minute. -/
theorem resend_accepted_iff_minutely :
    AcceptedAt lateReceiver
        (minutely.datagram { random0 := 7, clock := some 1000 } [116] [1] .RAW) 1060 ↔
      DedupLog.Fresh 30 1060 1000 :=
  (resend_accepted_iff indefiniteSince_minutelyPublished emptyReceiver_lateReceiver
    chainSends_minutelyPublished 1060).2

end Mpubsub.Theorems
