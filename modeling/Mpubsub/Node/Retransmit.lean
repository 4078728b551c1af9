import Mpubsub.Lib.Dict
import Mpubsub.Lib.Timers
import Mpubsub.Node.Run

/-!
# Retransmission over runs (`multicast_pubsub.cpp`)

The node as a publisher: the calls of `Node.Run`, and the setters that
`PublishAction` calls around a publish. An accepted publish starts or ends the
indefinite chain of its topic, a firing timeout arms the next link. `call_schedules`
says once what a call can do to the jobs and to the timeouts; `chain` are the pending
links of one topic.
-/

namespace Mpubsub.Node

open Mpubsub.Lib Mpubsub.Wire

variable {κ : Type}

/-- A call into a publisher. -/
inductive Call (κ : Type) where
  | event (e : Event κ)
  | setRetransmitCount (count : Int16)
  | setRetransmitDelayMs (delayMs : UInt32)
deriving DecidableEq

/-- The link of a chain that `fireTimeout` runs, if it is one. -/
def Timeout.job? (t : Timeout) : Option IndefiniteJob :=
  match t.fn with
  | .resend _ _ => none
  | .indefinite job => some job

theorem Timeout.fn_of_job? {t : Timeout} {job : IndefiniteJob} (h : t.job? = some job) :
    t.fn = .indefinite job := by
  unfold Timeout.job? at h
  split at h
  · cases h
  · rename_i hfn
    cases h
    exact hfn

/-- What a link of the chain hands to the socket. -/
def IndefiniteJob.sent (job : IndefiniteJob) : Sent := ⟨job.datagram, job.group⟩

namespace MulticastPubSub

def call (node : MulticastPubSub κ) : Call κ → MulticastPubSub κ × Output κ
  | .event e => node.step e
  | .setRetransmitCount count => ({ node with retransmitCount := count }, {})
  | .setRetransmitDelayMs delayMs => ({ node with retransmitDelayMs := delayMs }, {})

def publisher : Machine (MulticastPubSub κ) (Call κ) (Output κ) := ⟨call⟩

/-- The pending links of the topic's chain. -/
def chain (node : MulticastPubSub κ) (topic : Bytes) : List IndefiniteJob :=
  (node.timeouts.filterMap Timeout.job?).filter fun job => job.topic = topic

/-- A publish that is not refused, and whose first send succeeds. -/
def Accepted (node : MulticastPubSub κ) (env : PublishEnv) (payload : Bytes) : Prop :=
  node.socket = true ∧ payload.length ≤ node.effectiveMax ∧ env.sendOk = true

instance (node : MulticastPubSub κ) (env : PublishEnv) (payload : Bytes) :
    Decidable (node.Accepted env payload) := inferInstanceAs (Decidable (_ ∧ _ ∧ _))

/-- What an accepted publish sends, and on which topic. -/
def published (node : MulticastPubSub κ) : Call κ → Option (Bytes × Sent)
  | .event (.publish env topic payload encoding) =>
    if node.Accepted env payload then
      some (topic, ⟨node.datagram env topic payload encoding, topicToGroup topic node.scope⟩)
    else none
  | _ => none

/-- The job that an indefinite publish installs. -/
def job (node : MulticastPubSub κ) (topic : Bytes) (sent : Sent) : IndefiniteJob :=
  { datagram := sent.datagram, group := sent.group, topic := topic
    delay := node.retransmitDelayMs, rtId := topicCrc32 topic }

/-! ## What a call can do -/

/-- The jobs and the timeouts after a call. -/
inductive Schedules (node node' : MulticastPubSub κ) (c : Call κ) : Prop where
  | idle (hpub : node.published c = none) (hjobs : node'.indefiniteJobs = node.indefiniteJobs)
      (htimeouts : node'.timeouts = node.timeouts)
  | indefinite (topic : Bytes) (sent : Sent) (hpub : node.published c = some (topic, sent))
      (hcount : node.retransmitCount = -1)
      (hjobs : node'.indefiniteJobs = node.indefiniteJobs.filter (fun job => job.1 ≠ topic) ++
        [(topic, node.job topic sent)])
      (htimeouts : node'.timeouts =
        Timers.cancel Timeout.id node.timeouts (topicCrc32 topic) ++
          [⟨some (topicCrc32 topic), node.retransmitDelayMs, .indefinite (node.job topic sent)⟩])
  | finite (topic : Bytes) (sent : Sent) (resends : List Timeout)
      (hpub : node.published c = some (topic, sent)) (hcount : node.retransmitCount ≠ -1)
      (hresends : ∀ t ∈ resends, t.id = none ∧ t.job? = none)
      (hjobs : node'.indefiniteJobs = node.indefiniteJobs.filter fun job => job.1 ≠ topic)
      (htimeouts : node'.timeouts =
        (if (node.indefiniteJobs.lookup topic).isSome then
            Timers.cancel Timeout.id node.timeouts (topicCrc32 topic)
          else node.timeouts) ++ resends)
  | fired (i : Nat) (t : Timeout) (hpub : node.published c = none)
      (ht : node.timeouts[i]? = some t)
      (hend : ∀ job, t.job? = some job → node.indefiniteJobs.lookup job.topic = none)
      (hjobs : node'.indefiniteJobs = node.indefiniteJobs)
      (htimeouts : node'.timeouts = node.timeouts.eraseIdx i)
  | rearmed (i : Nat) (t : Timeout) (job next : IndefiniteJob) (hpub : node.published c = none)
      (ht : node.timeouts[i]? = some t) (hjob : t.job? = some job)
      (hnext : node.indefiniteJobs.lookup job.topic = some next)
      (hjobs : node'.indefiniteJobs = node.indefiniteJobs)
      (htimeouts : node'.timeouts =
        Timers.cancel Timeout.id (node.timeouts.eraseIdx i) job.rtId ++
          [⟨some job.rtId, job.delay, .indefinite next⟩])

theorem sendDatagram_timers (node : MulticastPubSub κ) (sendOk : Bool) (datagram : Bytes)
    (group : GroupAddr) :
    (node.sendDatagram sendOk datagram group).1.indefiniteJobs = node.indefiniteJobs ∧
      (node.sendDatagram sendOk datagram group).1.timeouts = node.timeouts := by
  obtain ⟨_, h⟩ := node.sendDatagram_frame sendOk datagram group
  rw [h]
  exact ⟨rfl, rfl⟩

/-- `cancel_indefinite_retransmit_` takes the topic's job away, and empties its slot if it had
one. -/
theorem cancelIndefiniteRetransmit_eq (node : MulticastPubSub κ) (topic : Bytes) :
    node.cancelIndefiniteRetransmit topic =
      { node with
        indefiniteJobs := node.indefiniteJobs.filter fun job => job.1 ≠ topic
        timeouts :=
          if (node.indefiniteJobs.lookup topic).isSome then
            Timers.cancel Timeout.id node.timeouts (topicCrc32 topic)
          else node.timeouts } := by
  unfold cancelIndefiniteRetransmit
  cases hlookup : node.indefiniteJobs.lookup topic with
  | some job => rfl
  | none =>
    have hnone : node.indefiniteJobs.filter (fun job => job.1 ≠ topic) = node.indefiniteJobs := by
      refine List.filter_eq_self.mpr fun job hjob => ?_
      exact decide_eq_true (lookup_eq_none_iff_forall.mp hlookup job hjob)
    rw [hnone]
    rfl

/-- The finite loop arms one timeout without a slot for each resend. -/
theorem foldl_setTimeout (fn : TimeoutFn) (is : List Nat) (node : MulticastPubSub κ) :
    is.foldl (fun node i =>
        node.setTimeout (node.retransmitDelayMs * UInt32.ofNat (i + 1)) fn) node =
      { node with timeouts := node.timeouts ++ is.map fun i =>
          ⟨none, node.retransmitDelayMs * UInt32.ofNat (i + 1), fn⟩ } := by
  induction is generalizing node with
  | nil => simp
  | cons i is ih =>
    rw [List.foldl_cons, ih, List.map_cons]
    simp only [setTimeout, List.append_assoc, List.singleton_append]

theorem scheduleRetransmits_indefinite {node : MulticastPubSub κ}
    (hcount : node.retransmitCount = -1) (topic : Bytes) (sent : Sent) :
    node.scheduleRetransmits topic sent.datagram sent.group =
      { node with
        indefiniteJobs := node.indefiniteJobs.filter (fun job => job.1 ≠ topic) ++
          [(topic, node.job topic sent)]
        timeouts := Timers.cancel Timeout.id node.timeouts (topicCrc32 topic) ++
          [⟨some (topicCrc32 topic), node.retransmitDelayMs,
            .indefinite (node.job topic sent)⟩] } := by
  unfold scheduleRetransmits
  rw [cancelIndefiniteRetransmit_eq]
  simp only [hcount, if_true, setTimeoutId]
  -- Setting the timeout empties the slot, whether or not it was cancelled before.
  congr 2
  split
  · exact Timers.cancel_eq_self (Timers.occupants_cancel_self ..)
  · rfl

theorem scheduleRetransmits_finite {node : MulticastPubSub κ}
    (hcount : node.retransmitCount ≠ -1) (topic : Bytes) (sent : Sent) :
    ∃ resends : List Timeout, (∀ t ∈ resends, t.id = none ∧ t.job? = none) ∧
      node.scheduleRetransmits topic sent.datagram sent.group =
        { node with
          indefiniteJobs := node.indefiniteJobs.filter fun job => job.1 ≠ topic
          timeouts :=
            (if (node.indefiniteJobs.lookup topic).isSome then
                Timers.cancel Timeout.id node.timeouts (topicCrc32 topic)
              else node.timeouts) ++ resends } := by
  unfold scheduleRetransmits
  rw [cancelIndefiniteRetransmit_eq]
  simp only [if_neg hcount]
  rw [foldl_setTimeout]
  refine ⟨_, ?_, rfl⟩
  intro t ht
  obtain ⟨i, -, rfl⟩ := List.mem_map.mp ht
  exact ⟨rfl, rfl⟩

/-- What an accepted publish does to the jobs and timeouts. -/
theorem publish_timers {node : MulticastPubSub κ} {env : PublishEnv} {payload : Bytes}
    (h : node.Accepted env payload) (topic : Bytes) (encoding : Encoding) :
    ∃ sent, (node.publish env topic payload encoding).1 =
      { node with packetsSent := sent }.scheduleRetransmits topic
        (node.datagram env topic payload encoding) (topicToGroup topic node.scope) := by
  obtain ⟨hsocket, hsize, hsend⟩ := h
  unfold publish
  rw [if_neg (by simp [hsocket]), if_neg (by omega)]
  simp only [sendDatagram, hsocket, hsend, Bool.not_true, Bool.false_eq_true, if_false]
  exact ⟨_, rfl⟩

/-- A publish that is not accepted leaves them alone. -/
theorem publish_timers_of_not_accepted {node : MulticastPubSub κ} {env : PublishEnv}
    {payload : Bytes} (h : ¬node.Accepted env payload) (topic : Bytes) (encoding : Encoding) :
    (node.publish env topic payload encoding).1.indefiniteJobs = node.indefiniteJobs ∧
      (node.publish env topic payload encoding).1.timeouts = node.timeouts := by
  unfold publish
  cases hsocket : node.socket with
  | false => exact ⟨rfl, rfl⟩
  | true =>
    simp only [Bool.not_true, Bool.false_eq_true, if_false]
    by_cases hsize : payload.length > node.effectiveMax
    · rw [if_pos hsize]
      exact ⟨rfl, rfl⟩
    · rw [if_neg hsize]
      have hsend : env.sendOk = false := by
        rw [← Bool.not_eq_true]
        intro hsend
        exact h ⟨hsocket, by omega, hsend⟩
      simp only [sendDatagram, hsocket, hsend, Bool.not_true, Bool.false_eq_true, if_false,
        Bool.not_false, if_true]
      exact ⟨trivial, trivial⟩

theorem publish_schedules (node : MulticastPubSub κ) (env : PublishEnv) (topic payload : Bytes)
    (encoding : Encoding) :
    Schedules node (node.publish env topic payload encoding).1
      (.event (.publish env topic payload encoding)) := by
  by_cases h : node.Accepted env payload
  · obtain ⟨sent, hsent⟩ : ∃ sent : Sent, sent =
      ⟨node.datagram env topic payload encoding, topicToGroup topic node.scope⟩ := ⟨_, rfl⟩
    have hpub : node.published (.event (.publish env topic payload encoding)) =
        some (topic, sent) := by
      rw [hsent]
      exact if_pos h
    obtain ⟨packets, heq⟩ := publish_timers h topic encoding
    obtain ⟨counted, hcounted⟩ : ∃ counted, counted = { node with packetsSent := packets } :=
      ⟨_, rfl⟩
    have heq : (node.publish env topic payload encoding).1 =
        counted.scheduleRetransmits topic sent.datagram sent.group := by
      rw [heq, hsent, hcounted]
    rw [heq]
    by_cases hcount : node.retransmitCount = -1
    · rw [scheduleRetransmits_indefinite (by rw [hcounted, hcount]), hcounted]
      exact .indefinite topic sent hpub hcount rfl rfl
    · obtain ⟨resends, hresends, heq⟩ :=
        counted.scheduleRetransmits_finite (by rw [hcounted]; exact hcount) topic sent
      rw [heq, hcounted]
      exact .finite topic sent resends hpub hcount hresends rfl rfl
  · obtain ⟨hjobs, htimeouts⟩ := publish_timers_of_not_accepted h topic encoding
    exact .idle (if_neg h) hjobs htimeouts

theorem fireTimeout_schedules (node : MulticastPubSub κ) (sendOk : Bool) (i : Nat) :
    Schedules node (node.fireTimeout sendOk i).1 (.event (.timeout sendOk i)) := by
  unfold fireTimeout
  cases ht : node.timeouts[i]? with
  | none => exact .idle rfl rfl rfl
  | some t =>
    simp only
    cases hfn : t.fn with
    | resend datagram group =>
      obtain ⟨hjobs, htimeouts⟩ := sendDatagram_timers
        { node with timeouts := node.timeouts.eraseIdx i } sendOk datagram group
      have hnone : t.job? = none := by rw [Timeout.job?, hfn]
      exact .fired i t rfl ht (fun job hjob => by rw [hnone] at hjob; cases hjob) hjobs htimeouts
    | indefinite job =>
      obtain ⟨hjobs, htimeouts⟩ := sendDatagram_timers
        { node with timeouts := node.timeouts.eraseIdx i } sendOk job.datagram job.group
      have hjob : t.job? = some job := by rw [Timeout.job?, hfn]
      simp only [hjobs]
      cases hnext : node.indefiniteJobs.lookup job.topic with
      | none =>
        refine .fired i t rfl ht ?_ hjobs htimeouts
        intro job' hjob'
        rw [hjob] at hjob'
        cases hjob'
        exact hnext
      | some next =>
        refine .rearmed i t job next rfl ht hjob hnext hjobs ?_
        simp only [setTimeoutId, htimeouts]
        rfl

/-- What a call can do to the jobs and the timeouts. -/
theorem call_schedules (node : MulticastPubSub κ) (c : Call κ) :
    Schedules node (node.call c).1 c := by
  cases c with
  | setRetransmitCount count => exact .idle rfl rfl rfl
  | setRetransmitDelayMs delayMs => exact .idle rfl rfl rfl
  | event e =>
    cases e with
    | subscribe topic cb requireEncryption => exact .idle rfl rfl rfl
    | subscribeTyped topic schemaId cb requireEncryption => exact .idle rfl rfl rfl
    | publish env topic payload encoding => exact node.publish_schedules env topic payload encoding
    | timeout sendOk i => exact node.fireTimeout_schedules sendOk i
    | packet raw clock =>
      obtain ⟨_, _, _, _, heq, -⟩ := node.onPacket_frame raw clock
      show Schedules node (node.onPacket raw clock).1 _
      rw [heq]
      exact .idle rfl rfl rfl

/-- An accepted indefinite publish gives its topic a job and its slot a link. -/
theorem call_indefinite {node : MulticastPubSub κ} {c : Call κ} {topic : Bytes} {sent : Sent}
    (hpub : node.published c = some (topic, sent)) (hcount : node.retransmitCount = -1) :
    (node.call c).1.indefiniteJobs = node.indefiniteJobs.filter (fun job => job.1 ≠ topic) ++
        [(topic, node.job topic sent)] ∧
      (node.call c).1.timeouts = Timers.cancel Timeout.id node.timeouts (topicCrc32 topic) ++
        [⟨some (topicCrc32 topic), node.retransmitDelayMs, .indefinite (node.job topic sent)⟩] := by
  cases node.call_schedules c with
  | idle hpub' => simp [hpub] at hpub'
  | fired i t hpub' => simp [hpub] at hpub'
  | rearmed i t job next hpub' => simp [hpub] at hpub'
  | finite topic' sent' resends _ hcount' => exact absurd hcount hcount'
  | indefinite topic' sent' hpub' _ hjobs htimeouts =>
    rw [hpub] at hpub'
    cases hpub'
    exact ⟨hjobs, htimeouts⟩

/-- A job after a call is an old one, or the one of the publish. -/
theorem job_cases {node : MulticastPubSub κ} {c : Call κ} {p : Bytes × IndefiniteJob}
    (h : p ∈ (node.call c).1.indefiniteJobs) :
    p ∈ node.indefiniteJobs ∨ ∃ topic sent, node.published c = some (topic, sent) ∧
      p = (topic, node.job topic sent) := by
  cases node.call_schedules c with
  | idle _ hjobs htimeouts => exact .inl (hjobs ▸ h)
  | fired i t _ _ _ hjobs htimeouts => exact .inl (hjobs ▸ h)
  | rearmed i t job next _ _ _ _ hjobs htimeouts => exact .inl (hjobs ▸ h)
  | finite topic sent resends _ _ _ hjobs htimeouts =>
    rw [hjobs] at h
    exact .inl (List.mem_filter.mp h).1
  | indefinite topic sent hpub _ hjobs htimeouts =>
    rw [hjobs] at h
    rcases List.mem_append.mp h with h | h
    · exact .inl (List.mem_filter.mp h).1
    · exact .inr ⟨topic, sent, hpub, List.mem_singleton.mp h⟩

/-- A pending link after a call is an old one, the first one of the publish, or the next one
of a link that fired. -/
theorem link_cases {node : MulticastPubSub κ} {c : Call κ} {t : Timeout} {job : IndefiniteJob}
    (h : t ∈ (node.call c).1.timeouts) (hjob : t.job? = some job) :
    t ∈ node.timeouts ∨
    (∃ topic sent, node.published c = some (topic, sent) ∧ job = node.job topic sent ∧
      t.id = some (topicCrc32 topic)) ∨
    ∃ u fired, u ∈ node.timeouts ∧ u.job? = some fired ∧
      (fired.topic, job) ∈ node.indefiniteJobs ∧ t.id = some fired.rtId := by
  cases node.call_schedules c with
  | idle _ hjobs htimeouts => exact .inl (htimeouts ▸ h)
  | fired i t' _ _ _ hjobs htimeouts =>
    rw [htimeouts] at h
    exact .inl (List.mem_of_mem_eraseIdx h)
  | indefinite topic sent hpub _ hjobs htimeouts =>
    rw [htimeouts] at h
    rcases List.mem_append.mp h with h | h
    · exact .inl (Timers.mem_cancel.mp h).1
    · rw [List.mem_singleton.mp h] at hjob ⊢
      cases hjob
      exact .inr (.inl ⟨topic, sent, hpub, rfl, rfl⟩)
  | finite topic sent resends _ _ hresends hjobs htimeouts =>
    rw [htimeouts] at h
    rcases List.mem_append.mp h with h | h
    · split at h
      · exact .inl (Timers.mem_cancel.mp h).1
      · exact .inl h
    · rw [(hresends t h).2] at hjob
      cases hjob
  | rearmed i u fired next _ hu hfired hnext hjobs htimeouts =>
    rw [htimeouts] at h
    rcases List.mem_append.mp h with h | h
    · exact .inl (List.mem_of_mem_eraseIdx (Timers.mem_cancel.mp h).1)
    · rw [List.mem_singleton.mp h] at hjob ⊢
      cases hjob
      exact .inr (.inr ⟨u, fired, List.mem_of_getElem? hu, hfired, mem_of_lookup hnext, rfl⟩)

/-! ## Jobs and links carry their topic -/

/-- Every job lies under its topic, and every pending link sits in the slot of its topic's
CRC. -/
structure ChainsKeyed (node : MulticastPubSub κ) : Prop where
  jobs : ∀ p ∈ node.indefiniteJobs, p.2.topic = p.1 ∧ p.2.rtId = topicCrc32 p.1
  links : ∀ t ∈ node.timeouts, ∀ job, t.job? = some job →
    t.id = some (topicCrc32 job.topic) ∧ job.rtId = topicCrc32 job.topic

theorem Fresh.chainsKeyed {node : MulticastPubSub κ} (h : Fresh node) : ChainsKeyed node := by
  constructor
  · rw [h.indefiniteJobs]
    exact fun p hp => by cases hp
  · rw [h.timeouts]
    exact fun t ht => by cases ht

/-- The links after an indefinite publish are its own and those of other topics: the slot of its
topic was emptied. -/
theorem ChainsKeyed.link_indefinite {node : MulticastPubSub κ} (h : ChainsKeyed node)
    {topic : Bytes} {sent : Sent} :
    ∀ t ∈ Timers.cancel Timeout.id node.timeouts (topicCrc32 topic) ++
        [⟨some (topicCrc32 topic), node.retransmitDelayMs, .indefinite (node.job topic sent)⟩],
      ∀ job, t.job? = some job →
        (t ∈ node.timeouts ∧ job.topic ≠ topic) ∨ job = node.job topic sent := by
  intro t ht job hjob
  rcases List.mem_append.mp ht with ht | ht
  · obtain ⟨hin, hout⟩ := Timers.mem_cancel.mp ht
    exact .inl ⟨hin, fun heq => hout (heq ▸ (h.links t hin job hjob).1)⟩
  · rw [List.mem_singleton.mp ht] at hjob
    cases hjob
    exact .inr rfl

/-- The links after a finite publish are those of other topics: one of its topic has a job, and
then its slot was emptied. -/
theorem ChainsKeyed.link_finite {node : MulticastPubSub κ} (h : ChainsKeyed node)
    (hjobs : ∀ t ∈ node.timeouts, ∀ job, t.job? = some job →
      node.indefiniteJobs.lookup job.topic ≠ none) {topic : Bytes} {resends : List Timeout}
    (hresends : ∀ t ∈ resends, t.id = none ∧ t.job? = none) :
    ∀ t ∈ (if (node.indefiniteJobs.lookup topic).isSome then
          Timers.cancel Timeout.id node.timeouts (topicCrc32 topic)
        else node.timeouts) ++ resends,
      ∀ job, t.job? = some job → t ∈ node.timeouts ∧ job.topic ≠ topic := by
  intro t ht job hjob
  rcases List.mem_append.mp ht with ht | ht
  · cases hlookup : node.indefiniteJobs.lookup topic with
    | none =>
      rw [hlookup] at ht
      exact ⟨ht, fun heq => hjobs t ht job hjob (heq ▸ hlookup)⟩
    | some job' =>
      rw [hlookup, Option.isSome_some, if_pos rfl] at ht
      obtain ⟨hin, hout⟩ := Timers.mem_cancel.mp ht
      exact ⟨hin, fun heq => hout (heq ▸ (h.links t hin job hjob).1)⟩
  · rw [(hresends t ht).2] at hjob
    cases hjob

theorem call_chainsKeyed (node : MulticastPubSub κ) (c : Call κ) (h : ChainsKeyed node) :
    ChainsKeyed (node.call c).1 := by
  constructor
  · intro p hp
    rcases job_cases hp with hp | ⟨topic, sent, -, rfl⟩
    · exact h.jobs p hp
    · exact ⟨rfl, rfl⟩
  · intro t ht job hjob
    rcases link_cases ht hjob with ht | ⟨topic, sent, -, rfl, hid⟩ | ⟨u, fired, hu, hfired, hmem, hid⟩
    · exact h.links t ht job hjob
    · exact ⟨hid, rfl⟩
    · -- The next link is the job of the same topic, in the same slot.
      obtain ⟨-, hrt⟩ := h.links u hu fired hfired
      obtain ⟨htopic, hnextRt⟩ := h.jobs _ hmem
      exact ⟨by rw [hid, hrt, htopic], by rw [hnextRt, htopic]⟩

theorem exec_chainsKeyed {node : MulticastPubSub κ} (h : ChainsKeyed node)
    (calls : List (Call κ)) : ChainsKeyed (publisher.exec node calls) :=
  Machine.exec_invariant publisher call_chainsKeyed h calls

end MulticastPubSub

end Mpubsub.Node
