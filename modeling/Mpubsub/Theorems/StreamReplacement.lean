import Mpubsub.Theorems.StaleResends
import Mpubsub.Theorems.ChainIndependence

/-!
# A new publish ends the stream of its topic

A publish whose first send fails returns before it schedules anything, and before
`cancel_indefinite_retransmit_`: the chain of an earlier publish goes on. As long as no
publish fails on a topic with a pending link, the links of a topic are those of its
latest publish (`OneChain`), and no older datagram is sent again. The streams of a run
are replaced in every state exactly when no step of it is such a failing publish
(`streams_replaced_iff`).
-/

namespace Mpubsub.Theorems

open Mpubsub.Lib Mpubsub.Wire Mpubsub.Node Mpubsub.Node.MulticastPubSub

variable {κ : Type}

/-! ## The property -/

/-- A publish that passes the socket and the size check. -/
def Checked (node : MulticastPubSub κ) (payload : Bytes) : Prop :=
  node.socket = true ∧ payload.length ≤ node.effectiveMax

instance (node : MulticastPubSub κ) (payload : Bytes) : Decidable (Checked node payload) :=
  inferInstanceAs (Decidable (_ ∧ _))

/-- What the latest checked publish on each topic leaves to be resent without end: its datagram if
the first send succeeded and the publish was indefinite, nothing otherwise. -/
def Ledger.note (latest : Ledger) (node : MulticastPubSub κ) : Call κ → Ledger
  | .event (.publish env topic payload encoding) =>
    if Checked node payload then
      Function.update latest topic
        (if env.sendOk = true ∧ node.retransmitCount = -1 then
          some ⟨node.datagram env topic payload encoding, topicToGroup topic node.scope⟩
        else none)
    else latest
  | _ => latest

/-- A publisher beside the ledger of its checked publishes. -/
def noted : Machine (MulticastPubSub κ × Ledger) (Call κ) (Output κ) :=
  ⟨fun s c => (((s.1.call c).1, s.2.note s.1 c), (s.1.call c).2)⟩

/-- A timer that fires as a link of a topic's chain transmits what the latest checked publish on
the topic left, and the topic has one such timer at most. -/
structure Replaced (s : MulticastPubSub κ × Ledger) : Prop where
  current : ∀ topic sendOk i sent, ChainSends s.1 topic sendOk i sent → s.2 topic = some sent
  single : ∀ topic, (s.1.chain topic).length ≤ 1

/-- A checked publish on a topic with a pending link, whose first send fails. -/
def Lapses (node : MulticastPubSub κ) (c : Call κ) : Prop :=
  ∃ env topic payload encoding, c = .event (.publish env topic payload encoding) ∧
    Checked node payload ∧ env.sendOk = false ∧ node.chain topic ≠ []

/-! ## The ledger -/

theorem note_of_published {node : MulticastPubSub κ} {c : Call κ} {topic : Bytes} {sent : Sent}
    (h : node.published c = some (topic, sent)) (latest : Ledger) :
    latest.note node c =
      Function.update latest topic (if node.retransmitCount = -1 then some sent else none) := by
  unfold MulticastPubSub.published at h
  split at h
  · split at h
    · rename_i env topic' payload encoding haccepted
      cases h
      obtain ⟨hsocket, hsize, hsend⟩ := haccepted
      have hchecked : Checked node payload := ⟨hsocket, hsize⟩
      simp only [Ledger.note, if_pos hchecked, hsend, true_and]
    · cases h
  · cases h

/-- A call that sends nothing leaves the ledger alone, or is a failing publish on a topic without
a pending link. -/
theorem note_of_not_published {node : MulticastPubSub κ} {c : Call κ}
    (h : node.published c = none) (hc : ¬Lapses node c) (latest : Ledger) {topic : Bytes}
    (hlive : node.chain topic ≠ []) : latest.note node c topic = latest topic := by
  unfold Ledger.note
  split
  · rename_i env topic' payload encoding
    split
    · rename_i hchecked
      have hsend : env.sendOk = false := by
        rw [← Bool.not_eq_true]
        intro hsend
        have haccepted : node.Accepted env payload := ⟨hchecked.1, hchecked.2, hsend⟩
        rw [MulticastPubSub.published, if_pos haccepted] at h
        cases h
      refine Function.update_of_ne ?_ _ _
      rintro rfl
      exact hc ⟨env, topic, payload, encoding, rfl, hchecked, hsend, hlive⟩
    · rfl
  · rfl

/-! ## The invariant -/

/-- Every slot holds one timer at most, and every pending link is one of the job of its topic,
which is the latest publish there. -/
structure OneChain (node : MulticastPubSub κ) (latest : Ledger) : Prop where
  keyed : ChainsKeyed node
  single : ∀ i, (Timers.occupants Timeout.id node.timeouts i).length ≤ 1
  registered : ∀ t ∈ node.timeouts, ∀ job, t.job? = some job →
    (node.indefiniteJobs.lookup job.topic).map IndefiniteJob.sent = some job.sent
  latest_eq : ∀ t ∈ node.timeouts, ∀ job, t.job? = some job →
    latest job.topic = some job.sent

theorem chain_ne_nil {node : MulticastPubSub κ} {t : Timeout} (ht : t ∈ node.timeouts)
    {job : IndefiniteJob} (hjob : t.job? = some job) : node.chain job.topic ≠ [] :=
  List.ne_nil_of_mem
    (List.mem_filter.mpr ⟨List.mem_filterMap.mpr ⟨t, ht, hjob⟩, decide_eq_true rfl⟩)

theorem OneChain.replaced {node : MulticastPubSub κ} {latest : Ledger}
    (h : OneChain node latest) : Replaced (node, latest) := by
  constructor
  · intro topic sendOk i sent hsends
    obtain ⟨t, ht, job, hjob, rfl, rfl⟩ := sent_of_chainSends hsends
    exact h.latest_eq t ht job hjob
  · intro topic
    show (node.chain topic).length ≤ 1
    rw [chain_eq_occupants h.keyed]
    calc _ ≤ _ := List.length_filter_le ..
      _ ≤ _ := List.length_filterMap_le ..
      _ ≤ 1 := h.single _

theorem oneChain_fresh {node : MulticastPubSub κ} (h : Fresh node) :
    OneChain node fun _ => none := by
  have htimeouts {P : Timeout → Prop} : ∀ t ∈ node.timeouts, P t := by
    rw [h.timeouts]
    exact fun _ ht => by cases ht
  refine ⟨h.chainsKeyed, ?_, htimeouts, htimeouts⟩
  rw [h.timeouts]
  exact fun i => Nat.zero_le 1

section Step

variable {node : MulticastPubSub κ} {latest : Ledger} {c : Call κ}

/-- A new link in its slot. -/
theorem single_link {ts : List Timeout} (h : ∀ i, (Timers.occupants Timeout.id ts i).length ≤ 1)
    (id delay : UInt32) (fn : TimeoutFn) (i : UInt32) :
    (Timers.occupants Timeout.id (Timers.cancel Timeout.id ts id ++ [⟨some id, delay, fn⟩])
      i).length ≤ 1 := by
  by_cases hi : i = id
  · rw [hi, occupants_link_self, Timers.occupants_cancel_self]
    exact Nat.le_refl 1
  · rw [occupants_link_of_ne _ hi, Timers.occupants_cancel_of_ne hi]
    exact h i

theorem OneChain.indefinite (h : OneChain node latest) {topic : Bytes} {sent : Sent}
    (hpub : node.published c = some (topic, sent)) (hcount : node.retransmitCount = -1)
    (hjobs : (node.call c).1.indefiniteJobs =
      node.indefiniteJobs.filter (fun job => job.1 ≠ topic) ++ [(topic, node.job topic sent)])
    (htimeouts : (node.call c).1.timeouts =
      Timers.cancel Timeout.id node.timeouts (topicCrc32 topic) ++
        [⟨some (topicCrc32 topic), node.retransmitDelayMs, .indefinite (node.job topic sent)⟩]) :
    OneChain (node.call c).1 (latest.note node c) := by
  have hnote := note_of_published hpub latest
  rw [if_pos hcount] at hnote
  have hlink : ∀ t ∈ (node.call c).1.timeouts, ∀ job, t.job? = some job →
      (t ∈ node.timeouts ∧ job.topic ≠ topic) ∨ job = node.job topic sent := by
    rw [htimeouts]
    exact h.keyed.link_indefinite
  constructor
  · exact call_chainsKeyed node c h.keyed
  · intro i
    rw [htimeouts]
    exact single_link h.single _ _ _ i
  · intro t ht job hjob
    rw [hjobs, lookup_append_singleton]
    rcases hlink t ht job hjob with ⟨hin, hne⟩ | rfl
    · rw [if_neg hne, lookup_filter_of_ne _ hne, Option.or_none]
      exact h.registered t hin job hjob
    · rw [show (node.job topic sent).topic = topic from rfl, lookup_filter_self, if_pos rfl]
      rfl
  · intro t ht job hjob
    rw [hnote]
    rcases hlink t ht job hjob with ⟨hin, hne⟩ | rfl
    · rw [Function.update_of_ne hne]
      exact h.latest_eq t hin job hjob
    · exact Function.update_self ..

theorem OneChain.finite (h : OneChain node latest) {topic : Bytes} {sent : Sent}
    {resends : List Timeout} (hpub : node.published c = some (topic, sent))
    (hcount : node.retransmitCount ≠ -1) (hresends : ∀ t ∈ resends, t.id = none ∧ t.job? = none)
    (hjobs : (node.call c).1.indefiniteJobs =
      node.indefiniteJobs.filter fun job => job.1 ≠ topic)
    (htimeouts : (node.call c).1.timeouts =
      (if (node.indefiniteJobs.lookup topic).isSome then
          Timers.cancel Timeout.id node.timeouts (topicCrc32 topic)
        else node.timeouts) ++ resends) :
    OneChain (node.call c).1 (latest.note node c) := by
  have hnote := note_of_published hpub latest
  rw [if_neg hcount] at hnote
  have hlink : ∀ t ∈ (node.call c).1.timeouts, ∀ job, t.job? = some job →
      t ∈ node.timeouts ∧ job.topic ≠ topic := by
    rw [htimeouts]
    refine h.keyed.link_finite (fun t ht job hjob hnone => ?_) hresends
    have hreg := h.registered t ht job hjob
    rw [hnone] at hreg
    cases hreg
  constructor
  · exact call_chainsKeyed node c h.keyed
  · intro i
    rw [htimeouts, Timers.occupants_append,
      occupants_of_no_slot (fun t ht => (hresends t ht).1), List.append_nil]
    split
    · calc _ ≤ _ := ((List.filter_sublist (l := node.timeouts)).filter _).length_le
        _ ≤ 1 := h.single i
    · exact h.single i
  · intro t ht job hjob
    obtain ⟨hin, hne⟩ := hlink t ht job hjob
    rw [hjobs, lookup_filter_of_ne _ hne]
    exact h.registered t hin job hjob
  · intro t ht job hjob
    obtain ⟨hin, hne⟩ := hlink t ht job hjob
    rw [hnote, Function.update_of_ne hne]
    exact h.latest_eq t hin job hjob

/-- A call that publishes nothing and arms no link. -/
theorem OneChain.kept (h : OneChain node latest) (hpub : node.published c = none)
    (hc : ¬Lapses node c) (hjobs : (node.call c).1.indefiniteJobs = node.indefiniteJobs)
    (hsub : (node.call c).1.timeouts.Sublist node.timeouts) :
    OneChain (node.call c).1 (latest.note node c) := by
  constructor
  · exact call_chainsKeyed node c h.keyed
  · exact fun i => ((hsub.filter _).length_le).trans (h.single i)
  · intro t ht job hjob
    rw [hjobs]
    exact h.registered t (hsub.subset ht) job hjob
  · intro t ht job hjob
    have hin := hsub.subset ht
    rw [note_of_not_published hpub hc latest (chain_ne_nil hin hjob)]
    exact h.latest_eq t hin job hjob

theorem OneChain.rearmed (h : OneChain node latest) {i : Nat} {t : Timeout}
    {job next : IndefiniteJob} (hpub : node.published c = none) (hc : ¬Lapses node c)
    (ht : node.timeouts[i]? = some t) (hjob : t.job? = some job)
    (hnext : node.indefiniteJobs.lookup job.topic = some next)
    (hjobs : (node.call c).1.indefiniteJobs = node.indefiniteJobs)
    (htimeouts : (node.call c).1.timeouts =
      Timers.cancel Timeout.id (node.timeouts.eraseIdx i) job.rtId ++
        [⟨some job.rtId, job.delay, .indefinite next⟩]) :
    OneChain (node.call c).1 (latest.note node c) := by
  have hin : t ∈ node.timeouts := List.mem_of_getElem? ht
  -- The next link resends what the fired one did.
  have hreg := h.registered t hin job hjob
  rw [hnext, Option.map_some] at hreg
  have hsent : next.sent = job.sent := Option.some.inj hreg
  have htopic : next.topic = job.topic := (h.keyed.jobs _ (mem_of_lookup hnext)).1
  have hlink : ∀ u ∈ (node.call c).1.timeouts, ∀ j, u.job? = some j →
      ∃ v ∈ node.timeouts, ∃ j', v.job? = some j' ∧ j.topic = j'.topic ∧ j.sent = j'.sent := by
    intro u hu j hj
    rw [htimeouts] at hu
    rcases List.mem_append.mp hu with hu | hu
    · exact ⟨u, List.mem_of_mem_eraseIdx (Timers.mem_cancel.mp hu).1, j, hj, rfl, rfl⟩
    · rw [List.mem_singleton.mp hu] at hj
      cases hj
      exact ⟨t, hin, job, hjob, htopic, hsent⟩
  constructor
  · exact call_chainsKeyed node c h.keyed
  · intro s
    rw [htimeouts]
    refine single_link (fun s => ?_) _ _ _ s
    exact ((List.eraseIdx_sublist _ _).filter _).length_le.trans (h.single s)
  · intro u hu j hj
    obtain ⟨v, hv, j', hj', htopic', hsent'⟩ := hlink u hu j hj
    rw [hjobs, htopic', hsent']
    exact h.registered v hv j' hj'
  · intro u hu j hj
    obtain ⟨v, hv, j', hj', htopic', hsent'⟩ := hlink u hu j hj
    rw [htopic', hsent', note_of_not_published hpub hc latest (chain_ne_nil hv hj')]
    exact h.latest_eq v hv j' hj'

theorem call_oneChain (h : OneChain node latest) (hc : ¬Lapses node c) :
    OneChain (node.call c).1 (latest.note node c) := by
  cases node.call_schedules c with
  | indefinite topic sent hpub hcount hjobs htimeouts =>
    exact h.indefinite hpub hcount hjobs htimeouts
  | finite topic sent resends hpub hcount hresends hjobs htimeouts =>
    exact h.finite hpub hcount hresends hjobs htimeouts
  | fired i t hpub ht hend hjobs htimeouts =>
    exact h.kept hpub hc hjobs (htimeouts ▸ List.eraseIdx_sublist _ _)
  | rearmed i t job next hpub ht hjob hnext hjobs htimeouts =>
    exact h.rearmed hpub hc ht hjob hnext hjobs htimeouts
  | idle hpub hjobs htimeouts => exact h.kept hpub hc hjobs (htimeouts ▸ List.Sublist.refl _)

end Step

/-! ## The condition is exact -/

/-- A pending link sends when it fires, and there is a socket. -/
theorem chainSends_of_chain_ne_nil {node : MulticastPubSub κ} (hsocket : node.socket = true)
    {topic : Bytes} (h : node.chain topic ≠ []) : ∃ i sent, ChainSends node topic true i sent := by
  obtain ⟨job, hjob⟩ := List.exists_mem_of_ne_nil _ h
  obtain ⟨hmem, htopic⟩ := List.mem_filter.mp hjob
  obtain ⟨t, ht, hjob⟩ := List.mem_filterMap.mp hmem
  obtain ⟨i, hi⟩ := List.getElem?_of_mem ht
  refine ⟨i, job.sent, ⟨t, job, hi, hjob, of_decide_eq_true htopic⟩, ?_⟩
  have hfn := Timeout.fn_of_job? hjob
  unfold fireTimeout
  simp only [hi, hfn, sendDatagram, hsocket, Bool.not_true, Bool.false_eq_true, if_false]
  split
  · exact List.mem_singleton_self _
  · exact List.mem_singleton_self _

/-- A failing publish leaves the pending link of its topic, and the ledger has nothing there. -/
theorem not_replaced_of_lapses {node : MulticastPubSub κ} {latest : Ledger} {c : Call κ}
    (hc : Lapses node c) : ¬Replaced ((node.call c).1, latest.note node c) := by
  obtain ⟨env, topic, payload, encoding, rfl, hchecked, hsend, hlive⟩ := hc
  intro hreplaced
  have hnone : latest.note node (.event (.publish env topic payload encoding)) topic = none := by
    simp only [Ledger.note, if_pos hchecked, hsend, Bool.false_eq_true, false_and, if_false]
    exact Function.update_self ..
  have hstate : (node.publish env topic payload encoding).1 = node := by
    obtain ⟨hsocket, hsize⟩ := hchecked
    unfold publish
    rw [if_neg (by simp [hsocket]), if_neg (by omega)]
    simp [sendDatagram, hsocket, hsend]
  obtain ⟨i, sent, hsends⟩ := chainSends_of_chain_ne_nil hchecked.1 hlive
  have hcurrent := hreplaced.current topic true i sent (hstate.symm ▸ hsends)
  cases hnone.symm.trans hcurrent

/-- An indefinite publish on "t", and one whose first send fails. -/
def failingCalls : List (Call Unit) :=
  [.setRetransmitCount (-1), .event (.publish {} [116] [1] .RAW),
    .event (.publish { sendOk := false } [116] [2] .RAW)]

/-- After them, the first payload is still sent when the timer fires. -/
theorem stream_survives_failing_publish :
    ¬Replaced (noted.exec (({ socket := true } : MulticastPubSub Unit), fun _ => none)
      failingCalls) := by
  refine not_replaced_of_lapses ⟨_, _, _, _, rfl, ⟨rfl, by decide⟩, rfl, ?_⟩
  exact List.cons_ne_nil _ _

/-- Every timer that fires in a run transmits what the latest publish on its topic left to be
resent if and only if no publish of the run fails on a topic with a pending link. -/
theorem streams_replaced_iff {start : MulticastPubSub κ} (hstart : Fresh start)
    (calls : List (Call κ)) :
    (∀ before, before <+: calls → Replaced (noted.exec (start, fun _ => none) before)) ↔
      noted.Along (fun s c => ¬Lapses s.1 c) (start, fun _ => none) calls :=
  noted.forall_exec_iff_along (I := fun s => OneChain s.1 s.2) (fun _ hs => hs.replaced)
    (fun _ _ hs hc => call_oneChain hs hc)
    (fun _ _ _ hc => not_replaced_of_lapses (not_not.mp hc)) (oneChain_fresh hstart) calls

/-- `streams_replaced_iff` for an indefinite publish and a finite one after it. -/
theorem streams_replaced_iff_superseded :
    Replaced (noted.exec (({ socket := true } : MulticastPubSub Unit), fun _ => none)
      supersedingCalls) := by
  refine (streams_replaced_iff ⟨rfl, rfl, rfl, 0, rfl⟩ supersedingCalls).mpr ?_ _
    (List.prefix_refl _)
  refine ⟨?_, ?_, ?_, ?_, trivial⟩
  · rintro ⟨_, _, _, _, hc, -⟩
    cases hc
  · rintro ⟨_, _, _, _, -, -, -, hlive⟩
    exact hlive rfl
  · rintro ⟨_, _, _, _, hc, -⟩
    cases hc
  · rintro ⟨_, _, _, _, hc, -, hsend, -⟩
    cases hc
    cases hsend

end Mpubsub.Theorems
