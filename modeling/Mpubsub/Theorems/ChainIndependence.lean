import Mpubsub.Node.Retransmit
import Mpubsub.Theorems.TopicIsolation

/-!
# Independence of the indefinite chains

The jobs are keyed by the topic, the scheduler's slots by the CRC of the topic. As long
as no indefinite publish meets a job of another topic with its CRC, the two agree
(`ChainsTied`), and every topic has the chain that its latest publish asked for. An
indefinite publish that does meet one throws the other topic's link out of its slot.
So the chains of a run are right in every state exactly when no step of it is such a
publish (`chains_independent_iff`).
-/

namespace Mpubsub.Theorems

open Mpubsub.Lib Mpubsub.Wire Mpubsub.Node Mpubsub.Node.MulticastPubSub

variable {κ : Type}

/-! ## The property -/

/-- What every topic's chain should resend: the latest accepted publish on the topic if it was
indefinite, nothing otherwise. -/
abbrev Ledger := Bytes → Option Sent

def Ledger.record (latest : Ledger) (node : MulticastPubSub κ) (c : Call κ) : Ledger :=
  match node.published c with
  | some (topic, sent) =>
    Function.update latest topic (if node.retransmitCount = -1 then some sent else none)
  | none => latest

/-- A publisher beside its ledger. -/
def recorded : Machine (MulticastPubSub κ × Ledger) (Call κ) (Output κ) :=
  ⟨fun s c => (((s.1.call c).1, s.2.record s.1 c), (s.1.call c).2)⟩

/-- Every topic has one pending link if its latest publish was indefinite, which resends that
publish, and none otherwise. -/
def ChainsMatch (s : MulticastPubSub κ × Ledger) : Prop :=
  ∀ topic, (s.1.chain topic).map IndefiniteJob.sent = (s.2 topic).toList

/-- An accepted indefinite publish, while another topic with the same CRC has a job. -/
def Collides (node : MulticastPubSub κ) (c : Call κ) : Prop :=
  ∃ topic sent, node.published c = some (topic, sent) ∧ node.retransmitCount = -1 ∧
    ∃ p ∈ node.indefiniteJobs, p.1 ≠ topic ∧ topicCrc32 p.1 = topicCrc32 topic

/-! ## The invariant -/

/-- Jobs, slots and ledger agree. -/
structure ChainsTied (node : MulticastPubSub κ) (latest : Ledger) : Prop where
  keyed : ChainsKeyed node
  nodup : (node.indefiniteJobs.map Prod.fst).Nodup
  crc_inj : ∀ p ∈ node.indefiniteJobs, ∀ q ∈ node.indefiniteJobs,
    topicCrc32 p.1 = topicCrc32 q.1 → p.1 = q.1
  slot : ∀ p ∈ node.indefiniteJobs,
    (Timers.occupants Timeout.id node.timeouts (topicCrc32 p.1)).map Timeout.job? = [some p.2]
  links : ∀ t ∈ node.timeouts, ∀ job, t.job? = some job → (job.topic, job) ∈ node.indefiniteJobs
  latest_eq : ∀ topic, latest topic = (node.indefiniteJobs.lookup topic).map IndefiniteJob.sent

/-- The links of a topic are those in the slot of its CRC. -/
theorem chain_eq_occupants {node : MulticastPubSub κ} (h : ChainsKeyed node) (topic : Bytes) :
    node.chain topic =
      ((Timers.occupants Timeout.id node.timeouts (topicCrc32 topic)).filterMap
        Timeout.job?).filter fun job => job.topic = topic := by
  have hlinks := h.links
  unfold chain
  generalize node.timeouts = ts at hlinks ⊢
  induction ts with
  | nil => rfl
  | cons t ts ih =>
    have ih := ih fun t ht => hlinks t (List.mem_cons_of_mem _ ht)
    unfold Timers.occupants at ih ⊢
    by_cases hslot : t.id = some (topicCrc32 topic)
    · rw [List.filter_cons_of_pos (by simpa using hslot)]
      cases hjob : t.job? with
      | none => rw [List.filterMap_cons_none hjob, List.filterMap_cons_none hjob, ih]
      | some job =>
        rw [List.filterMap_cons_some hjob, List.filterMap_cons_some hjob, List.filter_cons,
          List.filter_cons, ih]
    · rw [List.filter_cons_of_neg (by simpa using hslot), ← ih]
      cases hjob : t.job? with
      | none => rw [List.filterMap_cons_none hjob]
      | some job =>
        have hid := (hlinks t List.mem_cons_self job hjob).1
        have hne : job.topic ≠ topic := fun heq => hslot (heq ▸ hid)
        rw [List.filterMap_cons_some hjob, List.filter_cons_of_neg (by simpa using hne)]

/-- Where all agree, the chains are those of the ledger. -/
theorem ChainsTied.chainsMatch {node : MulticastPubSub κ} {latest : Ledger}
    (h : ChainsTied node latest) : ChainsMatch (node, latest) := by
  intro topic
  show (node.chain topic).map IndefiniteJob.sent = (latest topic).toList
  rw [h.latest_eq]
  cases hlookup : node.indefiniteJobs.lookup topic with
  | none =>
    have hnil : node.chain topic = [] := by
      refine List.filter_eq_nil_iff.mpr ?_
      intro job hjob
      obtain ⟨t, ht, hjob⟩ := List.mem_filterMap.mp hjob
      simpa using lookup_eq_none_iff_forall.mp hlookup _ (h.links t ht job hjob)
    rw [hnil]
    rfl
  | some job =>
    have hmem := mem_of_lookup hlookup
    have hslot := h.slot _ hmem
    rw [chain_eq_occupants h.keyed]
    obtain ⟨t, hone, hjob⟩ := List.map_eq_singleton_iff.mp hslot
    have htopic : job.topic = topic := (h.keyed.jobs _ hmem).1
    rw [hone, List.filterMap_cons_some hjob, List.filterMap_nil,
      List.filter_cons_of_pos (by simpa using htopic), List.filter_nil]
    rfl

/-! ## What a call keeps -/

theorem chainsTied_fresh {node : MulticastPubSub κ} (h : Fresh node) :
    ChainsTied node fun _ => none := by
  have hjobs {P : Bytes × IndefiniteJob → Prop} : ∀ p ∈ node.indefiniteJobs, P p := by
    rw [h.indefiniteJobs]
    exact fun _ hp => by cases hp
  constructor
  · exact h.chainsKeyed
  · rw [h.indefiniteJobs]
    exact List.nodup_nil
  · exact hjobs
  · exact hjobs
  · rw [h.timeouts]
    exact fun _ ht => by cases ht
  · intro topic
    rw [h.indefiniteJobs]
    rfl

theorem record_of_published {node : MulticastPubSub κ} {c : Call κ} {topic : Bytes} {sent : Sent}
    (h : node.published c = some (topic, sent)) (latest : Ledger) :
    latest.record node c =
      Function.update latest topic (if node.retransmitCount = -1 then some sent else none) := by
  rw [Ledger.record, h]

theorem record_of_not_published {node : MulticastPubSub κ} {c : Call κ}
    (h : node.published c = none) (latest : Ledger) : latest.record node c = latest := by
  rw [Ledger.record, h]

/-- A timeout without a slot occupies none. -/
theorem occupants_of_no_slot {ts : List Timeout} (h : ∀ t ∈ ts, t.id = none) (i : UInt32) :
    Timers.occupants Timeout.id ts i = [] :=
  Timers.occupants_eq_nil fun t ht heq => by rw [h t ht] at heq; cases heq

/-- The new link is in its slot, behind what is there. -/
theorem occupants_link_self (ts : List Timeout) (id delay : UInt32) (fn : TimeoutFn) :
    Timers.occupants Timeout.id (ts ++ [⟨some id, delay, fn⟩]) id =
      Timers.occupants Timeout.id ts id ++ [⟨some id, delay, fn⟩] :=
  Timers.occupants_concat_self ts rfl

theorem occupants_link_of_ne (ts : List Timeout) {i id : UInt32} (h : i ≠ id) (delay : UInt32)
    (fn : TimeoutFn) :
    Timers.occupants Timeout.id (ts ++ [⟨some id, delay, fn⟩]) i =
      Timers.occupants Timeout.id ts i :=
  Timers.occupants_concat_of_ne ts fun heq => h (Option.some.inj heq).symm

section Step

variable {node : MulticastPubSub κ} {latest : Ledger} {c : Call κ}

/-- An indefinite publish that meets no other topic's job. -/
theorem ChainsTied.indefinite (h : ChainsTied node latest) {topic : Bytes} {sent : Sent}
    (hpub : node.published c = some (topic, sent)) (hcount : node.retransmitCount = -1)
    (hc : ¬Collides node c)
    (hjobs : (node.call c).1.indefiniteJobs =
      node.indefiniteJobs.filter (fun job => job.1 ≠ topic) ++ [(topic, node.job topic sent)])
    (htimeouts : (node.call c).1.timeouts =
      Timers.cancel Timeout.id node.timeouts (topicCrc32 topic) ++
        [⟨some (topicCrc32 topic), node.retransmitDelayMs, .indefinite (node.job topic sent)⟩]) :
    ChainsTied (node.call c).1 (latest.record node c) := by
  -- The publish takes the slot of its CRC, which no other topic with a job has.
  have hother : ∀ p ∈ node.indefiniteJobs, p.1 ≠ topic → topicCrc32 p.1 ≠ topicCrc32 topic :=
    fun p hp hne heq => hc ⟨topic, sent, hpub, hcount, p, hp, hne, heq⟩
  have hmem : ∀ p, p ∈ (node.call c).1.indefiniteJobs →
      (p ∈ node.indefiniteJobs ∧ p.1 ≠ topic) ∨ p = (topic, node.job topic sent) := by
    intro p hp
    rw [hjobs] at hp
    rcases List.mem_append.mp hp with hp | hp
    · obtain ⟨hin, hne⟩ := List.mem_filter.mp hp
      exact .inl ⟨hin, of_decide_eq_true hne⟩
    · exact .inr (List.mem_singleton.mp hp)
  constructor
  · exact call_chainsKeyed node c h.keyed
  · rw [hjobs, List.map_append]
    refine (h.nodup.sublist (List.filter_sublist.map _)).append (List.nodup_singleton topic) ?_
    rw [List.map_singleton, List.disjoint_singleton]
    intro hin
    obtain ⟨p, hp, rfl⟩ := List.mem_map.mp hin
    exact of_decide_eq_true (List.mem_filter.mp hp).2 rfl
  · intro p hp q hq heq
    rcases hmem p hp with ⟨hp, hpne⟩ | rfl
    · rcases hmem q hq with ⟨hq, -⟩ | rfl
      · exact h.crc_inj p hp q hq heq
      · exact absurd heq (hother p hp hpne)
    · rcases hmem q hq with ⟨hq, hqne⟩ | rfl
      · exact absurd heq.symm (hother q hq hqne)
      · rfl
  · intro p hp
    rw [htimeouts]
    rcases hmem p hp with ⟨hp, hne⟩ | rfl
    · have hslot := hother p hp hne
      rw [occupants_link_of_ne _ hslot, Timers.occupants_cancel_of_ne hslot]
      exact h.slot p hp
    · rw [occupants_link_self, Timers.occupants_cancel_self]
      rfl
  · intro t ht job hjob
    rw [htimeouts] at ht
    rw [hjobs]
    rcases h.keyed.link_indefinite t ht job hjob with ⟨hin, hne⟩ | rfl
    · refine List.mem_append_left _ (List.mem_filter.mpr ⟨h.links t hin job hjob, ?_⟩)
      exact decide_eq_true hne
    · exact List.mem_append_right _ (List.mem_singleton_self _)
  · intro other
    rw [record_of_published hpub, if_pos hcount, hjobs, lookup_append_singleton]
    by_cases hother : other = topic
    · rw [hother, Function.update_self, if_pos rfl, lookup_filter_self]
      rfl
    · rw [Function.update_of_ne hother, if_neg hother, lookup_filter_of_ne _ hother,
        h.latest_eq, Option.or_none]

/-- A finite publish. -/
theorem ChainsTied.finite (h : ChainsTied node latest) {topic : Bytes} {sent : Sent}
    {resends : List Timeout} (hpub : node.published c = some (topic, sent))
    (hcount : node.retransmitCount ≠ -1) (hresends : ∀ t ∈ resends, t.id = none ∧ t.job? = none)
    (hjobs : (node.call c).1.indefiniteJobs =
      node.indefiniteJobs.filter fun job => job.1 ≠ topic)
    (htimeouts : (node.call c).1.timeouts =
      (if (node.indefiniteJobs.lookup topic).isSome then
          Timers.cancel Timeout.id node.timeouts (topicCrc32 topic)
        else node.timeouts) ++ resends) :
    ChainsTied (node.call c).1 (latest.record node c) := by
  have hmem : ∀ p, p ∈ (node.call c).1.indefiniteJobs → p ∈ node.indefiniteJobs ∧ p.1 ≠ topic := by
    intro p hp
    rw [hjobs] at hp
    obtain ⟨hin, hne⟩ := List.mem_filter.mp hp
    exact ⟨hin, of_decide_eq_true hne⟩
  constructor
  · exact call_chainsKeyed node c h.keyed
  · rw [hjobs]
    exact h.nodup.sublist (List.filter_sublist.map _)
  · exact fun p hp q hq heq => h.crc_inj p (hmem p hp).1 q (hmem q hq).1 heq
  · intro p hp
    obtain ⟨hp, hne⟩ := hmem p hp
    rw [htimeouts, Timers.occupants_append,
      occupants_of_no_slot (fun t ht => (hresends t ht).1), List.append_nil]
    cases hlookup : node.indefiniteJobs.lookup topic with
    | none => exact h.slot p hp
    | some job =>
      have hslot : topicCrc32 p.1 ≠ topicCrc32 topic := fun heq =>
        hne (h.crc_inj p hp _ (mem_of_lookup hlookup) heq)
      rw [Option.isSome_some, if_pos rfl, Timers.occupants_cancel_of_ne hslot]
      exact h.slot p hp
  · intro t ht job hjob
    rw [htimeouts] at ht
    rw [hjobs]
    have hregistered : ∀ t ∈ node.timeouts, ∀ job, t.job? = some job →
        node.indefiniteJobs.lookup job.topic ≠ none := fun t ht job hjob hnone =>
      lookup_eq_none_iff_forall.mp hnone _ (h.links t ht job hjob) rfl
    obtain ⟨hin, hne⟩ := h.keyed.link_finite hregistered hresends t ht job hjob
    exact List.mem_filter.mpr ⟨h.links t hin job hjob, decide_eq_true hne⟩
  · intro other
    rw [record_of_published hpub, if_neg hcount, hjobs]
    by_cases hother : other = topic
    · rw [hother, Function.update_self, lookup_filter_self]
      rfl
    · rw [Function.update_of_ne hother, lookup_filter_of_ne _ hother, h.latest_eq]

/-- A timeout that is no link of a chain. -/
theorem ChainsTied.fired (h : ChainsTied node latest) {i : Nat} {t : Timeout}
    (hpub : node.published c = none) (ht : node.timeouts[i]? = some t)
    (hend : ∀ job, t.job? = some job → node.indefiniteJobs.lookup job.topic = none)
    (hjobs : (node.call c).1.indefiniteJobs = node.indefiniteJobs)
    (htimeouts : (node.call c).1.timeouts = node.timeouts.eraseIdx i) :
    ChainsTied (node.call c).1 (latest.record node c) := by
  have hin : t ∈ node.timeouts := List.mem_of_getElem? ht
  have hnone : t.job? = none := by
    cases hjob : t.job? with
    | none => rfl
    | some job =>
      exact absurd rfl (lookup_eq_none_iff_forall.mp (hend job hjob) _ (h.links t hin job hjob))
  constructor
  · exact call_chainsKeyed node c h.keyed
  · rw [hjobs]
    exact h.nodup
  · rw [hjobs]
    exact h.crc_inj
  · intro p hp
    rw [hjobs] at hp
    have hslot : t.id ≠ some (topicCrc32 p.1) := by
      intro hid
      obtain ⟨u, hone, hjob⟩ := List.map_eq_singleton_iff.mp (h.slot p hp)
      have hmem : t ∈ Timers.occupants Timeout.id node.timeouts (topicCrc32 p.1) :=
        Timers.mem_occupants.mpr ⟨hin, hid⟩
      rw [hone, List.mem_singleton] at hmem
      rw [← hmem, hnone] at hjob
      cases hjob
    rw [htimeouts, Timers.occupants_eraseIdx_of_ne ht hslot]
    exact h.slot p hp
  · intro u hu
    rw [htimeouts] at hu
    rw [hjobs]
    exact h.links u (List.mem_of_mem_eraseIdx hu)
  · intro topic
    rw [record_of_not_published hpub, hjobs]
    exact h.latest_eq topic

/-- A link of a chain, which arms the next one in its slot. -/
theorem ChainsTied.rearmed (h : ChainsTied node latest) {i : Nat} {t : Timeout}
    {job next : IndefiniteJob} (hpub : node.published c = none)
    (ht : node.timeouts[i]? = some t) (hjob : t.job? = some job)
    (hnext : node.indefiniteJobs.lookup job.topic = some next)
    (hjobs : (node.call c).1.indefiniteJobs = node.indefiniteJobs)
    (htimeouts : (node.call c).1.timeouts =
      Timers.cancel Timeout.id (node.timeouts.eraseIdx i) job.rtId ++
        [⟨some job.rtId, job.delay, .indefinite next⟩]) :
    ChainsTied (node.call c).1 (latest.record node c) := by
  have hin : t ∈ node.timeouts := List.mem_of_getElem? ht
  have hmem := h.links t hin job hjob
  obtain ⟨hid, hrt⟩ := h.keyed.links t hin job hjob
  have hsame : next = job := by
    rw [lookup_of_mem h.nodup hmem] at hnext
    exact (Option.some.inj hnext).symm
  subst hsame
  constructor
  · exact call_chainsKeyed node c h.keyed
  · rw [hjobs]
    exact h.nodup
  · rw [hjobs]
    exact h.crc_inj
  · intro p hp
    rw [hjobs] at hp
    rw [htimeouts, hrt]
    by_cases hslot : topicCrc32 p.1 = topicCrc32 next.topic
    · have htopic := h.crc_inj p hp _ hmem hslot
      have hp2 : p.2 = next := by
        have hlookup := lookup_of_mem h.nodup (show (p.1, p.2) ∈ node.indefiniteJobs from hp)
        rw [htopic, hnext] at hlookup
        exact (Option.some.inj hlookup).symm
      rw [hslot, occupants_link_self, Timers.occupants_cancel_self, hp2]
      rfl
    · rw [occupants_link_of_ne _ hslot, Timers.occupants_cancel_of_ne hslot,
        Timers.occupants_eraseIdx_of_ne ht]
      · exact h.slot p hp
      · rw [hid]
        exact fun heq => hslot (Option.some.inj heq).symm
  · intro u hu job' hjob'
    rw [htimeouts] at hu
    rw [hjobs]
    rcases List.mem_append.mp hu with hu | hu
    · exact h.links u (List.mem_of_mem_eraseIdx (Timers.mem_cancel.mp hu).1) job' hjob'
    · rw [List.mem_singleton.mp hu] at hjob'
      cases hjob'
      exact hmem
  · intro topic
    rw [record_of_not_published hpub, hjobs]
    exact h.latest_eq topic

theorem call_chainsTied (h : ChainsTied node latest) (hc : ¬Collides node c) :
    ChainsTied (node.call c).1 (latest.record node c) := by
  cases node.call_schedules c with
  | indefinite topic sent hpub hcount hjobs htimeouts =>
    exact h.indefinite hpub hcount hc hjobs htimeouts
  | finite topic sent resends hpub hcount hresends hjobs htimeouts =>
    exact h.finite hpub hcount hresends hjobs htimeouts
  | fired i t hpub ht hend hjobs htimeouts => exact h.fired hpub ht hend hjobs htimeouts
  | rearmed i t job next hpub ht hjob hnext hjobs htimeouts =>
    exact h.rearmed hpub ht hjob hnext hjobs htimeouts
  | idle hpub hjobs htimeouts =>
    rw [record_of_not_published hpub]
    exact ⟨call_chainsKeyed node c h.keyed, by rw [hjobs]; exact h.nodup,
      by rw [hjobs]; exact h.crc_inj, by rw [hjobs, htimeouts]; exact h.slot,
      by rw [hjobs, htimeouts]; exact h.links, by rw [hjobs]; exact h.latest_eq⟩

end Step

/-! ## The condition is exact -/

/-- An indefinite publish that meets another topic's job throws its link out. -/
theorem not_chainsMatch_of_collides {node : MulticastPubSub κ} {latest : Ledger}
    (h : ChainsTied node latest) {c : Call κ} (hc : Collides node c) :
    ¬ChainsMatch ((node.call c).1, latest.record node c) := by
  obtain ⟨topic, sent, hpub, hcount, p, hp, hne, hcrc⟩ := hc
  intro hmatch
  have hchain := hmatch p.1
  have hdue : latest.record node c p.1 = some p.2.sent := by
    rw [record_of_published hpub, Function.update_of_ne hne, h.latest_eq,
      lookup_of_mem h.nodup (show (p.1, p.2) ∈ node.indefiniteJobs from hp), Option.map_some]
  obtain ⟨job, hjob, -⟩ : ∃ job, (node.call c).1.chain p.1 = [job] ∧ job.sent = p.2.sent := by
    refine List.map_eq_singleton_iff.mp ?_
    exact hchain.trans (congrArg Option.toList hdue)
  -- That link would be in the slot, which holds the new topic's link only.
  have hmem : job ∈ (node.call c).1.chain p.1 := hjob ▸ List.mem_singleton_self job
  rw [chain_eq_occupants (call_chainsKeyed node c h.keyed)] at hmem
  obtain ⟨hmem, htopic⟩ := List.mem_filter.mp hmem
  obtain ⟨t, ht, hjob'⟩ := List.mem_filterMap.mp hmem
  rw [(call_indefinite hpub hcount).2, hcrc, occupants_link_self, Timers.occupants_cancel_self,
    List.nil_append, List.mem_singleton] at ht
  rw [ht] at hjob'
  cases hjob'
  exact hne (of_decide_eq_true htopic).symm

theorem chains_iff_of_tied {node : MulticastPubSub κ} {latest : Ledger}
    (h : ChainsTied node latest) (calls : List (Call κ)) :
    (∀ before, before <+: calls → ChainsMatch (recorded.exec (node, latest) before)) ↔
      recorded.Along (fun s c => ¬Collides s.1 c) (node, latest) calls :=
  recorded.forall_exec_iff_along (I := fun s => ChainsTied s.1 s.2)
    (fun _ hs => hs.chainsMatch) (fun _ _ hs hc => call_chainsTied hs hc)
    (fun _ _ hs hc => not_chainsMatch_of_collides hs (not_not.mp hc)) h calls

/-- An indefinite publish on "plumless" and one on "buckeroo". -/
def collidingCalls : List (Call Unit) :=
  [.setRetransmitCount (-1), .event (.publish {} plumless [1] .RAW),
    .event (.publish {} buckeroo [2] .RAW)]

/-- After them, "plumless" is not resent any more. -/
theorem chain_lost_by_collision :
    ¬ChainsMatch (recorded.exec (({ socket := true } : MulticastPubSub Unit), fun _ => none)
      collidingCalls) := by
  have hcrc : topicCrc32 plumless = topicCrc32 buckeroo := by decide +kernel
  have hne : plumless ≠ buckeroo := by decide
  have hstart : ChainsTied ({ socket := true } : MulticastPubSub Unit) fun _ => none :=
    chainsTied_fresh ⟨rfl, rfl, rfl, 0, rfl⟩
  have hset := call_chainsTied (c := .setRetransmitCount (-1)) hstart
    fun ⟨_, _, hpub, _⟩ => by cases hpub
  have hfirst := call_chainsTied (c := .event (.publish {} plumless [1] .RAW)) hset
    fun ⟨_, _, _, _, _, hp, _⟩ => by cases hp
  obtain ⟨job, hjob⟩ : ∃ job, (plumless, job) ∈
      ((({ socket := true } : MulticastPubSub Unit).call (.setRetransmitCount (-1))).1.call
        (.event (.publish {} plumless [1] .RAW))).1.indefiniteJobs :=
    ⟨_, List.mem_singleton_self _⟩
  exact not_chainsMatch_of_collides hfirst
    ⟨buckeroo, _, rfl, rfl, (plumless, job), hjob, hne, hcrc⟩

/-- The chains of all topics are right in every state of a run if and only if the run has no
accepted indefinite publish on a topic while another topic with its CRC has a job. -/
theorem chains_independent_iff {start : MulticastPubSub κ} (hstart : Fresh start)
    (calls : List (Call κ)) :
    (∀ before, before <+: calls →
        ChainsMatch (recorded.exec (start, fun _ => none) before)) ↔
      recorded.Along (fun s c => ¬Collides s.1 c) (start, fun _ => none) calls :=
  chains_iff_of_tied (chainsTied_fresh hstart) calls

/-- An indefinite publish on "t" and a finite one. -/
def supersedingCalls : List (Call Unit) :=
  [.setRetransmitCount (-1), .event (.publish {} [116] [1] .RAW), .setRetransmitCount 2,
    .event (.publish {} [116] [2] .RAW)]

/-- `chains_independent_iff` for them: the second supersedes the first. -/
theorem chains_independent_iff_superseded :
    ChainsMatch (recorded.exec (({ socket := true } : MulticastPubSub Unit), fun _ => none)
      supersedingCalls) := by
  refine (chains_independent_iff ⟨rfl, rfl, rfl, 0, rfl⟩ supersedingCalls).mpr ?_ _
    (List.prefix_refl _)
  refine ⟨?_, ?_, ?_, ?_, trivial⟩
  · rintro ⟨_, _, hpub, -⟩
    cases hpub
  · rintro ⟨_, _, -, -, _, hp, -⟩
    cases hp
  · rintro ⟨_, _, hpub, -⟩
    cases hpub
  · rintro ⟨_, _, -, hcount, -⟩
    exact absurd hcount (by decide)

end Mpubsub.Theorems
