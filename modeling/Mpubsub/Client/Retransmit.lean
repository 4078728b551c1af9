import Mpubsub.Client.Run
import Mpubsub.Lib.Lists
import Mpubsub.Lib.Timers

/-!
# Retransmits of the asyncio client: the invariant

The pending timers are of two kinds, the ticks of a topic (`chain`) and the retransmits of
a finite publish (`pendingOf`). `Retransmits` says what holds of both, of the client's
`indefinite` and `finite`, and of the history, in every reachable state. Each operation
of the client is first described by what it does to the two kinds.
-/

namespace Mpubsub.Client

open Mpubsub.Lib Mpubsub.Wire

/-! ## The two kinds of timers -/

def Callback.tickTopic? : Callback → Option String
  | .fire _ => none
  | .tick job => some job.topic

def Callback.firePublish? : Callback → Option Nat
  | .fire job => some job.publish
  | .tick _ => none

abbrev Timer := TimerHandle Rat Callback

/-- The pending ticks of a topic. -/
def chainOf (timers : List Timer) (topic : String) : List Timer :=
  Timers.occupants (fun t => t.callback.tickTopic?) timers topic

/-- The pending retransmits of a finite publish. -/
def pendingOf (timers : List Timer) (publish : Nat) : List Timer :=
  Timers.occupants (fun t => t.callback.firePublish?) timers publish

theorem mem_chainOf {timers : List Timer} {topic : String} {t : Timer} :
    t ∈ chainOf timers topic ↔ t ∈ timers ∧ ∃ job, t.callback = .tick job ∧ job.topic = topic := by
  rw [chainOf, Timers.mem_occupants]
  cases t.callback with
  | fire job => simp [Callback.tickTopic?]
  | tick job => simp [Callback.tickTopic?]

theorem mem_pendingOf {timers : List Timer} {publish : Nat} {t : Timer} :
    t ∈ pendingOf timers publish ↔
      t ∈ timers ∧ ∃ job, t.callback = .fire job ∧ job.publish = publish := by
  rw [pendingOf, Timers.mem_occupants]
  cases t.callback with
  | fire job => simp [Callback.firePublish?]
  | tick job => simp [Callback.firePublish?]

/-- A timer is of one of the two kinds. -/
theorem mem_chainOf_or_mem_pendingOf {timers : List Timer} {t : Timer} (h : t ∈ timers) :
    (∃ topic, t ∈ chainOf timers topic) ∨ ∃ publish, t ∈ pendingOf timers publish := by
  cases hcallback : t.callback with
  | fire job => exact .inr ⟨job.publish, mem_pendingOf.mpr ⟨h, job, hcallback, rfl⟩⟩
  | tick job => exact .inl ⟨job.topic, mem_chainOf.mpr ⟨h, job, hcallback, rfl⟩⟩

section CallLater

variable {loop : EventLoop Rat Callback} {delay : Rat} {job : Job}

theorem chainOf_tick (topic : String) :
    chainOf (loop.callLater delay (.tick job)).scheduled topic =
      chainOf loop.scheduled topic ++
        if job.topic = topic then [⟨loop.next, loop.time + delay, .tick job⟩] else [] := by
  rw [EventLoop.scheduled_callLater]
  split
  · rename_i h
    exact Timers.occupants_concat_self _ (congrArg some h)
  · rename_i h
    rw [List.append_nil]
    exact Timers.occupants_concat_of_ne _ fun heq => h (Option.some.inj heq)

theorem pendingOf_tick (publish : Nat) :
    pendingOf (loop.callLater delay (.tick job)).scheduled publish =
      pendingOf loop.scheduled publish :=
  Timers.occupants_concat_of_ne _ fun heq => by cases heq

end CallLater

section Cancel

variable {loop : EventLoop Rat Callback} {t : Timer}

/-- Cancelling a tick leaves the retransmits. -/
theorem pendingOf_cancel_tick {job : Job} (ht : t ∈ loop.scheduled) (hjob : t.callback = .tick job)
    (publish : Nat) :
    pendingOf (loop.cancel t.id).scheduled publish = pendingOf loop.scheduled publish :=
  EventLoop.filter_cancel ht (by simp [hjob, Callback.firePublish?])

/-- Cancelling a retransmit leaves the ticks. -/
theorem chainOf_cancel_fire {job : Job} (ht : t ∈ loop.scheduled) (hjob : t.callback = .fire job)
    (topic : String) :
    chainOf (loop.cancel t.id).scheduled topic = chainOf loop.scheduled topic :=
  EventLoop.filter_cancel ht (by simp [hjob, Callback.tickTopic?])

/-- Cancelling the tick of a topic leaves the others. -/
theorem chainOf_cancel_tick {job : Job} (ht : t ∈ loop.scheduled) (hjob : t.callback = .tick job)
    {topic : String} (hne : job.topic ≠ topic) :
    chainOf (loop.cancel t.id).scheduled topic = chainOf loop.scheduled topic :=
  EventLoop.filter_cancel ht (by simpa [hjob, Callback.tickTopic?] using hne)

/-- A chain with one tick goes with it. -/
theorem chainOf_cancel_self {topic : String} (h : chainOf loop.scheduled topic = [t]) :
    chainOf (loop.cancel t.id).scheduled topic = [] := by
  refine List.eq_nil_iff_forall_not_mem.mpr fun t' ht' => ?_
  obtain ⟨hmem, hjob⟩ := mem_chainOf.mp ht'
  obtain ⟨hsched, hne⟩ := EventLoop.mem_cancel.mp hmem
  have hin : t' ∈ chainOf loop.scheduled topic := mem_chainOf.mpr ⟨hsched, hjob⟩
  rw [h, List.mem_singleton] at hin
  exact hne (congrArg TimerHandle.id hin)

/-- Cancelling a retransmit of one publish leaves those of the others. -/
theorem pendingOf_cancel_fire {job : Job} (ht : t ∈ loop.scheduled) (hjob : t.callback = .fire job)
    {publish : Nat} (hne : job.publish ≠ publish) :
    pendingOf (loop.cancel t.id).scheduled publish = pendingOf loop.scheduled publish :=
  EventLoop.filter_cancel ht (by simpa [hjob, Callback.firePublish?] using hne)

theorem pendingOf_perm_cancel {job : Job} (ht : t ∈ loop.scheduled)
    (hjob : t.callback = .fire job) :
    (pendingOf loop.scheduled job.publish).Perm
      (t :: pendingOf (loop.cancel t.id).scheduled job.publish) :=
  EventLoop.filter_perm_cancel ht (by simp [hjob, Callback.firePublish?])

end Cancel

/-! ## What the history says -/

/-- The latest publish on a topic that was encoded. -/
def latest (published : List Publication) (topic : String) : Option Publication :=
  (published.filter fun p => p.job.topic = topic).getLast?

theorem latest_concat (published : List Publication) (p : Publication) (topic : String) :
    latest (published ++ [p]) topic =
      if p.job.topic = topic then some p else latest published topic := by
  unfold latest
  rw [List.filter_append]
  split
  · rename_i h
    rw [List.filter_cons_of_pos (by simpa using h), List.filter_nil, List.getLast?_concat]
  · rename_i h
    rw [List.filter_cons_of_neg (by simpa using h), List.filter_nil, List.append_nil]

theorem mem_of_latest {published : List Publication} {topic : String} {p : Publication}
    (h : latest published topic = some p) : p ∈ published ∧ p.job.topic = topic := by
  have hmem := List.mem_filter.mp (List.mem_of_getLast? h)
  exact ⟨hmem.1, of_decide_eq_true hmem.2⟩

/-- The offsets of a finite publish, on the loop's clock. -/
def offsets (cfg : Settings) (p : Publication) : List Rat :=
  (List.range p.count.toNat).map fun (i : Nat) => p.time + cfg.retransmitDelay * i

/-- The sends of a publish. -/
def sendsOf (sent : List Send) (publish : Nat) : List Send :=
  sent.filter fun s => s.job.publish = publish

theorem sendsOf_concat (sent : List Send) (s : Send) (publish : Nat) :
    sendsOf (sent ++ [s]) publish =
      sendsOf sent publish ++ if s.job.publish = publish then [s] else [] := by
  unfold sendsOf
  rw [List.filter_append]
  split
  · rename_i h
    rw [List.filter_cons_of_pos (by simpa using h), List.filter_nil]
  · rename_i h
    rw [List.filter_cons_of_neg (by simpa using h), List.filter_nil]

namespace MpubsubClient

/-- What the chain of a topic should resend: the latest publish, if it was indefinite and
`stop` has not been called since. -/
def due (c : MpubsubClient) (topic : String) : Option Job :=
  ((latest c.published topic).filter fun p =>
    p.count = RETRANSMIT_INDEFINITE ∧ p.stops = c.stops).map Publication.job

/-- The job of a publish of the history. -/
def Known (c : MpubsubClient) (job : Job) : Prop :=
  (c.published[job.publish]?).map Publication.job = some job

/-- What holds in every reachable state. -/
structure Retransmits (cfg : Settings) (c : MpubsubClient) : Prop where
  cached : GroupsCached cfg c
  handles : ∀ topic, (chainOf c.loop.scheduled topic).map (·.id) =
    (c.indefinite.get? topic).toList
  jobs : ∀ topic, (chainOf c.loop.scheduled topic).map (·.callback) =
    (c.due topic).toList.map Callback.tick
  finite : ∀ handle, handle ∈ c.finite ↔
    ∃ publish, ∃ t ∈ pendingOf c.loop.scheduled publish, t.id = handle
  numbered : ∀ (k : Nat) p, c.published[k]? = some p → p.job.publish = k
  stops_le : ∀ p ∈ c.published, p.stops ≤ c.stops
  sent_known : ∀ s ∈ c.sent, c.Known s.job
  pending_known : ∀ publish, ∀ t ∈ pendingOf c.loop.scheduled publish,
    ∃ job, t.callback = .fire job ∧ c.Known job
  offsets : ∀ p ∈ c.published, 1 ≤ p.count → p.stops = c.stops →
    ((sendsOf c.sent p.job.publish).map (·.when) ++
      (pendingOf c.loop.scheduled p.job.publish).map (·.when)).Perm (offsets cfg p)
  stopped : c.transport = none → c.loop.scheduled = []
  times : ∀ s ∈ c.sent, s.when ≤ s.time ∧ s.time ≤ c.loop.time

theorem retransmits_new (cfg : Settings) (time : Rat) : Retransmits cfg (new time) where
  cached := fun topic group h => by cases h
  handles := fun topic => rfl
  jobs := fun topic => rfl
  finite := fun handle => by
    constructor
    · exact fun h => by cases h
    · rintro ⟨publish, t, ht, -⟩
      cases ht
  numbered := fun k p h => by cases h
  stops_le := fun p h => by cases h
  sent_known := fun s h => by cases h
  pending_known := fun publish t h => by cases h
  offsets := fun p h => by cases h
  stopped := fun _ => rfl
  times := fun s h => by cases h

variable {cfg : Settings} {c c' : MpubsubClient}

/-- A step that leaves timers and history alone. -/
theorem Retransmits.frame (h : Retransmits cfg c) (hcached : GroupsCached cfg c')
    (hindefinite : c'.indefinite = c.indefinite) (hfinite : c'.finite = c.finite)
    (hloop : c'.loop = c.loop) (hpublished : c'.published = c.published) (hsent : c'.sent = c.sent)
    (hstops : c'.stops = c.stops) (htransport : c'.transport = none → c.transport = none) :
    Retransmits cfg c' := by
  have hdue (topic : String) : c'.due topic = c.due topic := by
    rw [due, due, hpublished, hstops]
  have hknown {job : Job} (hjob : c.Known job) : c'.Known job := by
    rw [Known, hpublished]
    exact hjob
  constructor
  · exact hcached
  · rw [hloop, hindefinite]
    exact h.handles
  · intro topic
    rw [hloop, hdue]
    exact h.jobs topic
  · rw [hloop, hfinite]
    exact h.finite
  · rw [hpublished]
    exact h.numbered
  · rw [hpublished, hstops]
    exact h.stops_le
  · rw [hsent]
    exact fun s hs => hknown (h.sent_known s hs)
  · rw [hloop]
    intro publish t ht
    obtain ⟨job, hjob, hin⟩ := h.pending_known publish t ht
    exact ⟨job, hjob, hknown hin⟩
  · rw [hpublished, hstops, hsent, hloop]
    exact h.offsets
  · rw [hloop]
    exact fun hnone => h.stopped (htransport hnone)
  · rw [hsent, hloop]
    exact h.times

/-- A known job has a smaller number than the next publish. -/
theorem Known.publish_lt {job : Job} (h : c.Known job) : job.publish < c.published.length := by
  obtain ⟨p, hp, -⟩ := Option.map_eq_some_iff.mp h
  obtain ⟨hlt, -⟩ := List.getElem?_eq_some_iff.mp hp
  exact hlt

/-- A publish of the history is where its number says. -/
theorem Retransmits.getElem?_of_mem (h : Retransmits cfg c) {p : Publication}
    (hp : p ∈ c.published) : c.published[p.job.publish]? = some p := by
  obtain ⟨k, hk⟩ := List.mem_iff_getElem?.mp hp
  rw [h.numbered k p hk, hk]

theorem Retransmits.known_of_mem (h : Retransmits cfg c) {p : Publication}
    (hp : p ∈ c.published) : c.Known p.job := by
  rw [Known, h.getElem?_of_mem hp]
  rfl

/-- Nothing has been sent or is pending for the next publish. -/
theorem Retransmits.unused (h : Retransmits cfg c) {publish : Nat}
    (hnext : publish = c.published.length) :
    sendsOf c.sent publish = [] ∧ pendingOf c.loop.scheduled publish = [] := by
  constructor
  · refine List.filter_eq_nil_iff.mpr fun s hs => ?_
    have hlt := (h.sent_known s hs).publish_lt
    simp only [decide_eq_true_eq]
    omega
  · refine List.eq_nil_iff_forall_not_mem.mpr fun t ht => ?_
    obtain ⟨job, hjob, hknown⟩ := h.pending_known _ t ht
    obtain ⟨-, job', hjob', hpublish⟩ := mem_pendingOf.mp ht
    cases hjob.symm.trans hjob'
    have hlt := hknown.publish_lt
    omega

/-! ## Steps that send nothing -/

theorem Retransmits.start (h : Retransmits cfg c) (ifindex : Nat) :
    Retransmits cfg (c.start cfg ifindex) := by
  unfold MpubsubClient.start
  split <;> exact h.frame h.cached rfl rfl rfl rfl rfl rfl fun hnone => by cases hnone

theorem Retransmits.subscribe (h : Retransmits cfg c) (topic : String) (encoding : Option String)
    (known ok : Bool) : Retransmits cfg (c.subscribe cfg topic encoding known ok).1 := by
  have hcases := subscribe_subscribes h.cached topic encoding known ok
  generalize c.subscribe cfg topic encoding known ok = result at hcases
  cases hcases with
  | raised groups error hcached => exact h.frame hcached rfl rfl rfl rfl rfl rfl id
  | added ref hget => exact h.frame h.cached rfl rfl rfl rfl rfl rfl id
  | joined groups i joined hcached => exact h.frame hcached rfl rfl rfl rfl rfl rfl id

theorem Retransmits.unsubscribe (h : Retransmits cfg c) (sub : Nat) :
    Retransmits cfg (c.unsubscribe sub) := by
  have hcases := unsubscribe_unsubscribes c sub
  generalize c.unsubscribe sub = result at hcases
  cases hcases with
  | stale => exact h
  | shortened => exact h.frame h.cached rfl rfl rfl rfl rfl rfl id
  | abandoned => exact h.frame h.cached rfl rfl rfl rfl rfl rfl id

theorem Retransmits.advance (h : Retransmits cfg c) (time : Rat) :
    Retransmits cfg { c with loop := c.loop.advance time } := by
  refine { h with times := ?_ }
  intro s hs
  exact ⟨(h.times s hs).1, (h.times s hs).2.trans (le_max_left _ _)⟩

/-- The client knows every pending timer. -/
theorem Retransmits.id_mem (h : Retransmits cfg c) :
    ∀ t ∈ c.loop.scheduled, t.id ∈ c.indefinite.values ∨ t.id ∈ c.finite := by
  intro t ht
  rcases mem_chainOf_or_mem_pendingOf ht with ⟨topic, hmem⟩ | ⟨publish, hmem⟩
  · refine .inl (Dict.mem_values_iff.mpr ⟨topic, ?_⟩)
    have hid : t.id ∈ (c.indefinite.get? topic).toList :=
      h.handles topic ▸ List.mem_map_of_mem hmem
    exact Option.mem_toList.mp hid
  · exact .inr ((h.finite t.id).mpr ⟨publish, t, hmem, rfl⟩)

theorem Retransmits.stop (h : Retransmits cfg c) : Retransmits cfg c.stop := by
  have hscheduled := scheduled_stop h.id_mem
  have hold : ∀ p ∈ c.published, p.stops ≠ c.stops + 1 := by
    intro p hp
    have := h.stops_le p hp
    omega
  have hdue (topic : String) : c.stop.due topic = none := by
    rw [due, Option.map_eq_none_iff, Option.filter_eq_none_iff]
    rintro p hp hdue
    obtain ⟨-, hstops⟩ := of_decide_eq_true hdue
    exact hold p (mem_of_latest hp).1 hstops
  constructor
  · exact h.cached
  · intro topic
    rw [hscheduled]
    rfl
  · intro topic
    rw [hscheduled, hdue]
    rfl
  · intro handle
    rw [hscheduled]
    constructor
    · exact fun hin => by cases hin
    · rintro ⟨publish, t, ht, -⟩
      cases ht
  · exact h.numbered
  · exact fun p hp => Nat.le_succ_of_le (h.stops_le p hp)
  · exact h.sent_known
  · rw [hscheduled]
    exact fun publish t ht => by cases ht
  · exact fun p hp _ hstops => absurd hstops (hold p hp)
  · exact fun _ => hscheduled
  · intro s hs
    have htime : c.stop.loop.time = c.loop.time :=
      (EventLoop.time_cancelAll _).trans (EventLoop.time_cancelAll _)
    rw [htime]
    exact h.times s hs

/-! ## Publishing -/

theorem cancelIndefinite_spec (h : ∀ topic, (chainOf c.loop.scheduled topic).map (·.id) =
    (c.indefinite.get? topic).toList) (topic : String) :
    ∃ loop indefinite,
      c.cancelIndefinite topic = { c with loop := loop, indefinite := indefinite } ∧
      loop.time = c.loop.time ∧
      (∀ topic', chainOf loop.scheduled topic' =
        if topic' = topic then [] else chainOf c.loop.scheduled topic') ∧
      (∀ publish, pendingOf loop.scheduled publish = pendingOf c.loop.scheduled publish) ∧
      ∀ topic', indefinite.get? topic' =
        if topic' = topic then none else c.indefinite.get? topic' := by
  unfold cancelIndefinite
  have hhandles := h topic
  cases hget : c.indefinite.get? topic with
  | none =>
    rw [hget] at hhandles
    refine ⟨c.loop, c.indefinite, rfl, rfl, ?_, fun publish => rfl, ?_⟩
    · intro topic'
      split
      · rename_i heq
        rw [heq]
        exact List.map_eq_nil_iff.mp hhandles
      · rfl
    · intro topic'
      split
      · rename_i heq
        rw [heq, hget]
      · rfl
  | some handle =>
    rw [hget] at hhandles
    obtain ⟨t, hchain, rfl⟩ := List.map_eq_singleton_iff.mp hhandles
    have hmem : t ∈ chainOf c.loop.scheduled topic := hchain ▸ List.mem_singleton_self t
    obtain ⟨ht, job, hjob, htopic⟩ := mem_chainOf.mp hmem
    refine ⟨c.loop.cancel t.id, c.indefinite.erase topic, rfl, rfl, ?_, ?_, ?_⟩
    · intro topic'
      split
      · rename_i heq
        rw [heq]
        exact chainOf_cancel_self hchain
      · rename_i hne
        exact chainOf_cancel_tick ht hjob fun heq => hne (heq.symm.trans htopic)
    · exact pendingOf_cancel_tick ht hjob
    · exact Dict.get?_erase _ _

/-- The next publication of a client, and its first send. -/
structure FirstSend (c : MpubsubClient) (p : Publication) (s : Send) : Prop where
  publish : p.job.publish = c.published.length
  time : p.time = c.loop.time
  stops : p.stops = c.stops
  job : s.job = p.job
  when : s.when = p.time
  made : s.time = p.time

/-- A publish is in the history, and has been sent once; its retransmits are in the loop, `ticks`
if it is indefinite, `fires` if it is finite. -/
structure Entered (c : MpubsubClient) (p : Publication) (s : Send) (ticks fires : List Timer)
    (c' : MpubsubClient) : Prop where
  first : FirstSend c p s
  groups : c'.groups = c.groups
  transport : c'.transport ≠ none
  published : c'.published = c.published ++ [p]
  stops : c'.stops = c.stops
  sent : c'.sent = c.sent ++ [s]
  time : c'.loop.time = c.loop.time
  chain : ∀ topic, chainOf c'.loop.scheduled topic =
    if topic = p.job.topic then ticks else chainOf c.loop.scheduled topic
  handle : ticks.map (·.id) = (c'.indefinite.get? p.job.topic).toList
  indefinite : ∀ topic, topic ≠ p.job.topic → c'.indefinite.get? topic = c.indefinite.get? topic
  pending : ∀ publish, pendingOf c'.loop.scheduled publish =
    pendingOf c.loop.scheduled publish ++ if publish = p.job.publish then fires else []
  callbacks : ∀ t ∈ fires, t.callback = .fire p.job
  finite : ∀ handle, handle ∈ c'.finite ↔ handle ∈ c.finite ∨ ∃ t ∈ fires, t.id = handle

section Entered

variable {p : Publication} {s : Send} {ticks fires : List Timer}

theorem Entered.known_of_known (hnew : Entered c p s ticks fires c') {job : Job}
    (hjob : c.Known job) : c'.Known job := by
  rw [Known, hnew.published, List.getElem?_append_left hjob.publish_lt]
  exact hjob

theorem Entered.known (hnew : Entered c p s ticks fires c') : c'.Known p.job := by
  rw [Known, hnew.published, hnew.first.publish, List.getElem?_concat_length]
  rfl

theorem Entered.handles (hnew : Entered c p s ticks fires c') (h : Retransmits cfg c)
    (topic : String) :
    (chainOf c'.loop.scheduled topic).map (·.id) = (c'.indefinite.get? topic).toList := by
  rw [hnew.chain]
  split
  · rename_i heq
    rw [heq]
    exact hnew.handle
  · rename_i hne
    rw [hnew.indefinite topic hne]
    exact h.handles topic

theorem Entered.jobs (hnew : Entered c p s ticks fires c') (h : Retransmits cfg c)
    (hticks : ticks.map (·.callback) =
      if p.count = RETRANSMIT_INDEFINITE then [Callback.tick p.job] else [])
    (topic : String) : (chainOf c'.loop.scheduled topic).map (·.callback) =
      (c'.due topic).toList.map Callback.tick := by
  rw [hnew.chain, due, hnew.published, hnew.stops, latest_concat]
  split
  · rename_i heq
    rw [if_pos heq.symm, hticks]
    by_cases hcount : p.count = RETRANSMIT_INDEFINITE
    · simp [Option.filter, hcount, hnew.first.stops]
    · simp [Option.filter, hcount]
  · rename_i hne
    rw [if_neg (Ne.symm hne)]
    exact h.jobs topic

theorem Entered.mem_finite (hnew : Entered c p s ticks fires c') (h : Retransmits cfg c)
    (handle : Nat) : handle ∈ c'.finite ↔
      ∃ publish, ∃ t ∈ pendingOf c'.loop.scheduled publish, t.id = handle := by
  rw [hnew.finite, h.finite]
  simp only [hnew.pending]
  constructor
  · rintro (⟨publish, t, ht, hid⟩ | ⟨t, ht, hid⟩)
    · exact ⟨publish, t, List.mem_append_left _ ht, hid⟩
    · exact ⟨p.job.publish, t, by rw [if_pos rfl]; exact List.mem_append_right _ ht, hid⟩
  · rintro ⟨publish, t, ht, hid⟩
    rcases List.mem_append.mp ht with ht | ht
    · exact .inl ⟨publish, t, ht, hid⟩
    · split at ht
      · exact .inr ⟨t, ht, hid⟩
      · cases ht

theorem Entered.pending_known (hnew : Entered c p s ticks fires c') (h : Retransmits cfg c)
    (publish : Nat) : ∀ t ∈ pendingOf c'.loop.scheduled publish,
      ∃ job, t.callback = .fire job ∧ c'.Known job := by
  intro t ht
  rw [hnew.pending] at ht
  rcases List.mem_append.mp ht with ht | ht
  · obtain ⟨job, hjob, hknown⟩ := h.pending_known publish t ht
    exact ⟨job, hjob, hnew.known_of_known hknown⟩
  · split at ht
    · exact ⟨p.job, hnew.callbacks t ht, hnew.known⟩
    · cases ht

/-- The sends of the new publish are its first send and the timers; those of the others are as
before. -/
theorem Entered.offsets (hnew : Entered c p s ticks fires c') (h : Retransmits cfg c)
    (hoffsets : 1 ≤ p.count → p.time :: fires.map (·.when) = Client.offsets cfg p)
    {q : Publication} (hq : q ∈ c'.published) (hcount : 1 ≤ q.count) (hstops : q.stops = c'.stops) :
    ((sendsOf c'.sent q.job.publish).map (·.when) ++
      (pendingOf c'.loop.scheduled q.job.publish).map (·.when)).Perm (Client.offsets cfg q) := by
  rw [hnew.sent, hnew.pending, sendsOf_concat, hnew.first.job]
  rw [hnew.published] at hq
  rw [hnew.stops] at hstops
  rcases List.mem_append.mp hq with hq | hq
  · -- No publish of the history has the new number.
    have hne : q.job.publish ≠ p.job.publish := by
      rw [hnew.first.publish]
      exact Nat.ne_of_lt (h.known_of_mem hq).publish_lt
    rw [if_neg hne, if_neg hne.symm, List.append_nil, List.append_nil]
    exact h.offsets q hq hcount hstops
  · rw [List.mem_singleton.mp hq] at hcount ⊢
    obtain ⟨hsent, hnone⟩ := h.unused hnew.first.publish
    rw [if_pos rfl, if_pos rfl, hsent, hnone, List.nil_append, List.nil_append,
      List.map_singleton, hnew.first.when, List.singleton_append, hoffsets hcount]

theorem Retransmits.entered (h : Retransmits cfg c) (hnew : Entered c p s ticks fires c')
    (hticks : ticks.map (·.callback) =
      if p.count = RETRANSMIT_INDEFINITE then [Callback.tick p.job] else [])
    (hoffsets : 1 ≤ p.count → p.time :: fires.map (·.when) = Client.offsets cfg p) :
    Retransmits cfg c' where
  cached := fun topic group hget => h.cached topic group (hnew.groups ▸ hget)
  handles := hnew.handles h
  jobs := hnew.jobs h hticks
  finite := hnew.mem_finite h
  numbered := fun k q hq => by
    rw [hnew.published] at hq
    rcases getElem?_concat_eq_some_iff.mp hq with hq | ⟨rfl, rfl⟩
    · exact h.numbered k q hq
    · exact hnew.first.publish
  stops_le := by
    rw [hnew.published, hnew.stops]
    exact forall_mem_concat.mpr ⟨h.stops_le, hnew.first.stops.le⟩
  sent_known := by
    rw [hnew.sent]
    refine forall_mem_concat.mpr ⟨fun s' hs' => hnew.known_of_known (h.sent_known s' hs'), ?_⟩
    exact hnew.first.job ▸ hnew.known
  pending_known := hnew.pending_known h
  offsets := fun q hq hcount hstops => hnew.offsets h hoffsets hq hcount hstops
  stopped := fun hnone => absurd hnone hnew.transport
  times := by
    rw [hnew.sent, hnew.time]
    refine forall_mem_concat.mpr ⟨h.times, ?_⟩
    rw [hnew.first.when, hnew.first.made, hnew.first.time]
    exact ⟨le_refl _, le_refl _⟩

end Entered

theorem offsets_eq {p : Publication} (h : 1 ≤ p.count) :
    Client.offsets cfg p = p.time ::
      (List.range' 1 (p.count.toNat - 1)).map fun (i : Nat) => p.time + cfg.retransmitDelay * i := by
  obtain ⟨n, hn⟩ : ∃ n, p.count.toNat = n + 1 := ⟨p.count.toNat - 1, by omega⟩
  rw [Client.offsets, hn, List.range_succ_eq_map, List.map_cons, List.range'_eq_map_range]
  simp [Function.comp_def, add_comm]

/-- Timers of one finite publish. -/
theorem chainOf_fires {timers : List Timer} {job : Job} (h : ∀ t ∈ timers, t.callback = .fire job)
    (topic : String) : chainOf timers topic = [] := by
  refine Timers.occupants_eq_nil fun t ht => ?_
  simp [h t ht, Callback.tickTopic?]

theorem pendingOf_fires {timers : List Timer} {job : Job}
    (h : ∀ t ∈ timers, t.callback = .fire job) (publish : Nat) :
    pendingOf timers publish = if publish = job.publish then timers else [] := by
  split
  · rename_i heq
    refine List.filter_eq_self.mpr fun t ht => ?_
    simp [h t ht, Callback.firePublish?, heq]
  · rename_i hne
    refine Timers.occupants_eq_nil fun t ht => ?_
    simpa [h t ht, Callback.firePublish?] using Ne.symm hne

section Transmit

variable {p : Publication} {s : Send}

/-- The entry, `_cancel_indefinite` and the first send. -/
theorem entered_sendto (h : Retransmits cfg c) (htransport : c.transport ≠ none) (ok : Bool)
    (hfirst : FirstSend c p ⟨p.job, cfg.port, c.loop.time, c.loop.time, ok⟩) :
    Entered c p ⟨p.job, cfg.port, c.loop.time, c.loop.time, ok⟩ [] []
      (({ c with published := c.published ++ [p] }.cancelIndefinite p.job.topic).sendto cfg p.job
        c.loop.time ok) := by
  obtain ⟨loop, indefinite, hcancel, htime, hchain, hpending, hindefinite⟩ :=
    cancelIndefinite_spec (c := { c with published := c.published ++ [p] }) h.handles p.job.topic
  have hsome : ¬c.transport.isNone = true := by
    rw [Option.isNone_iff_eq_none]
    exact htransport
  rw [hcancel]
  unfold MpubsubClient.sendto
  simp only [if_neg hsome]
  constructor
  · exact hfirst
  · rfl
  · exact htransport
  · rfl
  · rfl
  · show c.sent ++ [Send.mk p.job cfg.port c.loop.time loop.time ok] = _
    rw [htime]
  · exact htime
  · exact hchain
  · show [] = (indefinite.get? p.job.topic).toList
    rw [hindefinite, if_pos rfl]
    rfl
  · intro topic hne
    exact (hindefinite topic).trans (if_neg hne)
  · intro publish
    rw [ite_self, List.append_nil]
    exact hpending publish
  · exact fun t ht => by cases ht
  · simp

variable {c₁ : MpubsubClient}

/-- An indefinite publish goes on with a tick. -/
theorem Entered.startIndefinite (hsent : Entered c p s [] [] c₁) :
    Entered c p s [⟨c₁.loop.next, c.loop.time + cfg.retransmitDelay, .tick p.job⟩] []
      (c₁.startIndefinite cfg p.job) where
  first := hsent.first
  groups := hsent.groups
  transport := hsent.transport
  published := hsent.published
  stops := hsent.stops
  sent := hsent.sent
  time := hsent.time
  chain := fun topic => by
    refine (chainOf_tick topic).trans ?_
    rw [hsent.chain, hsent.time]
    by_cases heq : topic = p.job.topic
    · simp [heq]
    · simp [heq, Ne.symm heq]
  handle := by
    show [c₁.loop.next] = ((c₁.indefinite.set p.job.topic c₁.loop.next).get? p.job.topic).toList
    rw [Dict.get?_set, if_pos rfl]
    rfl
  indefinite := fun topic hne =>
    ((Dict.get?_set ..).trans (if_neg hne)).trans (hsent.indefinite topic hne)
  pending := fun publish => (pendingOf_tick publish).trans (hsent.pending publish)
  callbacks := hsent.callbacks
  finite := hsent.finite

/-- A finite publish goes on with its timers. -/
theorem Entered.scheduleFinite (hsent : Entered c p s [] [] c₁) (is : List Nat) :
    ∃ fires, fires.map (·.when) = is.map (fun (i : Nat) => c.loop.time + cfg.retransmitDelay * i) ∧
      Entered c p s [] fires
        (is.foldl (fun c (i : Nat) => c.scheduleOne (cfg.retransmitDelay * i) p.job) c₁) := by
  obtain ⟨loop, finite, heq, htime, fires, hscheduled, hfires, hwhen, hmem⟩ :=
    foldl_scheduleOne cfg c₁ p.job is
  rw [hsent.time] at hwhen
  refine ⟨fires, hwhen, ?_⟩
  rw [heq]
  constructor
  · exact hsent.first
  · exact hsent.groups
  · exact hsent.transport
  · exact hsent.published
  · exact hsent.stops
  · exact hsent.sent
  · exact htime.trans hsent.time
  · intro topic
    show chainOf loop.scheduled topic = _
    rw [hscheduled, chainOf, Timers.occupants_append]
    show chainOf c₁.loop.scheduled topic ++ chainOf fires topic = _
    rw [chainOf_fires hfires, List.append_nil, hsent.chain]
  · exact hsent.handle
  · exact hsent.indefinite
  · intro publish
    show pendingOf loop.scheduled publish = _
    rw [hscheduled, pendingOf, Timers.occupants_append]
    show pendingOf c₁.loop.scheduled publish ++ pendingOf fires publish = _
    rw [pendingOf_fires hfires, hsent.pending, ite_self, List.append_nil]
  · exact hfires
  · intro handle
    refine (hmem handle).trans (or_congr_left ?_)
    simpa using hsent.finite handle

end Transmit

theorem Retransmits.transmit (h : Retransmits cfg c) (htransport : c.transport ≠ none)
    (call : PublishCall) (group : GroupAddr) (data : Bytes) :
    Retransmits cfg (c.transmit cfg call group data) := by
  unfold MpubsubClient.transmit
  simp only
  obtain ⟨p, hp⟩ : ∃ p : Publication, p =
    ⟨⟨c.published.length, call.topic, data, group⟩, effectiveRetransmitCount cfg call.qos,
      c.loop.time, c.stops⟩ := ⟨_, rfl⟩
  have hsent := entered_sendto (p := p) h htransport call.ok (by constructor <;> simp [hp])
  have hcount : effectiveRetransmitCount cfg call.qos = p.count := by rw [hp]
  have hptime : p.time = c.loop.time := by rw [hp]
  have hjob : p.job = ⟨c.published.length, call.topic, data, group⟩ := by rw [hp]
  rw [hjob] at hsent
  rw [← hp, hcount]
  generalize MpubsubClient.sendto cfg _ _ _ _ = c₁ at hsent ⊢
  rw [← hjob] at hsent ⊢
  split
  · rename_i hindef
    refine h.entered hsent.startIndefinite (by rw [if_pos hindef]; rfl) fun hpos => ?_
    rw [hindef] at hpos
    exact absurd hpos (by decide)
  · rename_i hfin
    split
    · obtain ⟨fires, hwhen, hscheduled⟩ := hsent.scheduleFinite (List.range' 1 (p.count.toNat - 1))
      refine h.entered hscheduled (if_neg hfin).symm fun hpos => ?_
      rw [offsets_eq hpos, hwhen, hptime]
    · refine h.entered hsent (if_neg hfin).symm fun hpos => ?_
      have hone : p.count = 1 := by omega
      rw [offsets_eq hpos, hone]
      rfl

/-! ## Timers that run -/

/-- A retransmit of a finite publish runs. -/
theorem Retransmits.fired (h : Retransmits cfg c) {t : Timer} {job : Job} {s : Send} {failed : Bool}
    (ht : t ∈ c.loop.scheduled) (hjob : t.callback = .fire job) (hsend : s.job = job)
    (hwhen : s.when = t.when) (hmade : s.time = c.loop.time) (hdue : t.when ≤ c.loop.time) :
    Retransmits cfg
      { c with
        loop := c.loop.cancel t.id, finite := c.finite.filter (· ≠ t.id)
        sent := c.sent ++ [s], sendFailed := failed } := by
  have hsub {publish : Nat} {t' : Timer}
      (ht' : t' ∈ pendingOf (c.loop.cancel t.id).scheduled publish) :
      t' ∈ pendingOf c.loop.scheduled publish ∧ t'.id ≠ t.id := by
    obtain ⟨hmem, hfire⟩ := mem_pendingOf.mp ht'
    obtain ⟨hin, hne⟩ := EventLoop.mem_cancel.mp hmem
    exact ⟨mem_pendingOf.mpr ⟨hin, hfire⟩, hne⟩
  obtain ⟨job', hjob', hknown⟩ :=
    h.pending_known job.publish t (mem_pendingOf.mpr ⟨ht, job, hjob, rfl⟩)
  cases hjob.symm.trans hjob'
  constructor
  · exact h.cached
  · intro topic
    show (chainOf (c.loop.cancel t.id).scheduled topic).map _ = _
    rw [chainOf_cancel_fire ht hjob]
    exact h.handles topic
  · intro topic
    show (chainOf (c.loop.cancel t.id).scheduled topic).map _ = _
    rw [chainOf_cancel_fire ht hjob]
    exact h.jobs topic
  · intro handle
    show handle ∈ c.finite.filter (· ≠ t.id) ↔ _
    rw [List.mem_filter, h.finite]
    constructor
    · rintro ⟨⟨publish, t', ht', rfl⟩, hne⟩
      obtain ⟨hin, hfire⟩ := mem_pendingOf.mp ht'
      have hmem := EventLoop.mem_cancel.mpr ⟨hin, of_decide_eq_true hne⟩
      exact ⟨publish, t', mem_pendingOf.mpr ⟨hmem, hfire⟩, rfl⟩
    · rintro ⟨publish, t', ht', rfl⟩
      obtain ⟨hin, hne⟩ := hsub ht'
      exact ⟨⟨publish, t', hin, rfl⟩, decide_eq_true hne⟩
  · exact h.numbered
  · exact h.stops_le
  · refine forall_mem_concat.mpr ⟨h.sent_known, ?_⟩
    rw [hsend]
    exact hknown
  · exact fun publish t' ht' => h.pending_known publish t' (hsub ht').1
  · intro q hq hcount hstops
    have hold := h.offsets q hq hcount hstops
    show ((sendsOf (c.sent ++ [s]) q.job.publish).map (·.when) ++
      (pendingOf (c.loop.cancel t.id).scheduled q.job.publish).map (·.when)).Perm _
    rw [sendsOf_concat, hsend]
    split
    · -- The send takes the place of the timer.
      rename_i hpublish
      rw [← hpublish] at hold ⊢
      refine List.Perm.trans ?_ hold
      have hperm := (pendingOf_perm_cancel ht hjob).map (·.when)
      rw [List.map_append, List.append_assoc, List.map_singleton, hwhen, List.singleton_append]
      exact (hperm.append_left _).symm
    · rename_i hne
      rw [List.append_nil, pendingOf_cancel_fire ht hjob hne]
      exact hold
  · intro hnone
    have hempty := h.stopped hnone
    rw [hempty] at ht
    cases ht
  · refine forall_mem_concat.mpr ⟨h.times, ?_⟩
    rw [hwhen, hmade]
    exact ⟨hdue, le_refl _⟩

/-- A pending tick is the whole chain of its topic, and resends an indefinite publish. -/
theorem Retransmits.of_tick (h : Retransmits cfg c) {t : Timer} {job : Job}
    (ht : t ∈ c.loop.scheduled) (hjob : t.callback = .tick job) :
    chainOf c.loop.scheduled job.topic = [t] ∧ c.due job.topic = some job ∧
      ∃ p ∈ c.published, p.count = RETRANSMIT_INDEFINITE ∧ p.job = job := by
  have hmem : t ∈ chainOf c.loop.scheduled job.topic := mem_chainOf.mpr ⟨ht, job, hjob, rfl⟩
  have hchain : chainOf c.loop.scheduled job.topic = [t] := by
    have hhandles := h.handles job.topic
    cases hget : c.indefinite.get? job.topic with
    | none =>
      rw [hget] at hhandles
      rw [List.map_eq_nil_iff.mp hhandles] at hmem
      cases hmem
    | some handle =>
      rw [hget] at hhandles
      obtain ⟨t', hchain, -⟩ := List.map_eq_singleton_iff.mp hhandles
      rw [hchain, List.mem_singleton] at hmem
      rw [hchain, hmem]
  have hjobs := h.jobs job.topic
  rw [hchain, List.map_singleton, hjob] at hjobs
  cases hdue : c.due job.topic with
  | none =>
    rw [hdue] at hjobs
    cases hjobs
  | some job' =>
    rw [hdue] at hjobs
    cases hjobs
    obtain ⟨p, hp, hpjob⟩ := Option.map_eq_some_iff.mp hdue
    obtain ⟨hlatest, hfilter⟩ := Option.filter_eq_some_iff.mp hp
    exact ⟨hchain, rfl, p, (mem_of_latest hlatest).1, (of_decide_eq_true hfilter).1, hpjob⟩

/-- A tick runs, and gives the next one to the loop. -/
theorem Retransmits.ticked (h : Retransmits cfg c) {t : Timer} {job : Job} {s : Send}
    {failed : Bool} (ht : t ∈ c.loop.scheduled) (hjob : t.callback = .tick job) (hsend : s.job = job)
    (hwhen : s.when = t.when) (hmade : s.time = c.loop.time) (hdue : t.when ≤ c.loop.time) :
    Retransmits cfg
      { c with
        loop := (c.loop.cancel t.id).callLater cfg.retransmitDelay (.tick job)
        indefinite := c.indefinite.set job.topic c.loop.next
        sent := c.sent ++ [s], sendFailed := failed } := by
  obtain ⟨hchain, hjobs, p, hp, hcount, hpjob⟩ := h.of_tick ht hjob
  have hknown : c.Known job := hpjob ▸ h.known_of_mem hp
  have hchains (topic : String) :
      chainOf ((c.loop.cancel t.id).callLater cfg.retransmitDelay (.tick job)).scheduled topic =
        if topic = job.topic then
          [⟨c.loop.next, c.loop.time + cfg.retransmitDelay, .tick job⟩]
        else chainOf c.loop.scheduled topic := by
    rw [chainOf_tick]
    by_cases htopic : topic = job.topic
    · rw [htopic, if_pos rfl, if_pos rfl, chainOf_cancel_self hchain]
      rfl
    · rw [if_neg htopic, if_neg (Ne.symm htopic), List.append_nil,
        chainOf_cancel_tick ht hjob (Ne.symm htopic)]
  have hpending (publish : Nat) :
      pendingOf ((c.loop.cancel t.id).callLater cfg.retransmitDelay (.tick job)).scheduled publish =
        pendingOf c.loop.scheduled publish := by
    rw [pendingOf_tick, pendingOf_cancel_tick ht hjob]
  constructor
  · exact h.cached
  · intro topic
    show (chainOf (EventLoop.callLater _ _ _).scheduled topic).map _ =
      ((c.indefinite.set job.topic c.loop.next).get? topic).toList
    rw [hchains, Dict.get?_set]
    split
    · rfl
    · exact h.handles topic
  · intro topic
    show (chainOf (EventLoop.callLater _ _ _).scheduled topic).map _ = (c.due topic).toList.map _
    rw [hchains]
    split
    · rename_i htopic
      rw [htopic, hjobs]
      rfl
    · exact h.jobs topic
  · intro handle
    show handle ∈ c.finite ↔ ∃ publish, ∃ t ∈ pendingOf (EventLoop.callLater _ _ _).scheduled publish, _
    simp only [hpending]
    exact h.finite handle
  · exact h.numbered
  · exact h.stops_le
  · refine forall_mem_concat.mpr ⟨h.sent_known, ?_⟩
    rw [hsend]
    exact hknown
  · intro publish t' ht'
    have ht' : t' ∈ pendingOf (EventLoop.callLater _ _ _).scheduled publish := ht'
    rw [hpending] at ht'
    exact h.pending_known publish t' ht'
  · intro q hq hqcount hstops
    show ((sendsOf (c.sent ++ [s]) q.job.publish).map (·.when) ++
      (pendingOf (EventLoop.callLater _ _ _).scheduled q.job.publish).map (·.when)).Perm _
    -- The publish of a tick is indefinite, and this one is not.
    have hne : job.publish ≠ q.job.publish := by
      intro heq
      have hat := h.getElem?_of_mem hp
      rw [hpjob, heq, h.getElem?_of_mem hq] at hat
      cases hat
      rw [hcount] at hqcount
      exact absurd hqcount (by decide)
    rw [sendsOf_concat, hsend, if_neg hne, List.append_nil, hpending]
    exact h.offsets q hq hqcount hstops
  · intro hnone
    have hempty := h.stopped hnone
    rw [hempty] at ht
    cases ht
  · refine forall_mem_concat.mpr ⟨h.times, ?_⟩
    rw [hwhen, hmade]
    exact ⟨hdue, le_refl _⟩

theorem Retransmits.fire (h : Retransmits cfg c) (handle : Nat) (ok : Bool) :
    Retransmits cfg (c.fire cfg handle ok) := by
  unfold MpubsubClient.fire
  split
  · exact h
  · rename_i t hfind
    obtain ⟨ht, rfl⟩ := EventLoop.find?_eq_some_iff.mp hfind
    split
    · exact h
    · rename_i hdue
      have hsome : ¬c.transport.isNone = true := by
        intro hnone
        have hempty := h.stopped (Option.isNone_iff_eq_none.mp hnone)
        rw [hempty] at ht
        cases ht
      cases hcallback : t.callback with
      | fire job =>
        simp only [sendto, if_neg hsome]
        exact h.fired ht hcallback rfl rfl rfl (not_lt.mp hdue)
      | tick job =>
        simp only [sendto, if_neg hsome]
        exact h.ticked ht hcallback rfl rfl rfl (not_lt.mp hdue)

/-! ## Runs -/

theorem Retransmits.publish (h : Retransmits cfg c) (call : PublishCall) :
    Retransmits cfg (c.publish cfg call).1 := by
  obtain ⟨groups, hcached, hcases⟩ := publish_cases h.cached call
  have hgroups : Retransmits cfg { c with groups := groups } :=
    h.frame hcached rfl rfl rfl rfl rfl rfl id
  rcases hcases with heq | ⟨htransport, data, heq⟩
  · rw [heq]
    exact hgroups
  · rw [heq]
    exact hgroups.transmit htransport call _ data

theorem step_retransmits (c : MpubsubClient) (e : Event) (h : Retransmits cfg c) :
    Retransmits cfg (c.step cfg e).1 := by
  cases e with
  | start ifindex => exact h.start ifindex
  | stop => exact h.stop
  | subscribe topic encoding known ok => exact h.subscribe topic encoding known ok
  | unsubscribe sub => exact h.unsubscribe sub
  | publish call => exact h.publish call
  | advance time => exact h.advance time
  | fire handle ok => exact h.fire handle ok

/-- The invariant holds in every reachable state. -/
theorem exec_retransmits (cfg : Settings) (time : Rat) (events : List Event) :
    Retransmits cfg ((machine cfg).exec (new time) events) :=
  (machine cfg).exec_invariant step_retransmits (retransmits_new cfg time) events

end MpubsubClient

end Mpubsub.Client
