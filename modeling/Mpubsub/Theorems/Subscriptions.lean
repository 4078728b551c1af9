import Mpubsub.Client.Bookkeeping

/-!
# Subscription bookkeeping of the asyncio client (`aio.py`)

`subs` and `crcIndex` follow the live subscriptions over every run. The memberships follow
them as long as no client is started that is started already: a second `start` opens
another socket, which has joined nothing, while `subs` keeps its topics. In general the
socket has joined the groups of the topics that were subscribed to since the latest `start`
(`subscriptions_kept`).
-/

namespace Mpubsub.Theorems

open Mpubsub.Lib Mpubsub.Wire Mpubsub.Client MpubsubClient

/-! ## The property -/

/-- The index has, under a CRC, the `_TopicSub`s of `subs` with this CRC, each once, and has no
empty list. -/
structure IndexKept (c : MpubsubClient) (crc : Nat) : Prop where
  nonempty : ∀ refs, c.crcIndex.get? crc = some refs → refs ≠ [] ∧ refs.Nodup
  mem_iff : ∀ ref, ref ∈ (c.crcIndex.get? crc).getD [] ↔
    ∃ topic, c.subs.get? topic = some ref ∧ Reference.topicCrc32 topic = crc

/-- The socket has joined the groups of the topics in `subs`. -/
def GroupsKept (cfg : Settings) (c : MpubsubClient) : Prop :=
  ∀ group, group ∈ c.joined.map Mreq.group ↔
    ∃ topic, c.subs.get? topic ≠ none ∧ Reference.topicToGroup topic cfg.scope = group

/-- The step does not start a client that has a socket. -/
def NotRestarted (s : MpubsubClient × Ledger) (e : Event) : Prop :=
  s.1.sock ≠ none → ∀ ifindex, e ≠ .start ifindex

/-- The topics that a run subscribes to. -/
def topicsOf (events : List Event) : List String := events.filterMap Event.topic?

/-! ## Runs -/

section

variable {cfg : Settings}

/-- Distinct topics of the list have distinct groups. -/
def Distinct (cfg : Settings) (topics : List String) : Prop :=
  ∀ t ∈ topics, ∀ t' ∈ topics,
    Reference.topicToGroup t cfg.scope = Reference.topicToGroup t' cfg.scope → t = t'

theorem along_topics (time : Rat) (events : List Event) :
    (recorded cfg).Along (fun _ e => ∀ topic, Event.topic? e = some topic →
      topic ∈ topicsOf events) (new time, {}) events :=
  (recorded cfg).along_of_forall (P := fun e => ∀ topic, Event.topic? e = some topic →
    topic ∈ topicsOf events) _ fun e he _ htopic => List.mem_filterMap.mpr ⟨e, he, htopic⟩

theorem exec_bookkept (time : Rat) {events : List Event} (hdistinct : Distinct cfg (topicsOf events)) :
    Bookkept cfg (topicsOf events) ((recorded cfg).exec (new time, {}) events).1
      ((recorded cfg).exec (new time, {}) events).2 :=
  (recorded cfg).exec_invariant_along
    (I := fun s : MpubsubClient × Ledger => Bookkept cfg (topicsOf events) s.1 s.2)
    (fun _ _ h he => record_bookkept h hdistinct he) (bookkept_new time) (along_topics time events)

/-- The topics with live subscriptions stay fresh when the client is not restarted. -/
theorem record_fresh {topics : List String} {s : MpubsubClient × Ledger} {e : Event}
    (hkept : Bookkept cfg topics s.1 s.2)
    (h : ∀ topic, s.2.callbacks topic ≠ [] → topic ∈ s.2.fresh) (he : NotRestarted s e)
    (outcome : Client.Outcome) (topic : String)
    (hsome : (s.2.record e outcome).callbacks topic ≠ []) :
    topic ∈ (s.2.record e outcome).fresh := by
  have hrest (hsome : s.2.callbacks topic ≠ []) : topic ∈ s.2.fresh := h topic hsome
  cases e with
  | start ifindex =>
    have hlive : s.2.live = [] := by
      by_contra hne
      exact he (fun hnone => hne (hkept.unstarted hnone)) ifindex rfl
    refine absurd ?_ hsome
    show (s.2.live.filter _).map _ = []
    rw [hlive]
    rfl
  | stop => exact absurd rfl hsome
  | subscribe topic' encoding known ok =>
    cases outcome with
    | done => exact hrest hsome
    | raised error => exact hrest hsome
    | subscribed sub =>
      simp only [Ledger.record] at hsome ⊢
      rw [Ledger.callbacks_subscribed] at hsome
      show topic ∈ if s.2.callbacks topic' = [] then s.2.fresh ++ [topic'] else s.2.fresh
      by_cases heq : topic = topic'
      · subst heq
        split
        · exact List.mem_append_right _ (List.mem_singleton_self _)
        · rename_i hne
          exact h topic hne
      · rw [if_neg heq, List.append_nil] at hsome
        split
        · exact List.mem_append_left _ (h topic hsome)
        · exact h topic hsome
  | unsubscribe sub =>
    refine List.mem_filter.mpr ⟨?_, decide_eq_true hsome⟩
    refine h topic fun hnil => hsome ?_
    show (s.2.unsubscribed sub).callbacks topic = []
    rw [Ledger.callbacks_unsubscribed, hnil]
    rfl
  | publish call => exact hrest hsome
  | advance time => exact hrest hsome
  | fire handle ok => exact hrest hsome

theorem exec_fresh (time : Rat) {events : List Event} (hdistinct : Distinct cfg (topicsOf events))
    (halong : (recorded cfg).Along NotRestarted (new time, {}) events) (topic : String)
    (hsome : ((recorded cfg).exec (new time, {}) events).2.callbacks topic ≠ []) :
    topic ∈ ((recorded cfg).exec (new time, {}) events).2.fresh := by
  have hboth := (recorded cfg).exec_invariant_along
    (I := fun s : MpubsubClient × Ledger => Bookkept cfg (topicsOf events) s.1 s.2 ∧
      ∀ topic, s.2.callbacks topic ≠ [] → topic ∈ s.2.fresh)
    (fun s e h he => ⟨record_bookkept h.1 hdistinct he.1, record_fresh h.1 h.2 he.2 _⟩)
    ⟨bookkept_new time, fun topic hsome => absurd rfl hsome⟩
    ((recorded cfg).along_and (along_topics time events) halong)
  exact hboth.2 topic hsome

end

/-! ## The theorem -/

/-- A run that starts the client twice. -/
def restarted : List Event :=
  [.start 0, .subscribe "t" (some "utf-8") true true, .start 0]

/-- After it, the socket has not joined the group of the topic. -/
theorem membership_lost_by_restart :
    ¬GroupsKept {} ((recorded {}).exec (new 0, {}) restarted).1 := by
  intro hkept
  have hsubs : ((recorded {}).exec (new 0, {}) restarted).1.subs.get? "t" ≠ none := by
    decide +kernel
  have hjoined : ((recorded {}).exec (new 0, {}) restarted).1.joined = [] := by
    decide +kernel
  have hmem := (hkept (Reference.topicToGroup "t" .LINK_LOCAL)).mpr ⟨"t", hsubs, rfl⟩
  rw [hjoined] at hmem
  cases hmem

/-- Over every run whose topics have distinct groups: the entries of `subs`, the index, the
memberships, and what a `subscribe` that raises leaves as it was. -/
theorem subscriptions_kept (cfg : Settings) (time : Rat) (events : List Event)
    (hdistinct : Distinct cfg (topicsOf events)) :
    let s := (recorded cfg).exec (new time, {}) events
    (∀ topic, s.1.topicSub? topic = (entry cfg s.2 topic).map some) ∧
      (∀ crc, IndexKept s.1 crc) ∧
      (s.1.joined = s.2.fresh.map (s.1.mreq cfg) ∧
        ∀ topic ∈ s.2.fresh, s.1.subs.get? topic ≠ none) ∧
      ((recorded cfg).Along NotRestarted (new time, {}) events → GroupsKept cfg s.1) ∧
      ∀ topic encoding known ok error,
        (s.1.subscribe cfg topic encoding known ok).2 = .raised error →
          ∃ groups, (s.1.subscribe cfg topic encoding known ok).1 =
            { s.1 with groups := groups } := by
  intro s
  have hkept : Bookkept cfg (topicsOf events) s.1 s.2 :=
    exec_bookkept time hdistinct
  have hfresh : ∀ topic ∈ s.2.fresh, s.1.subs.get? topic ≠ none :=
    fun topic htopic hnone => hkept.fresh_live topic htopic (hkept.get?_eq_none_iff.mp hnone)
  refine ⟨hkept.entries, ?_, ⟨hkept.memberships, hfresh⟩, ?_, ?_⟩
  · exact fun crc => ⟨hkept.index_some crc, hkept.mem_index crc⟩
  · intro halong group
    rw [hkept.memberships, List.map_map]
    constructor
    · intro hmem
      obtain ⟨topic, htopic, rfl⟩ := List.mem_map.mp hmem
      exact ⟨topic, hfresh topic htopic, rfl⟩
    · rintro ⟨topic, hsome, rfl⟩
      have hlive := fun hnil => hsome (hkept.get?_eq_none_iff.mpr hnil)
      exact List.mem_map.mpr ⟨topic, exec_fresh time hdistinct halong topic hlive, rfl⟩
  · intro topic encoding known ok error hraised
    have hcases := subscribe_subscribes hkept.cached topic encoding known ok
    generalize s.1.subscribe cfg topic encoding known ok = result at hcases hraised ⊢
    cases hcases with
    | raised groups => exact ⟨groups, rfl⟩
    | added => cases hraised
    | joined => cases hraised

/-- `subscriptions_kept` for two subscriptions to one topic, of which the first is cancelled
twice. -/
theorem subscriptions_kept_twice :
    ((recorded {}).exec (new 0, {}) [.start 0, .subscribe "t" none true true,
        .subscribe "t" none true false, .unsubscribe 0, .unsubscribe 0]).1.topicSub? "t" =
      some (some
        { topic := "t", crc := Reference.topicCrc32 "t"
          group := Reference.topicToGroup "t" .LINK_LOCAL, callbacks := [1] }) := by
  have hdistinct : Distinct {} (topicsOf [.start 0, .subscribe "t" none true true,
      .subscribe "t" none true false, .unsubscribe 0, .unsubscribe 0]) := by
    intro t ht t' ht' _
    simp only [topicsOf, List.filterMap_cons, Event.topic?, List.filterMap_nil, List.mem_cons,
      List.not_mem_nil, or_false, or_self] at ht ht'
    rw [ht, ht']
  rw [(subscriptions_kept {} 0 _ hdistinct).1 "t", entry, if_neg (by decide +kernel)]
  have hcallbacks : ((recorded {}).exec (new 0, {}) [.start 0, .subscribe "t" none true true,
      .subscribe "t" none true false, .unsubscribe 0, .unsubscribe 0]).2.callbacks "t" = [1] := by
    decide +kernel
  rw [hcallbacks]
  rfl

end Mpubsub.Theorems
