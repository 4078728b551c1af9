import Mpubsub.Lib.Lists
import Mpubsub.Client.Run

/-!
# Subscription bookkeeping of the asyncio client: the invariant

A ledger of the live subscriptions is kept beside the client, from the calls and their
outcomes alone. `Bookkept` ties the topics of `subs`, the CRCs of `crcIndex` and the
memberships of the socket to it. The memberships are those of the `fresh` topics: the ones
that came to have a live subscription since the latest `start`.
-/

namespace Mpubsub.Client

open Mpubsub.Lib Mpubsub.Wire

/-! ## The ledger -/

/-- The live subscriptions in order, each with its topic, and the topics that have had one since
the latest `start`. -/
structure Ledger where
  live : List (String × Nat) := []
  fresh : List String := []
deriving DecidableEq

namespace Ledger

variable (l : Ledger)

/-- The live subscriptions of a topic. -/
def callbacks (topic : String) : List Nat := (l.live.filter fun p => p.1 = topic).map Prod.snd

def subscribed (topic : String) (sub : Nat) : Ledger where
  live := l.live ++ [(topic, sub)]
  fresh := if l.callbacks topic = [] then l.fresh ++ [topic] else l.fresh

def unsubscribed (sub : Nat) : Ledger :=
  let l := { l with live := l.live.filter fun p => p.2 ≠ sub }
  { l with fresh := l.fresh.filter fun topic => l.callbacks topic ≠ [] }

/-- What a call and its outcome do to the ledger. -/
def record : Event → Outcome → Ledger
  | .start _, _ => { l with fresh := [] }
  | .stop, _ => {}
  | .subscribe topic _ _ _, .subscribed sub => l.subscribed topic sub
  | .unsubscribe sub, _ => l.unsubscribed sub
  | _, _ => l

variable {l}

theorem mem_callbacks {topic : String} {sub : Nat} :
    sub ∈ l.callbacks topic ↔ (topic, sub) ∈ l.live := by
  simp [callbacks]

theorem callbacks_subscribed (topic : String) (sub : Nat) (topic' : String) :
    (l.subscribed topic sub).callbacks topic' =
      l.callbacks topic' ++ if topic' = topic then [sub] else [] := by
  unfold callbacks subscribed
  rw [List.filter_append, List.map_append]
  by_cases h : topic' = topic
  · simp [h]
  · simp [h, Ne.symm h]

theorem callbacks_unsubscribed (sub : Nat) (topic : String) :
    (l.unsubscribed sub).callbacks topic = (l.callbacks topic).filter (· ≠ sub) := by
  unfold callbacks unsubscribed
  simp only [List.filter_map, List.filter_filter, Function.comp_def]
  congr 1
  apply List.filter_congr
  intro p _
  rw [Bool.and_comm]

/-- A subscription that is not live. -/
theorem unsubscribed_eq_self {sub : Nat} (h : ∀ p ∈ l.live, p.2 ≠ sub)
    (hfresh : ∀ topic ∈ l.fresh, l.callbacks topic ≠ []) : l.unsubscribed sub = l := by
  have hlive : (l.live.filter fun p => p.2 ≠ sub) = l.live :=
    List.filter_eq_self.mpr fun p hp => decide_eq_true (h p hp)
  unfold unsubscribed
  rw [hlive]
  have hsame : (l.fresh.filter fun topic => l.callbacks topic ≠ []) = l.fresh :=
    List.filter_eq_self.mpr fun topic htopic => decide_eq_true (hfresh topic htopic)
  exact congrArg (Ledger.mk l.live) hsame

end Ledger

/-! ## The invariant -/

namespace MpubsubClient

/-- A client beside its ledger. -/
def recorded (cfg : Settings) : Machine (MpubsubClient × Ledger) Event Outcome :=
  ⟨fun s e => (((s.1.step cfg e).1, s.2.record e (s.1.step cfg e).2), (s.1.step cfg e).2)⟩

/-- The `_TopicSub` of a topic, if `subs` has the topic. -/
def topicSub? (c : MpubsubClient) (topic : String) : Option (Option TopicSub) :=
  (c.subs.get? topic).map fun ref => c.topicSubs[ref]?

/-- The `_TopicSub` that a topic should have. -/
def entry (cfg : Settings) (l : Ledger) (topic : String) : Option TopicSub :=
  if l.callbacks topic = [] then none
  else
    some
      { topic := topic, crc := Reference.topicCrc32 topic
        group := Reference.topicToGroup topic cfg.scope, callbacks := l.callbacks topic }

/-- The membership for a topic. -/
def mreq (cfg : Settings) (c : MpubsubClient) (topic : String) : Mreq :=
  ⟨Reference.topicToGroup topic cfg.scope, c.ifindex⟩

/-- What holds in every reachable state, when the topics are among `topics`. -/
structure Bookkept (cfg : Settings) (topics : List String) (c : MpubsubClient) (l : Ledger) :
    Prop where
  cached : GroupsCached cfg c
  entries : ∀ topic, c.topicSub? topic = (entry cfg l topic).map some
  index_some : ∀ crc refs, c.crcIndex.get? crc = some refs → refs ≠ [] ∧ refs.Nodup
  mem_index : ∀ crc ref, ref ∈ (c.crcIndex.get? crc).getD [] ↔
    ∃ topic, c.subs.get? topic = some ref ∧ Reference.topicCrc32 topic = crc
  captured : ∀ p ∈ l.live, ∃ s, c.subscriptions[p.2]? = some s ∧ s.topic = p.1
  nodup : (l.live.map Prod.snd).Nodup
  memberships : c.joined = l.fresh.map (c.mreq cfg)
  fresh_live : ∀ topic ∈ l.fresh, l.callbacks topic ≠ []
  live_topics : ∀ p ∈ l.live, p.1 ∈ topics
  unstarted : c.sock = none → l.live = []

section

variable {cfg : Settings} {topics : List String} {c c' : MpubsubClient} {l : Ledger}

theorem bookkept_new (time : Rat) : Bookkept cfg topics (new time) {} where
  cached := fun topic group h => by cases h
  entries := fun topic => rfl
  index_some := fun crc refs h => by cases h
  mem_index := fun crc ref => by
    constructor
    · exact fun h => by cases h
    · rintro ⟨topic, h, -⟩
      cases h
  captured := fun p hp => by cases hp
  nodup := List.nodup_nil
  memberships := rfl
  fresh_live := fun topic h => by cases h
  live_topics := fun p hp => by cases hp
  unstarted := fun _ => rfl

/-- The `_TopicSub` of a topic in `subs`. -/
theorem Bookkept.of_get? (h : Bookkept cfg topics c l) {topic : String} {ref : Nat}
    (hget : c.subs.get? topic = some ref) :
    l.callbacks topic ≠ [] ∧ c.topicSubs[ref]? = some
      { topic := topic, crc := Reference.topicCrc32 topic
        group := Reference.topicToGroup topic cfg.scope, callbacks := l.callbacks topic } := by
  have hentry := h.entries topic
  rw [topicSub?, hget, Option.map_some, entry] at hentry
  split at hentry
  · cases hentry
  · rename_i hne
    exact ⟨hne, Option.some.inj hentry⟩

theorem Bookkept.get?_eq_none_iff (h : Bookkept cfg topics c l) {topic : String} :
    c.subs.get? topic = none ↔ l.callbacks topic = [] := by
  have hentry := h.entries topic
  rw [topicSub?, entry] at hentry
  constructor
  · intro hget
    rw [hget] at hentry
    by_contra hne
    rw [if_neg hne] at hentry
    cases hentry
  · intro hnil
    rw [if_pos hnil] at hentry
    exact Option.map_eq_none_iff.mp hentry

/-- A `_TopicSub` belongs to one topic. -/
theorem Bookkept.topic_unique (h : Bookkept cfg topics c l) {topic topic' : String} {ref : Nat}
    (hget : c.subs.get? topic = some ref) (hget' : c.subs.get? topic' = some ref) :
    topic = topic' := by
  have hsub := (h.of_get? hget).2
  rw [(h.of_get? hget').2] at hsub
  cases hsub
  rfl

theorem Bookkept.index_nodup (h : Bookkept cfg topics c l) (crc : Nat) :
    ((c.crcIndex.get? crc).getD []).Nodup := by
  cases hindex : c.crcIndex.get? crc with
  | none => exact List.nodup_nil
  | some refs => exact (h.index_some crc refs hindex).2

/-- The other topics keep their `_TopicSub`s when the one of `topic` changes. -/
theorem Bookkept.entries_of_ne (h : Bookkept cfg topics c l) {topic topic' : String} {ref : Nat}
    (hget : c.subs.get? topic = some ref) (hne : topic' ≠ topic) {topicSubs : List TopicSub}
    (hsame : ∀ ref', ref ≠ ref' → topicSubs[ref']? = c.topicSubs[ref']?) :
    ((c.subs.get? topic').map fun ref' => topicSubs[ref']?) = (entry cfg l topic').map some := by
  rw [← h.entries topic', topicSub?]
  cases hget' : c.subs.get? topic' with
  | none => rfl
  | some ref' =>
    have hother : ref ≠ ref' := fun heq => hne (h.topic_unique (heq ▸ hget') hget)
    rw [Option.map_some, Option.map_some, hsame ref' hother]

/-- A step that leaves the bookkeeping alone. -/
theorem Bookkept.frame (h : Bookkept cfg topics c l) (hcached : GroupsCached cfg c')
    (hsubs : c'.subs = c.subs) (hindex : c'.crcIndex = c.crcIndex)
    (htopicSubs : c'.topicSubs = c.topicSubs) (hsubscriptions : c'.subscriptions = c.subscriptions)
    (hsock : c'.sock = c.sock) (hsockets : c'.sockets = c.sockets)
    (hifindex : c'.ifindex = c.ifindex) : Bookkept cfg topics c' l := by
  constructor
  · exact hcached
  · intro topic
    rw [topicSub?, hsubs, htopicSubs]
    exact h.entries topic
  · rw [hindex]
    exact h.index_some
  · rw [hindex, hsubs]
    exact h.mem_index
  · rw [hsubscriptions]
    exact h.captured
  · exact h.nodup
  · have hmreq : c'.mreq cfg = c.mreq cfg := by
      funext topic
      rw [mreq, mreq, hifindex]
    rw [joined, hsock, hsockets, hmreq]
    exact h.memberships
  · exact h.fresh_live
  · exact h.live_topics
  · rw [hsock]
    exact h.unstarted

/-! ## Start and stop -/

theorem Bookkept.start (h : Bookkept cfg topics c l) (ifindex : Nat) :
    Bookkept cfg topics (c.start cfg ifindex) { l with fresh := [] } := by
  have hjoined : (c.start cfg ifindex).joined = [] := by
    unfold MpubsubClient.start joined
    split <;> simp
  constructor
  · unfold MpubsubClient.start
    split <;> exact h.cached
  · unfold MpubsubClient.start
    split <;> exact h.entries
  · unfold MpubsubClient.start
    split <;> exact h.index_some
  · unfold MpubsubClient.start
    split <;> exact h.mem_index
  · unfold MpubsubClient.start
    split <;> exact h.captured
  · exact h.nodup
  · exact hjoined
  · exact fun topic htopic => by cases htopic
  · exact h.live_topics
  · exact fun hnone => by cases hnone

theorem Bookkept.stop (h : Bookkept cfg topics c l) : Bookkept cfg topics c.stop {} where
  cached := h.cached
  entries := fun topic => rfl
  index_some := fun crc refs hget => by cases hget
  mem_index := fun crc ref => by
    constructor
    · exact fun hmem => by cases hmem
    · rintro ⟨topic, hget, -⟩
      cases hget
  captured := fun p hp => by cases hp
  nodup := List.nodup_nil
  memberships := rfl
  fresh_live := fun topic htopic => by cases htopic
  live_topics := fun p hp => by cases hp
  unstarted := fun _ => rfl

/-! ## Subscribing -/

/-- The number of a new subscription is not live. -/
theorem Bookkept.lt_length (h : Bookkept cfg topics c l) {p : String × Nat} (hp : p ∈ l.live) :
    p.2 < c.subscriptions.length := by
  obtain ⟨s, hs, -⟩ := h.captured p hp
  obtain ⟨hlt, -⟩ := List.getElem?_eq_some_iff.mp hs
  exact hlt

/-- What the ledger and the subscriptions keep when a subscription is added. -/
theorem Bookkept.captured_concat (h : Bookkept cfg topics c l) (topic : String)
    (encoding : Option String) :
    (∀ p ∈ l.live ++ [(topic, c.subscriptions.length)], ∃ s,
      (c.subscriptions ++ [⟨topic, encoding⟩])[p.2]? = some s ∧ s.topic = p.1) ∧
    ((l.live ++ [(topic, c.subscriptions.length)]).map Prod.snd).Nodup := by
  constructor
  · refine forall_mem_concat.mpr ⟨fun p hp => ?_, ⟨_, List.getElem?_concat_length, rfl⟩⟩
    obtain ⟨s, hs, htopic⟩ := h.captured p hp
    exact ⟨s, getElem?_concat_eq_some_iff.mpr (.inl hs), htopic⟩
  · rw [List.map_append]
    refine h.nodup.append (List.nodup_singleton _) ?_
    intro sub hsub hnew
    obtain ⟨p, hp, rfl⟩ := List.mem_map.mp hsub
    exact absurd (List.mem_singleton.mp hnew) (Nat.ne_of_lt (h.lt_length hp))

theorem entry_subscribed (topic : String) (sub : Nat) (topic' : String) :
    entry cfg (l.subscribed topic sub) topic' =
      if topic' = topic then
        some
          { topic := topic, crc := Reference.topicCrc32 topic
            group := Reference.topicToGroup topic cfg.scope
            callbacks := l.callbacks topic ++ [sub] }
      else entry cfg l topic' := by
  unfold entry
  rw [Ledger.callbacks_subscribed]
  by_cases h : topic' = topic
  · subst h
    simp
  · simp [h]

/-- One more subscription to a topic that has some. -/
theorem Bookkept.added (h : Bookkept cfg topics c l) {topic : String} {ref : Nat}
    (hget : c.subs.get? topic = some ref) (htopic : topic ∈ topics) (encoding : Option String) :
    Bookkept cfg topics (c.register ref ⟨topic, encoding⟩)
      (l.subscribed topic c.subscriptions.length) := by
  obtain ⟨hsome, href⟩ := h.of_get? hget
  obtain ⟨hcaptured, hnodup⟩ := h.captured_concat topic encoding
  have hfresh : (l.subscribed topic c.subscriptions.length).fresh = l.fresh := if_neg hsome
  constructor
  · exact h.cached
  · intro topic'
    rw [entry_subscribed]
    simp only [topicSub?, register]
    split
    · rename_i heq
      rw [heq, hget, Option.map_some, List.getElem?_modify_eq, href]
      rfl
    · rename_i hne
      exact h.entries_of_ne hget hne fun ref' hother => List.getElem?_modify_ne _ _ hother
  · exact h.index_some
  · exact h.mem_index
  · exact hcaptured
  · exact hnodup
  · rw [hfresh]
    exact h.memberships
  · rw [hfresh]
    intro topic' hin
    rw [Ledger.callbacks_subscribed]
    simp [h.fresh_live topic' hin]
  · exact forall_mem_concat.mpr ⟨h.live_topics, htopic⟩
  · intro hnone
    have hlive := h.unstarted hnone
    rw [Ledger.callbacks, hlive] at hsome
    exact absurd rfl hsome

/-- The references in the index belong to objects. -/
theorem Bookkept.ref_lt (h : Bookkept cfg topics c l) {topic : String} {ref : Nat}
    (hget : c.subs.get? topic = some ref) : ref < c.topicSubs.length := by
  obtain ⟨hlt, -⟩ := List.getElem?_eq_some_iff.mp (h.of_get? hget).2
  exact hlt

/-- The first subscription to a topic, whose group the socket joins. -/
theorem Bookkept.subscribed (h : Bookkept cfg topics c l) {topic : String} {i : Nat}
    {joined : List Mreq} {groups : Dict String GroupAddr}
    (hcached : GroupsCached cfg { c with groups := groups }) (hget : c.subs.get? topic = none)
    (hsock : c.sock = some i) (hjoined : c.sockets[i]? = some joined) (htopic : topic ∈ topics)
    (encoding : Option String) :
    Bookkept cfg topics
      (({ c with
          groups := groups
          sockets := c.sockets.set i
            (joined ++ [Mreq.mk (Reference.topicToGroup topic cfg.scope) c.ifindex]) }.adopt
          { topic := topic, crc := Reference.topicCrc32 topic
            group := Reference.topicToGroup topic cfg.scope }).register
        c.topicSubs.length ⟨topic, encoding⟩)
      (l.subscribed topic c.subscriptions.length) := by
  have hnone := h.get?_eq_none_iff.mp hget
  obtain ⟨hcaptured, hnodup⟩ := h.captured_concat topic encoding
  have hfresh : (l.subscribed topic c.subscriptions.length).fresh = l.fresh ++ [topic] :=
    if_pos hnone
  -- The place of the new `_TopicSub` is in no list of the index.
  have hnew (crc : Nat) : c.topicSubs.length ∉ (c.crcIndex.get? crc).getD [] := by
    intro hmem
    obtain ⟨topic', hget', -⟩ := (h.mem_index crc _).mp hmem
    exact Nat.lt_irrefl _ (h.ref_lt hget')
  constructor
  · exact hcached
  · intro topic'
    rw [entry_subscribed]
    simp only [topicSub?, register, adopt]
    rw [Dict.get?_set]
    split
    · rename_i heq
      rw [Option.map_some, List.getElem?_modify_eq, List.getElem?_concat_length, hnone]
      rfl
    · rw [← h.entries topic', topicSub?]
      cases hget' : c.subs.get? topic' with
      | none => rfl
      | some ref =>
        have hlt := h.ref_lt hget'
        rw [Option.map_some, Option.map_some, List.getElem?_modify_ne _ _ (Nat.ne_of_gt hlt),
          List.getElem?_append_left hlt]
  · intro crc refs hrefs
    have hrefs : (c.crcIndex.set (Reference.topicCrc32 topic) _).get? crc = some refs := hrefs
    rw [Dict.get?_set] at hrefs
    split at hrefs
    · cases hrefs
      refine ⟨by simp, (h.index_nodup _).append (List.nodup_singleton _) ?_⟩
      intro ref href heq
      rw [List.mem_singleton.mp heq] at href
      exact hnew _ href
    · exact h.index_some crc refs hrefs
  · intro crc ref
    show ref ∈ ((c.crcIndex.set (Reference.topicCrc32 topic) _).get? crc).getD [] ↔
      ∃ topic', (c.subs.set topic c.topicSubs.length).get? topic' = some ref ∧ _
    rw [Dict.getD_set_append, List.mem_append, h.mem_index, Dict.exists_get?_set_iff hget]
    refine or_congr_right ?_
    by_cases hcrc : crc = Reference.topicCrc32 topic
    · simp [hcrc]
    · simp [hcrc, Ne.symm hcrc]
  · exact hcaptured
  · exact hnodup
  · rw [hfresh, List.map_append]
    have hold := h.memberships
    rw [MpubsubClient.joined, hsock, Option.bind_some, hjoined, Option.getD_some] at hold
    obtain ⟨hlt, -⟩ := List.getElem?_eq_some_iff.mp hjoined
    show (c.sock.bind fun i' => (c.sockets.set i _)[i']?).getD [] = _
    rw [hsock, Option.bind_some, List.getElem?_set_self hlt, Option.getD_some, hold]
    rfl
  · rw [hfresh]
    intro topic' hin
    rw [Ledger.callbacks_subscribed]
    rcases List.mem_append.mp hin with hin | hin
    · simp [h.fresh_live topic' hin]
    · simp [List.mem_singleton.mp hin]
  · exact forall_mem_concat.mpr ⟨h.live_topics, htopic⟩
  · intro hsome
    cases hsock.symm.trans hsome

/-! ## Unsubscribing -/

theorem Bookkept.stale (h : Bookkept cfg topics c l) {sub : Nat}
    (hstale : ∀ subscription ref topicSub, c.subscriptions[sub]? = some subscription →
      c.subs.get? subscription.topic = some ref → c.topicSubs[ref]? = some topicSub →
      sub ∉ topicSub.callbacks) : Bookkept cfg topics c (l.unsubscribed sub) := by
  have hdead : ∀ p ∈ l.live, p.2 ≠ sub := by
    rintro ⟨topic, sub'⟩ hp rfl
    obtain ⟨s, hs, rfl⟩ := h.captured _ hp
    have hmem := Ledger.mem_callbacks.mpr hp
    cases hget : c.subs.get? s.topic with
    | none =>
      rw [h.get?_eq_none_iff.mp hget] at hmem
      cases hmem
    | some ref => exact hstale s ref _ hs hget (h.of_get? hget).2 hmem
  rw [Ledger.unsubscribed_eq_self hdead h.fresh_live]
  exact h

theorem Bookkept.callbacks_nodup (h : Bookkept cfg topics c l) (topic : String) :
    (l.callbacks topic).Nodup :=
  h.nodup.sublist (List.filter_sublist.map _)

/-- What is left of the callbacks of each topic. -/
theorem Bookkept.callbacks_unsubscribed (h : Bookkept cfg topics c l) {topic : String} {sub : Nat}
    (hsub : sub ∈ l.callbacks topic) (topic' : String) :
    (l.unsubscribed sub).callbacks topic' =
      if topic' = topic then (l.callbacks topic).erase sub else l.callbacks topic' := by
  rw [Ledger.callbacks_unsubscribed]
  split
  · rename_i heq
    rw [heq, (h.callbacks_nodup topic).erase_eq_filter]
    apply List.filter_congr
    intro sub' _
    exact Bool.eq_iff_iff.mpr (by simp)
  · rename_i hne
    refine List.filter_eq_self.mpr fun sub' hsub' => decide_eq_true ?_
    rintro rfl
    have hpair := List.inj_on_of_nodup_map h.nodup (Ledger.mem_callbacks.mp hsub)
      (Ledger.mem_callbacks.mp hsub') rfl
    exact hne (Prod.ext_iff.mp hpair).1.symm

/-- What the ledger and the subscriptions keep when a subscription goes. -/
theorem Bookkept.captured_unsubscribed (h : Bookkept cfg topics c l) (sub : Nat) :
    (∀ p ∈ (l.unsubscribed sub).live, p ∈ l.live) ∧
      ((l.unsubscribed sub).live.map Prod.snd).Nodup ∧
      (c.sock = none → (l.unsubscribed sub).live = []) := by
  refine ⟨fun _ hp => (List.mem_filter.mp hp).1, h.nodup.sublist (List.filter_sublist.map _), ?_⟩
  intro hnone
  exact List.filter_eq_nil_iff.mpr fun p hp => by
    rw [h.unstarted hnone] at hp
    cases hp

/-- A subscription goes, and its topic has others. -/
theorem Bookkept.shortened (h : Bookkept cfg topics c l) {topic : String} {ref sub : Nat}
    {topicSub : TopicSub} (hget : c.subs.get? topic = some ref)
    (href : c.topicSubs[ref]? = some topicSub) (hmem : sub ∈ topicSub.callbacks)
    (hrest : topicSub.callbacks.erase sub ≠ []) :
    Bookkept cfg topics
      { c with
        topicSubs := c.topicSubs.set ref
          { topicSub with callbacks := topicSub.callbacks.erase sub } }
      (l.unsubscribed sub) := by
  cases href.symm.trans (h.of_get? hget).2
  have hcallbacks := h.callbacks_unsubscribed hmem
  obtain ⟨hsub, hnodup, hunstarted⟩ := h.captured_unsubscribed sub
  have hlive (topic' : String) :
      (l.unsubscribed sub).callbacks topic' = [] ↔ l.callbacks topic' = [] := by
    rw [hcallbacks]
    split
    · rename_i heq
      rw [heq]
      exact iff_of_false hrest (h.of_get? hget).1
    · rfl
  have hfresh : (l.unsubscribed sub).fresh = l.fresh := by
    refine List.filter_eq_self.mpr fun topic' hin => decide_eq_true ?_
    exact fun hnil => h.fresh_live topic' hin ((hlive topic').mp hnil)
  constructor
  · exact h.cached
  · intro topic'
    simp only [topicSub?, entry, hlive]
    by_cases heq : topic' = topic
    · rw [heq, hget, Option.map_some, if_neg (h.of_get? hget).1, hcallbacks, if_pos rfl,
        List.getElem?_set_self (h.ref_lt hget)]
      rfl
    · rw [hcallbacks, if_neg heq]
      exact h.entries_of_ne hget heq fun ref' hother => List.getElem?_set_ne hother
  · exact h.index_some
  · exact h.mem_index
  · exact fun p hp => h.captured p (hsub p hp)
  · exact hnodup
  · rw [hfresh]
    exact h.memberships
  · rw [hfresh]
    exact fun topic' hin hnil => h.fresh_live topic' hin ((hlive topic').mp hnil)
  · exact fun p hp => h.live_topics p (hsub p hp)
  · exact hunstarted

theorem joined_abandon (c : MpubsubClient) (ref : Nat) (topicSub : TopicSub) :
    (c.abandon ref topicSub).joined = c.joined.filter (· ≠ ⟨topicSub.group, c.ifindex⟩) := by
  simp only [joined, abandon]
  cases c.sock with
  | none => rfl
  | some i =>
    simp only [Option.bind_some, leaveGroup, List.getElem?_modify_eq]
    cases c.sockets[i]? <;> rfl

section Abandon

variable {topic : String} {ref sub : Nat} {topicSub : TopicSub}

/-- The lists of the index lose the `_TopicSub`, and an empty one goes. -/
theorem Bookkept.index_some_abandon (h : Bookkept cfg topics c l) (ref : Nat) (topicSub : TopicSub)
    (crc : Nat) (refs : List Nat) (hrefs : (c.abandon ref topicSub).crcIndex.get? crc = some refs) :
    refs ≠ [] ∧ refs.Nodup := by
  simp only [abandon] at hrefs
  split at hrefs
  · rw [Dict.get?_erase] at hrefs
    split at hrefs
    · cases hrefs
    · exact h.index_some crc refs hrefs
  · rename_i hne
    rw [Dict.get?_set] at hrefs
    split at hrefs
    · cases hrefs
      exact ⟨hne, (h.index_nodup _).erase ref⟩
    · exact h.index_some crc refs hrefs

theorem Bookkept.mem_index_abandon (h : Bookkept cfg topics c l)
    (hget : c.subs.get? topic = some ref) (htopic : topicSub.topic = topic)
    (hcrc : topicSub.crc = Reference.topicCrc32 topic) (crc ref' : Nat) :
    ref' ∈ ((c.abandon ref topicSub).crcIndex.get? crc).getD [] ↔
      ∃ topic', (c.abandon ref topicSub).subs.get? topic' = some ref' ∧
        Reference.topicCrc32 topic' = crc := by
  simp only [abandon, htopic, hcrc]
  rw [Dict.getD_set_or_erase, Dict.exists_get?_erase_iff]
  split
  · rename_i hcrc
    rw [(h.index_nodup _).mem_erase_iff, h.mem_index, hcrc]
    constructor
    · rintro ⟨hne, topic', hget', hcrc'⟩
      refine ⟨topic', hget', ?_, hcrc'⟩
      rintro rfl
      exact hne (Option.some.inj (hget'.symm.trans hget))
    · rintro ⟨topic', hget', hne, hcrc'⟩
      refine ⟨?_, topic', hget', hcrc'⟩
      rintro rfl
      exact hne (h.topic_unique hget' hget)
  · rename_i hcrc
    rw [h.mem_index]
    refine exists_congr fun topic' => and_congr_right fun _ => ?_
    refine ⟨fun hcrc' => ⟨?_, hcrc'⟩, And.right⟩
    rintro rfl
    exact hcrc hcrc'.symm

/-- The group that the socket leaves is that of no other topic. -/
theorem Bookkept.memberships_abandon (h : Bookkept cfg topics c l)
    (hdistinct : ∀ t ∈ topics, ∀ t' ∈ topics, Reference.topicToGroup t cfg.scope =
      Reference.topicToGroup t' cfg.scope → t = t')
    (htopic : topic ∈ topics) (hgroup : topicSub.group = Reference.topicToGroup topic cfg.scope)
    (ref : Nat) : (c.abandon ref topicSub).joined = (l.fresh.filter (· ≠ topic)).map (c.mreq cfg) := by
  rw [joined_abandon, hgroup, h.memberships]
  refine filter_ne_map (c.mreq cfg) ?_
  intro topic' hin heq
  obtain ⟨sub', hsub'⟩ := List.exists_mem_of_ne_nil _ (h.fresh_live topic' hin)
  exact hdistinct topic' (h.live_topics _ (Ledger.mem_callbacks.mp hsub')) topic htopic
    (Mreq.mk.inj heq).1

/-- The topic of the last subscription is fresh no more. -/
theorem Bookkept.fresh_unsubscribed (h : Bookkept cfg topics c l)
    (hlast : ∀ topic', (l.unsubscribed sub).callbacks topic' =
      if topic' = topic then [] else l.callbacks topic') :
    (l.unsubscribed sub).fresh = l.fresh.filter (· ≠ topic) := by
  apply List.filter_congr
  intro topic' hin
  refine decide_eq_decide.mpr ?_
  rw [show ({ l with live := l.live.filter fun p => p.2 ≠ sub } : Ledger).callbacks topic' =
    (l.unsubscribed sub).callbacks topic' from rfl, hlast]
  split
  · rename_i heq
    exact iff_of_false (fun hne => hne rfl) fun hne => hne heq
  · rename_i hne
    exact iff_of_true (h.fresh_live topic' hin) hne

/-- The last subscription of a topic goes, and the socket leaves its group. -/
theorem Bookkept.abandoned (h : Bookkept cfg topics c l)
    (hdistinct : ∀ t ∈ topics, ∀ t' ∈ topics, Reference.topicToGroup t cfg.scope =
      Reference.topicToGroup t' cfg.scope → t = t')
    (hget : c.subs.get? topic = some ref) (href : c.topicSubs[ref]? = some topicSub)
    (hmem : sub ∈ topicSub.callbacks) (hrest : topicSub.callbacks.erase sub = []) :
    Bookkept cfg topics
      ({ c with
          topicSubs := c.topicSubs.set ref
            { topicSub with callbacks := topicSub.callbacks.erase sub } }.abandon ref
        { topicSub with callbacks := topicSub.callbacks.erase sub })
      (l.unsubscribed sub) := by
  cases href.symm.trans (h.of_get? hget).2
  have hcallbacks := h.callbacks_unsubscribed hmem
  obtain ⟨hsub, hnodup, hunstarted⟩ := h.captured_unsubscribed sub
  have hlive (topic' : String) :
      (l.unsubscribed sub).callbacks topic' = if topic' = topic then [] else l.callbacks topic' := by
    rw [hcallbacks, show (l.callbacks topic).erase sub = [] from hrest]
  have htopic : topic ∈ topics := h.live_topics _ (Ledger.mem_callbacks.mp hmem)
  have hfresh := h.fresh_unsubscribed hlive
  constructor
  · exact h.cached
  · intro topic'
    simp only [topicSub?, entry, hlive, abandon]
    rw [Dict.get?_erase]
    by_cases heq : topic' = topic
    · simp [heq]
    · rw [if_neg heq, if_neg heq]
      exact h.entries_of_ne hget heq fun ref' hother => List.getElem?_set_ne hother
  · exact h.index_some_abandon ref _
  · exact h.mem_index_abandon hget rfl rfl
  · exact fun p hp => h.captured p (hsub p hp)
  · exact hnodup
  · rw [hfresh]
    exact h.memberships_abandon hdistinct htopic rfl ref
  · rw [hfresh]
    intro topic' hin
    obtain ⟨hin, hne⟩ := List.mem_filter.mp hin
    rw [hlive, if_neg (of_decide_eq_true hne)]
    exact h.fresh_live topic' hin
  · exact fun p hp => h.live_topics p (hsub p hp)
  · exact hunstarted

end Abandon

/-! ## Runs -/

theorem Bookkept.same (h : Bookkept cfg topics c l) (hsame : SameSubscriptions c c') :
    Bookkept cfg topics c' l := by
  refine h.frame ?_ hsame.subs hsame.crcIndex hsame.topicSubs hsame.subscriptions hsame.sock
    hsame.sockets hsame.ifindex
  intro topic group hget
  rw [hsame.groups] at hget
  exact h.cached topic group hget

/-- The topics that a run subscribes to. -/
def Event.topic? : Event → Option String
  | .subscribe topic _ _ _ => some topic
  | _ => none

theorem record_bookkept (h : Bookkept cfg topics c l)
    (hdistinct : ∀ t ∈ topics, ∀ t' ∈ topics, Reference.topicToGroup t cfg.scope =
      Reference.topicToGroup t' cfg.scope → t = t')
    {e : Event} (he : ∀ topic, Event.topic? e = some topic → topic ∈ topics) :
    Bookkept cfg topics (c.step cfg e).1 (l.record e (c.step cfg e).2) := by
  cases e with
  | start ifindex => exact h.start ifindex
  | stop => exact h.stop
  | subscribe topic encoding known ok =>
    have hcases := subscribe_subscribes h.cached topic encoding known ok
    simp only [step]
    generalize c.subscribe cfg topic encoding known ok = result at hcases
    cases hcases with
    | raised groups error hcached => exact h.frame hcached rfl rfl rfl rfl rfl rfl rfl
    | added ref hget => exact h.added hget (he topic rfl) encoding
    | joined groups i joined hcached hget hsock hjoined =>
      exact h.subscribed hcached hget hsock hjoined (he topic rfl) encoding
  | unsubscribe sub =>
    have hcases := unsubscribe_unsubscribes c sub
    simp only [step, Ledger.record]
    generalize c.unsubscribe sub = result at hcases
    cases hcases with
    | stale hstale => exact h.stale hstale
    | shortened subscription ref topicSub hsub hget href hmem hrest =>
      exact h.shortened hget href hmem hrest
    | abandoned subscription ref topicSub hsub hget href hmem hrest =>
      exact h.abandoned hdistinct hget href hmem hrest
  | publish call =>
    obtain ⟨groups, hcached, hcases⟩ := publish_cases h.cached call
    have hgroups : Bookkept cfg topics { c with groups := groups } l :=
      h.frame hcached rfl rfl rfl rfl rfl rfl rfl
    simp only [step, Ledger.record]
    rcases hcases with heq | ⟨-, data, heq⟩
    · rw [heq]
      exact hgroups
    · rw [heq]
      exact hgroups.same (transmit_sameSubscriptions _ _ _ _)
  | advance time => exact h.frame h.cached rfl rfl rfl rfl rfl rfl rfl
  | fire handle ok => exact h.same (fire_sameSubscriptions c handle ok)

end

end MpubsubClient

end Mpubsub.Client
