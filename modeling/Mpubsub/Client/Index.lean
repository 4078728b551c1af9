import Mpubsub.Client.Bookkeeping

/-!
# The index of the asyncio client

What a datagram's dispatch needs of the bookkeeping, in every reachable state: the index has
each `_TopicSub` once, under the CRC of its topic, and a subscription is a callback of one
`_TopicSub`, once. It does not matter here which topics share a CRC or a group.
-/

namespace Mpubsub.Client

open Mpubsub.Lib Mpubsub.Wire

namespace MpubsubClient

/-- What holds of the index in every reachable state. -/
structure Indexed (cfg : Settings) (c : MpubsubClient) : Prop where
  cached : GroupsCached cfg c
  nodup : ∀ crc, ((c.crcIndex.get? crc).getD []).Nodup
  index : ∀ crc, ∀ ref ∈ (c.crcIndex.get? crc).getD [], ∃ topicSub,
    c.topicSubs[ref]? = some topicSub ∧ topicSub.crc = crc
  entries : ∀ topic ref, c.subs.get? topic = some ref → ∃ topicSub,
    c.topicSubs[ref]? = some topicSub ∧ topicSub.topic = topic
  crcs : ∀ topicSub ∈ c.topicSubs, topicSub.crc = Reference.topicCrc32 topicSub.topic
  callbacks : ∀ topicSub ∈ c.topicSubs, topicSub.callbacks.Nodup
  captured : ∀ topicSub ∈ c.topicSubs, ∀ sub ∈ topicSub.callbacks, ∃ subscription,
    c.subscriptions[sub]? = some subscription ∧ subscription.topic = topicSub.topic
  disjoint : ∀ (i j : Nat) (t t' : TopicSub), c.topicSubs[i]? = some t →
    c.topicSubs[j]? = some t' → ∀ sub ∈ t.callbacks, sub ∈ t'.callbacks → i = j

variable {cfg : Settings} {c c' : MpubsubClient}

theorem indexed_new (time : Rat) : Indexed cfg (new time) where
  cached := fun topic group h => by cases h
  nodup := fun crc => List.nodup_nil
  index := fun crc ref h => by cases h
  entries := fun topic ref h => by cases h
  crcs := fun topicSub h => by cases h
  callbacks := fun topicSub h => by cases h
  captured := fun topicSub h => by cases h
  disjoint := fun i j t t' h => by cases h

/-- A step that leaves the subscriptions alone. -/
theorem Indexed.frame (h : Indexed cfg c) (hcached : GroupsCached cfg c')
    (hsubs : c'.subs = c.subs) (hindex : c'.crcIndex = c.crcIndex)
    (htopicSubs : c'.topicSubs = c.topicSubs)
    (hsubscriptions : c'.subscriptions = c.subscriptions) : Indexed cfg c' where
  cached := hcached
  nodup := by
    rw [hindex]
    exact h.nodup
  index := by
    rw [hindex, htopicSubs]
    exact h.index
  entries := by
    rw [hsubs, htopicSubs]
    exact h.entries
  crcs := by
    rw [htopicSubs]
    exact h.crcs
  callbacks := by
    rw [htopicSubs]
    exact h.callbacks
  captured := by
    rw [htopicSubs, hsubscriptions]
    exact h.captured
  disjoint := by
    rw [htopicSubs]
    exact h.disjoint

theorem Indexed.same (h : Indexed cfg c) (hsame : SameSubscriptions c c') : Indexed cfg c' := by
  refine h.frame ?_ hsame.subs hsame.crcIndex hsame.topicSubs hsame.subscriptions
  intro topic group hget
  rw [hsame.groups] at hget
  exact h.cached topic group hget

theorem Indexed.start (h : Indexed cfg c) (ifindex : Nat) : Indexed cfg (c.start cfg ifindex) := by
  unfold MpubsubClient.start
  split
  · exact h.frame h.cached rfl rfl rfl rfl
  · exact h.frame h.cached rfl rfl rfl rfl

theorem Indexed.stop (h : Indexed cfg c) : Indexed cfg c.stop where
  cached := h.cached
  nodup := fun crc => List.nodup_nil
  index := fun crc ref hmem => by cases hmem
  entries := fun topic ref hget => by cases hget
  crcs := h.crcs
  callbacks := h.callbacks
  captured := h.captured
  disjoint := h.disjoint

/-! ## Subscribing -/

/-- A `_TopicSub` without callbacks is entered. -/
theorem Indexed.adopt (h : Indexed cfg c) (topic : String) (group : GroupAddr) :
    Indexed cfg
      (c.adopt { topic := topic, crc := Reference.topicCrc32 topic, group := group }) := by
  have hold {ref : Nat} {topicSub : TopicSub} (href : c.topicSubs[ref]? = some topicSub)
      (new : TopicSub) : (c.topicSubs ++ [new])[ref]? = some topicSub :=
    getElem?_concat_eq_some_iff.mpr (.inl href)
  constructor
  · exact h.cached
  · intro crc
    simp only [MpubsubClient.adopt]
    rw [Dict.getD_set_append]
    refine (h.nodup crc).append (by split <;> simp) ?_
    intro ref href hnew
    obtain ⟨topicSub, hget, -⟩ := h.index crc ref href
    split at hnew
    · rw [List.mem_singleton.mp hnew, List.getElem?_eq_none (Nat.le_refl _)] at hget
      cases hget
    · cases hnew
  · intro crc ref
    simp only [MpubsubClient.adopt]
    rw [Dict.getD_set_append]
    intro href
    rcases List.mem_append.mp href with href | href
    · obtain ⟨topicSub, hget, heq⟩ := h.index crc ref href
      exact ⟨topicSub, hold hget _, heq⟩
    · split at href
      · rename_i hcrc
        rw [List.mem_singleton.mp href]
        exact ⟨_, List.getElem?_concat_length, hcrc.symm⟩
      · cases href
  · intro topic' ref
    simp only [MpubsubClient.adopt, Dict.get?_set]
    split
    · rename_i htopic
      intro href
      cases href
      exact ⟨_, List.getElem?_concat_length, htopic.symm⟩
    · intro href
      obtain ⟨topicSub, hget, heq⟩ := h.entries _ ref href
      exact ⟨topicSub, hold hget _, heq⟩
  · exact List.forall_mem_append.mpr ⟨h.crcs, List.forall_mem_singleton.mpr rfl⟩
  · exact List.forall_mem_append.mpr ⟨h.callbacks, List.forall_mem_singleton.mpr List.nodup_nil⟩
  · exact List.forall_mem_append.mpr
      ⟨h.captured, List.forall_mem_singleton.mpr fun sub hsub => by cases hsub⟩
  · intro i j t t' hi hj sub hsub hsub'
    have hcases {i : Nat} {t : TopicSub} (hi : (c.topicSubs ++
        [{ topic := topic, crc := Reference.topicCrc32 topic, group := group }])[i]? = some t)
        (hsub : sub ∈ t.callbacks) : c.topicSubs[i]? = some t := by
      rcases getElem?_concat_eq_some_iff.mp hi with hi | ⟨-, rfl⟩
      · exact hi
      · cases hsub
    exact h.disjoint i j t t' (hcases hi hsub) (hcases hj hsub') sub hsub hsub'

/-- A `_TopicSub` gets other callbacks: of its own, or such as no other one has. -/
theorem Indexed.replace (h : Indexed cfg c) {ref : Nat} {topicSub : TopicSub}
    (href : c.topicSubs[ref]? = some topicSub) {callbacks : List Nat}
    {subscriptions : List Subscription} (hnodup : callbacks.Nodup)
    (hold : ∀ (i : Nat) s, c.subscriptions[i]? = some s → subscriptions[i]? = some s)
    (hcaptured : ∀ sub ∈ callbacks, ∃ subscription,
      subscriptions[sub]? = some subscription ∧ subscription.topic = topicSub.topic)
    (hown : ∀ sub ∈ callbacks, sub ∈ topicSub.callbacks ∨ ∀ t ∈ c.topicSubs, sub ∉ t.callbacks) :
    Indexed cfg
      { c with
        subscriptions := subscriptions
        topicSubs := c.topicSubs.set ref { topicSub with callbacks := callbacks } } := by
  have hget {i : Nat} {t : TopicSub} (hi : c.topicSubs[i]? = some t) : ∃ t',
      (c.topicSubs.set ref { topicSub with callbacks := callbacks })[i]? = some t' ∧
        t'.crc = t.crc ∧ t'.topic = t.topic := by
    by_cases heq : ref = i
    · subst heq
      obtain ⟨hlt, -⟩ := List.getElem?_eq_some_iff.mp href
      cases href.symm.trans hi
      exact ⟨_, List.getElem?_set_self hlt, rfl, rfl⟩
    · exact ⟨t, (List.getElem?_set_ne heq).trans hi, rfl, rfl⟩
  have hmem := List.mem_of_getElem? href
  constructor
  · exact h.cached
  · exact h.nodup
  · intro crc i hi
    obtain ⟨t, ht, hcrc⟩ := h.index crc i hi
    obtain ⟨t', ht', hcrc', -⟩ := hget ht
    exact ⟨t', ht', hcrc'.trans hcrc⟩
  · intro topic i hi
    obtain ⟨t, ht, htopic⟩ := h.entries topic i hi
    obtain ⟨t', ht', -, htopic'⟩ := hget ht
    exact ⟨t', ht', htopic'.trans htopic⟩
  · intro t ht
    rcases List.mem_or_eq_of_mem_set ht with ht | rfl
    · exact h.crcs t ht
    · exact h.crcs topicSub hmem
  · intro t ht
    rcases List.mem_or_eq_of_mem_set ht with ht | rfl
    · exact h.callbacks t ht
    · exact hnodup
  · intro t ht sub hsub
    rcases List.mem_or_eq_of_mem_set ht with ht | rfl
    · obtain ⟨subscription, hsubscription, htopic⟩ := h.captured t ht sub hsub
      exact ⟨subscription, hold sub _ hsubscription, htopic⟩
    · exact hcaptured sub hsub
  · -- A callback at the place that changes was there before, or nowhere.
    have hcases {i : Nat} {t : TopicSub} {sub : Nat}
        (hi : (c.topicSubs.set ref { topicSub with callbacks := callbacks })[i]? = some t)
        (hsub : sub ∈ t.callbacks) :
        (∃ t, c.topicSubs[i]? = some t ∧ sub ∈ t.callbacks) ∨
          i = ref ∧ ∀ t ∈ c.topicSubs, sub ∉ t.callbacks := by
      by_cases heq : ref = i
      · subst heq
        obtain ⟨hlt, -⟩ := List.getElem?_eq_some_iff.mp href
        rw [List.getElem?_set_self hlt] at hi
        cases hi
        rcases hown sub hsub with hown | hnone
        · exact .inl ⟨topicSub, href, hown⟩
        · exact .inr ⟨rfl, hnone⟩
      · rw [List.getElem?_set_ne heq] at hi
        exact .inl ⟨t, hi, hsub⟩
    intro i j t t' hi hj sub hsub hsub'
    rcases hcases hi hsub with ⟨t, ht, hsub⟩ | ⟨rfl, hnone⟩
    · rcases hcases hj hsub' with ⟨t', ht', hsub'⟩ | ⟨rfl, hnone⟩
      · exact h.disjoint i j t t' ht ht' sub hsub hsub'
      · exact absurd hsub (hnone t (List.mem_of_getElem? ht))
    · rcases hcases hj hsub' with ⟨t', ht', hsub'⟩ | ⟨rfl, -⟩
      · exact absurd hsub' (hnone t' (List.mem_of_getElem? ht'))
      · rfl

/-- A callback is a known subscription. -/
theorem Indexed.lt_length (h : Indexed cfg c) {topicSub : TopicSub} (ht : topicSub ∈ c.topicSubs)
    {sub : Nat} (hsub : sub ∈ topicSub.callbacks) : sub < c.subscriptions.length := by
  obtain ⟨subscription, hsubscription, -⟩ := h.captured topicSub ht sub hsub
  obtain ⟨hlt, -⟩ := List.getElem?_eq_some_iff.mp hsubscription
  exact hlt

/-- A subscription to a topic whose `_TopicSub` is known. -/
theorem Indexed.register (h : Indexed cfg c) {ref : Nat} {topicSub : TopicSub}
    (href : c.topicSubs[ref]? = some topicSub) (encoding : Option String) :
    Indexed cfg (c.register ref ⟨topicSub.topic, encoding⟩) := by
  have hmem := List.mem_of_getElem? href
  have hnew (t : TopicSub) (ht : t ∈ c.topicSubs) : c.subscriptions.length ∉ t.callbacks :=
    fun hsub => Nat.lt_irrefl _ (h.lt_length ht hsub)
  have hold (i : Nat) (s : Subscription) (hi : c.subscriptions[i]? = some s) :
      (c.subscriptions ++ [⟨topicSub.topic, encoding⟩])[i]? = some s :=
    getElem?_concat_eq_some_iff.mpr (.inl hi)
  have heq : c.register ref ⟨topicSub.topic, encoding⟩ =
      { c with
        subscriptions := c.subscriptions ++ [⟨topicSub.topic, encoding⟩]
        topicSubs := c.topicSubs.set ref
          { topicSub with callbacks := topicSub.callbacks ++ [c.subscriptions.length] } } := by
    rw [MpubsubClient.register, List.modify_eq_set_getElem?, href]
    rfl
  rw [heq]
  refine h.replace href ?_ hold ?_ ?_
  · refine (h.callbacks topicSub hmem).append (List.nodup_singleton _) ?_
    intro sub hsub hlast
    exact hnew topicSub hmem (List.mem_singleton.mp hlast ▸ hsub)
  · intro sub hsub
    rcases List.mem_append.mp hsub with hsub | hsub
    · obtain ⟨subscription, hsubscription, htopic⟩ := h.captured topicSub hmem sub hsub
      exact ⟨subscription, hold sub _ hsubscription, htopic⟩
    · rw [List.mem_singleton.mp hsub]
      exact ⟨_, List.getElem?_concat_length, rfl⟩
  · intro sub hsub
    rcases List.mem_append.mp hsub with hsub | hsub
    · exact .inl hsub
    · exact .inr (List.mem_singleton.mp hsub ▸ hnew)

theorem Indexed.subscribe (h : Indexed cfg c) (topic : String) (encoding : Option String)
    (known ok : Bool) : Indexed cfg (c.subscribe cfg topic encoding known ok).1 := by
  have hcases := subscribe_subscribes h.cached topic encoding known ok
  generalize c.subscribe cfg topic encoding known ok = result at hcases
  cases hcases with
  | raised groups error hcached => exact h.frame hcached rfl rfl rfl rfl
  | added ref hget =>
    obtain ⟨topicSub, href, rfl⟩ := h.entries topic ref hget
    exact h.register href encoding
  | joined groups i joined hcached hget hsock hjoined =>
    have hjoined : Indexed cfg
        { c with
          groups := groups
          sockets := c.sockets.set i
            (joined ++ [Mreq.mk (Reference.topicToGroup topic cfg.scope) c.ifindex]) } :=
      h.frame hcached rfl rfl rfl rfl
    exact (hjoined.adopt topic (Reference.topicToGroup topic cfg.scope)).register
      (List.getElem?_concat_length) encoding

/-! ## Unsubscribing -/

/-- A `_TopicSub` leaves the index. -/
theorem Indexed.abandon (h : Indexed cfg c) (ref : Nat) (topicSub : TopicSub) :
    Indexed cfg (c.abandon ref topicSub) := by
  have hindex (crc : Nat) : (((c.abandon ref topicSub).crcIndex.get? crc).getD []).Sublist
      ((c.crcIndex.get? crc).getD []) := by
    refine (Dict.getD_set_or_erase c.crcIndex topicSub.crc _ crc).symm ▸ ?_
    split
    · rename_i hcrc
      rw [hcrc]
      exact List.erase_sublist
    · exact List.Sublist.refl _
  constructor
  · exact h.cached
  · exact fun crc => (hindex crc).nodup (h.nodup crc)
  · exact fun crc ref' href' => h.index crc ref' ((hindex crc).subset href')
  · intro topic ref' hget
    simp only [MpubsubClient.abandon, Dict.get?_erase] at hget
    split at hget
    · cases hget
    · exact h.entries topic ref' hget
  · exact h.crcs
  · exact h.callbacks
  · exact h.captured
  · exact h.disjoint

theorem Indexed.unsubscribe (h : Indexed cfg c) (sub : Nat) : Indexed cfg (c.unsubscribe sub) := by
  have hcases := unsubscribe_unsubscribes c sub
  generalize c.unsubscribe sub = result at hcases
  have herased {ref : Nat} {topicSub : TopicSub} (href : c.topicSubs[ref]? = some topicSub) :
      Indexed cfg
        { c with
          topicSubs := c.topicSubs.set ref
            { topicSub with callbacks := topicSub.callbacks.erase sub } } := by
    have hmem := List.mem_of_getElem? href
    refine h.replace href ((h.callbacks topicSub hmem).erase sub) (fun _ _ hi => hi) ?_ ?_
    · exact fun sub' hsub' => h.captured topicSub hmem sub' (List.mem_of_mem_erase hsub')
    · exact fun sub' hsub' => .inl (List.mem_of_mem_erase hsub')
  cases hcases with
  | stale => exact h
  | shortened subscription ref topicSub hsub hget href => exact herased href
  | abandoned subscription ref topicSub hsub hget href => exact (herased href).abandon ref _

/-! ## Runs -/

theorem Indexed.step (h : Indexed cfg c) (e : Event) : Indexed cfg (c.step cfg e).1 := by
  cases e with
  | start ifindex => exact h.start ifindex
  | stop => exact h.stop
  | subscribe topic encoding known ok => exact h.subscribe topic encoding known ok
  | unsubscribe sub => exact h.unsubscribe sub
  | publish call =>
    obtain ⟨groups, hcached, hcases⟩ := publish_cases h.cached call
    have hgroups : Indexed cfg { c with groups := groups } := h.frame hcached rfl rfl rfl rfl
    simp only [MpubsubClient.step]
    rcases hcases with heq | ⟨-, data, heq⟩
    · rw [heq]
      exact hgroups
    · rw [heq]
      exact hgroups.same (transmit_sameSubscriptions _ _ _ _)
  | advance time => exact h.frame h.cached rfl rfl rfl rfl
  | fire handle ok => exact h.same (fire_sameSubscriptions c handle ok)

end MpubsubClient

end Mpubsub.Client
