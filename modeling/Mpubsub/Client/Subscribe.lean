import Mpubsub.Client.State

/-!
# Subscriptions of the asyncio client (`aio.py`)

`subscribe` and the closure that it returns. The bookkeeping is in three places: the
topics in `subs`, the CRCs in `crcIndex`, and the memberships of the socket, which the
kernel keeps.
-/

namespace Mpubsub.Client

open Mpubsub.Lib Mpubsub.Wire

/-- `setsockopt` with `IPV6_JOIN_GROUP`: `ok` unless the kernel refuses; it refuses a membership
that the socket has. -/
def joinGroup (sockets : List (List Mreq)) (i : Nat) (mreq : Mreq) (ok : Bool) :
    Option (List (List Mreq)) :=
  match sockets[i]? with
  | none => none
  | some joined =>
    if ok ∧ mreq ∉ joined then some (sockets.set i (joined ++ [mreq])) else none

/-- `setsockopt` with `IPV6_LEAVE_GROUP`; without the membership it raises, and changes
nothing. -/
def leaveGroup (sockets : List (List Mreq)) (i : Nat) (mreq : Mreq) : List (List Mreq) :=
  sockets.modify i fun joined => joined.filter (· ≠ mreq)

namespace MpubsubClient

variable (cfg : Settings) (c : MpubsubClient)

/-- The end of `_join`: the new `_TopicSub` is entered under its topic and its CRC. -/
def adopt (topicSub : TopicSub) : MpubsubClient :=
  let ref := c.topicSubs.length
  { c with
    topicSubs := c.topicSubs ++ [topicSub]
    subs := c.subs.set topicSub.topic ref
    crcIndex :=
      c.crcIndex.set topicSub.crc ((c.crcIndex.get? topicSub.crc).getD [] ++ [ref]) }

/-- `_join`. -/
def join (topic : String) (ok : Bool) : MpubsubClient × Except ClientError Nat :=
  match c.sock with
  | none => (c, .error .notStarted)
  | some i =>
    let crc := Reference.topicCrc32 topic
    let (group, c) := c.groupFor cfg topic
    match joinGroup c.sockets i ⟨group, c.ifindex⟩ ok with
    | none => (c, .error .osError)
    | some sockets =>
      ({ c with sockets := sockets }.adopt { topic := topic, crc := crc, group := group },
        .ok c.topicSubs.length)

/-- The end of `subscribe`. -/
def register (ref : Nat) (sub : Subscription) : MpubsubClient :=
  { c with
    subscriptions := c.subscriptions ++ [sub]
    topicSubs := c.topicSubs.modify ref fun topicSub =>
      { topicSub with callbacks := topicSub.callbacks ++ [c.subscriptions.length] } }

/-- `subscribe`; `known` says whether Python has the codec, `ok` whether the kernel lets the
socket join. -/
def subscribe (topic : String) (encoding : Option String) (known ok : Bool) :
    MpubsubClient × Outcome :=
  match validateTopic topic with
  | .error error => (c, .raised (.topic error))
  | .ok _ =>
    if encoding.isSome ∧ !known then (c, .raised (.codec (encoding.getD "")))
    else
      match c.subs.get? topic with
      | some ref => (c.register ref ⟨topic, encoding⟩, .subscribed c.subscriptions.length)
      | none =>
        match c.join cfg topic ok with
        | (c, .error error) => (c, .raised error)
        | (c, .ok ref) =>
          (c.register ref ⟨topic, encoding⟩, .subscribed c.subscriptions.length)

/-- `_unsubscribe` when the last callback of the topic has gone. -/
def abandon (ref : Nat) (topicSub : TopicSub) : MpubsubClient :=
  let siblings := ((c.crcIndex.get? topicSub.crc).getD []).erase ref
  { c with
    subs := c.subs.erase topicSub.topic
    crcIndex :=
      if siblings = [] then c.crcIndex.erase topicSub.crc
      else c.crcIndex.set topicSub.crc siblings
    sockets :=
      match c.sock with
      | none => c.sockets
      | some i => leaveGroup c.sockets i ⟨topicSub.group, c.ifindex⟩ }

/-- The closure that `subscribe` returned, which calls `_unsubscribe`. -/
def unsubscribe (sub : Nat) : MpubsubClient :=
  match c.subscriptions[sub]? with
  | none => c
  | some subscription =>
    match c.subs.get? subscription.topic with
    | none => c
    | some ref =>
      match c.topicSubs[ref]? with
      | none => c
      | some topicSub =>
        if sub ∉ topicSub.callbacks then c
        else
          let topicSub := { topicSub with callbacks := topicSub.callbacks.erase sub }
          let c := { c with topicSubs := c.topicSubs.set ref topicSub }
          if topicSub.callbacks ≠ [] then c else c.abandon ref topicSub

/-- The memberships of the current socket. -/
def joined : List Mreq := (c.sock.bind fun i => c.sockets[i]?).getD []

variable {cfg c}

/-- How a `subscribe` can end: it raises, and changes the cache of the groups at most; it adds
to the `_TopicSub` that the topic has; or it joins the group of the topic. -/
inductive Subscribes (cfg : Settings) (c : MpubsubClient) (topic : String)
    (encoding : Option String) : MpubsubClient × Outcome → Prop
  | raised (groups : Dict String GroupAddr) (error : ClientError)
      (hcached : GroupsCached cfg { c with groups := groups }) :
      Subscribes cfg c topic encoding ({ c with groups := groups }, .raised error)
  | added (ref : Nat) (hget : c.subs.get? topic = some ref) :
      Subscribes cfg c topic encoding
        (c.register ref ⟨topic, encoding⟩, .subscribed c.subscriptions.length)
  | joined (groups : Dict String GroupAddr) (i : Nat) (joined : List Mreq)
      (hcached : GroupsCached cfg { c with groups := groups })
      (hget : c.subs.get? topic = none) (hsock : c.sock = some i)
      (hjoined : c.sockets[i]? = some joined) :
      Subscribes cfg c topic encoding
        (({ c with
            groups := groups
            sockets := c.sockets.set i
              (joined ++ [Mreq.mk (Reference.topicToGroup topic cfg.scope) c.ifindex]) }.adopt
            { topic := topic, crc := Reference.topicCrc32 topic
              group := Reference.topicToGroup topic cfg.scope }).register
          c.topicSubs.length ⟨topic, encoding⟩, .subscribed c.subscriptions.length)

theorem subscribe_subscribes (h : GroupsCached cfg c) (topic : String) (encoding : Option String)
    (known ok : Bool) :
    Subscribes cfg c topic encoding (c.subscribe cfg topic encoding known ok) := by
  unfold subscribe
  cases validateTopic topic with
  | error error => exact .raised c.groups _ h
  | ok =>
    simp only
    split
    · exact .raised c.groups _ h
    split
    · rename_i ref hget
      exact .added ref hget
    · rename_i hget
      unfold join
      cases hsock : c.sock with
      | none => exact .raised c.groups _ h
      | some i =>
        obtain ⟨groups, hgroup, hcached⟩ := groupFor_spec h topic
        simp only [hgroup]
        unfold joinGroup
        cases hjoined : c.sockets[i]? with
        | none => exact .raised groups _ hcached
        | some joined =>
          by_cases hok : ok ∧ ⟨Reference.topicToGroup topic cfg.scope, c.ifindex⟩ ∉ joined
          · simp only [if_pos hok]
            exact .joined groups i joined hcached hget hsock hjoined
          · simp only [if_neg hok]
            exact .raised groups _ hcached

/-- What a call of an `unsubscribe` closure does: nothing when the topic's `_TopicSub` does not
have the subscription; it takes it out of the callbacks; and with the last one the `_TopicSub`
goes. -/
inductive Unsubscribes (c : MpubsubClient) (sub : Nat) : MpubsubClient → Prop
  | stale (h : ∀ subscription ref topicSub, c.subscriptions[sub]? = some subscription →
        c.subs.get? subscription.topic = some ref → c.topicSubs[ref]? = some topicSub →
        sub ∉ topicSub.callbacks) :
      Unsubscribes c sub c
  | shortened (subscription : Subscription) (ref : Nat) (topicSub : TopicSub)
      (hsub : c.subscriptions[sub]? = some subscription)
      (hget : c.subs.get? subscription.topic = some ref)
      (href : c.topicSubs[ref]? = some topicSub) (hmem : sub ∈ topicSub.callbacks)
      (hrest : topicSub.callbacks.erase sub ≠ []) :
      Unsubscribes c sub
        { c with
          topicSubs := c.topicSubs.set ref
            { topicSub with callbacks := topicSub.callbacks.erase sub } }
  | abandoned (subscription : Subscription) (ref : Nat) (topicSub : TopicSub)
      (hsub : c.subscriptions[sub]? = some subscription)
      (hget : c.subs.get? subscription.topic = some ref)
      (href : c.topicSubs[ref]? = some topicSub) (hmem : sub ∈ topicSub.callbacks)
      (hrest : topicSub.callbacks.erase sub = []) :
      Unsubscribes c sub
        ({ c with
            topicSubs := c.topicSubs.set ref
              { topicSub with callbacks := topicSub.callbacks.erase sub } }.abandon ref
          { topicSub with callbacks := topicSub.callbacks.erase sub })

theorem unsubscribe_unsubscribes (c : MpubsubClient) (sub : Nat) :
    Unsubscribes c sub (c.unsubscribe sub) := by
  unfold unsubscribe
  cases hsub : c.subscriptions[sub]? with
  | none => exact .stale fun _ _ _ h => by cases hsub.symm.trans h
  | some subscription =>
    simp only
    cases hget : c.subs.get? subscription.topic with
    | none =>
      refine .stale ?_
      intro _ _ _ h h'
      cases hsub.symm.trans h
      cases hget.symm.trans h'
    | some ref =>
      simp only
      cases href : c.topicSubs[ref]? with
      | none =>
        refine .stale ?_
        intro _ _ _ h h' h''
        cases hsub.symm.trans h
        cases hget.symm.trans h'
        cases href.symm.trans h''
      | some topicSub =>
        simp only
        split
        · rename_i hmem
          refine .stale ?_
          intro _ _ _ h h' h''
          cases hsub.symm.trans h
          cases hget.symm.trans h'
          cases href.symm.trans h''
          exact hmem
        · rename_i hmem
          split
          · rename_i hrest
            exact .shortened subscription ref topicSub hsub hget href (not_not.mp hmem) hrest
          · rename_i hrest
            exact .abandoned subscription ref topicSub hsub hget href (not_not.mp hmem)
              (not_not.mp hrest)

/-! ## What subscribing leaves alone -/

/-- The second client has the transport, the timers and the history of the first. -/
structure SameSending (c c' : MpubsubClient) : Prop where
  transport : c'.transport = c.transport
  indefinite : c'.indefinite = c.indefinite
  finite : c'.finite = c.finite
  sendFailed : c'.sendFailed = c.sendFailed
  loop : c'.loop = c.loop
  published : c'.published = c.published
  sent : c'.sent = c.sent
  stops : c'.stops = c.stops

theorem subscribe_sameSending (h : GroupsCached cfg c) (topic : String) (encoding : Option String)
    (known ok : Bool) : SameSending c (c.subscribe cfg topic encoding known ok).1 := by
  have hcases := subscribe_subscribes h topic encoding known ok
  generalize c.subscribe cfg topic encoding known ok = result at hcases
  cases hcases with
  | raised groups error hcached => constructor <;> rfl
  | added ref hget => constructor <;> rfl
  | joined groups i joined hcached => constructor <;> rfl

theorem unsubscribe_sameSending (c : MpubsubClient) (sub : Nat) :
    SameSending c (c.unsubscribe sub) := by
  have hcases := unsubscribe_unsubscribes c sub
  generalize c.unsubscribe sub = result at hcases
  cases hcases with
  | stale => constructor <;> rfl
  | shortened => constructor <;> rfl
  | abandoned => constructor <;> rfl

end MpubsubClient

end Mpubsub.Client
