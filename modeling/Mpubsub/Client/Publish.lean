import Mpubsub.Client.State

/-!
# Publishing and retransmits of the asyncio client (`aio.py`)

`publish` encodes once; what follows (`transmit`) cancels the indefinite chain of the
topic, sends, and gives timers for the retransmits to the loop. `fire` is the loop
running the callback of a timer that is due.
-/

namespace Mpubsub.Client

open Mpubsub.Lib Mpubsub.Wire

def RETRANSMIT_INDEFINITE : Int := -1

/-- `_effective_retransmit_count`. -/
def effectiveRetransmitCount (cfg : Settings) (qos : Int) : Int :=
  let base := cfg.retransmitCount
  if !cfg.promoteQos then base
  else if qos = 0 then base
  else if qos = 1 then
    if base = RETRANSMIT_INDEFINITE then RETRANSMIT_INDEFINITE else max base 3
  else RETRANSMIT_INDEFINITE

/-- The arguments of `publish`, with the time and the random bytes that it reads; `ok` unless
its `sendto` raises. -/
structure PublishCall where
  topic : String
  payload : Payload
  qos : Int := 0
  time : Nat := 0
  urandom : Bytes := []
  ok : Bool := true
deriving DecidableEq

/-- What the call makes of its payload: the datagram of the wire format, stamped when it is
encrypted. -/
def datagram (cfg : Settings) (call : PublishCall) : Except Reference.EncodeError Bytes :=
  Reference.encode call.time call.urandom call.topic (toBytes call.payload)
    Reference.ENCODING_RAW cfg.key ((cfg.key.filter (· ≠ [])).map fun _ => call.time) none

namespace MpubsubClient

variable (cfg : Settings) (c : MpubsubClient)

/-- `_sendto`; without a transport the call of `sendto` raises before anything happens. -/
def sendto (job : Job) (when : Rat) (ok : Bool) : MpubsubClient :=
  if c.transport.isNone then c
  else
    let send : Send := ⟨job, cfg.port, when, c.loop.time, ok⟩
    { c with
      sent := c.sent ++ [send]
      sendFailed := c.sendFailed || !ok }

/-- `_schedule_one`. -/
def scheduleOne (when : Rat) (job : Job) : MpubsubClient :=
  { c with
    loop := c.loop.callLater when (.fire job)
    finite := c.finite.insert c.loop.next }

/-- `_start_indefinite`, and the end of its `tick`. -/
def startIndefinite (job : Job) : MpubsubClient :=
  { c with
    loop := c.loop.callLater cfg.retransmitDelay (.tick job)
    indefinite := c.indefinite.set job.topic c.loop.next }

/-- `_cancel_indefinite`. -/
def cancelIndefinite (topic : String) : MpubsubClient :=
  match c.indefinite.get? topic with
  | none => c
  | some handle =>
    { c with loop := c.loop.cancel handle, indefinite := c.indefinite.erase topic }

/-- `publish` from the call of `_effective_retransmit_count` on. -/
def transmit (call : PublishCall) (group : GroupAddr) (data : Bytes) : MpubsubClient :=
  let count := effectiveRetransmitCount cfg call.qos
  let job : Job := ⟨c.published.length, call.topic, data, group⟩
  let publication : Publication := ⟨job, count, c.loop.time, c.stops⟩
  let c := { c with published := c.published ++ [publication] }
  let c := (c.cancelIndefinite call.topic).sendto cfg job c.loop.time call.ok
  if count = RETRANSMIT_INDEFINITE then c.startIndefinite cfg job
  else if count > 1 then
    (List.range' 1 (count.toNat - 1)).foldl
      (fun c (i : Nat) => c.scheduleOne (cfg.retransmitDelay * i) job) c
  else c

/-- `publish`. -/
def publish (call : PublishCall) : MpubsubClient × Outcome :=
  match validateTopic call.topic with
  | .error error => (c, .raised (.topic error))
  | .ok _ =>
    if c.transport.isNone then (c, .raised .notStarted)
    else
      let (group, c) := c.groupFor cfg call.topic
      let timestamp := (cfg.key.filter (· ≠ [])).map fun _ => call.time
      match Reference.encode call.time call.urandom call.topic (toBytes call.payload)
          Reference.ENCODING_RAW cfg.key timestamp none with
      | .error error => (c, .raised (.encode error))
      | .ok data => (c.transmit cfg call group data, .done)

/-- The loop runs the callback of the timer, if it is pending and due. -/
def fire (handle : Nat) (ok : Bool) : MpubsubClient :=
  match c.loop.find? handle with
  | none => c
  | some timer =>
    if c.loop.time < timer.when then c
    else
      let c := { c with loop := c.loop.cancel handle }
      match timer.callback with
      | .fire job =>
        -- The holder has had the handle since `call_later` returned.
        { c with finite := c.finite.filter (· ≠ handle) }.sendto cfg job timer.when ok
      | .tick job =>
        if c.transport.isNone then c
        else (c.sendto cfg job timer.when ok).startIndefinite cfg job

variable {cfg c}

/-- What a `publish` does: it raises, and changes the cache of the groups at most, or it
transmits what was encoded to the group of its topic, and returns. -/
inductive Publishes (cfg : Settings) (c : MpubsubClient) (call : PublishCall) :
    MpubsubClient × Outcome → Prop
  | raised (groups : Dict String GroupAddr) (error : ClientError)
      (hcached : GroupsCached cfg { c with groups := groups })
      (hbad : c.transport ≠ none → validateTopic call.topic = .ok call.topic →
        ∀ data, datagram cfg call ≠ .ok data) :
      Publishes cfg c call ({ c with groups := groups }, .raised error)
  | transmitted (groups : Dict String GroupAddr) (data : Bytes)
      (hcached : GroupsCached cfg { c with groups := groups }) (htransport : c.transport ≠ none)
      (htopic : validateTopic call.topic = .ok call.topic) (hdata : datagram cfg call = .ok data) :
      Publishes cfg c call
        ({ c with groups := groups }.transmit cfg call
          (Reference.topicToGroup call.topic cfg.scope) data, .done)

theorem validateTopic_eq_ok {topic topic' : String} (h : validateTopic topic = .ok topic') :
    topic' = topic := by
  unfold validateTopic at h
  split at h
  · cases h
  · dsimp only at h
    split_ifs at h
    cases h
    rfl

theorem publish_publishes (h : GroupsCached cfg c) (call : PublishCall) :
    Publishes cfg c call (c.publish cfg call) := by
  unfold publish
  cases htopic : validateTopic call.topic with
  | error error =>
    exact .raised c.groups _ h fun _ hok => by rw [htopic] at hok; cases hok
  | ok topic =>
    obtain rfl := validateTopic_eq_ok htopic
    by_cases htransport : c.transport.isNone = true
    · simp only [if_pos htransport]
      exact .raised c.groups _ h fun hsome => absurd (Option.isNone_iff_eq_none.mp htransport) hsome
    · obtain ⟨groups, hgroup, hcached⟩ := groupFor_spec h call.topic
      simp only [if_neg htransport, hgroup]
      change Publishes cfg c call (match datagram cfg call with
        | .error error => _
        | .ok data => _)
      cases hdata : datagram cfg call with
      | error error =>
        exact .raised groups _ hcached fun _ _ data hok => by rw [hdata] at hok; cases hok
      | ok data =>
        refine .transmitted groups data hcached (fun hnone => htransport ?_) htopic hdata
        exact Option.isNone_iff_eq_none.mpr hnone

/-- The client after a `publish`. -/
theorem publish_cases (h : GroupsCached cfg c) (call : PublishCall) :
    ∃ groups, GroupsCached cfg { c with groups := groups } ∧
      ((c.publish cfg call).1 = { c with groups := groups } ∨
        c.transport ≠ none ∧ ∃ data,
          (c.publish cfg call).1 = { c with groups := groups }.transmit cfg call
            (Reference.topicToGroup call.topic cfg.scope) data) := by
  have hcases := publish_publishes h call
  generalize c.publish cfg call = result at hcases
  cases hcases with
  | raised groups error hcached => exact ⟨groups, hcached, .inl rfl⟩
  | transmitted groups data hcached htransport =>
    exact ⟨groups, hcached, .inr ⟨htransport, data, rfl⟩⟩

/-- The retransmits of a finite publish. -/
theorem foldl_scheduleOne (cfg : Settings) (c : MpubsubClient) (job : Job) (is : List Nat) :
    ∃ loop finite, is.foldl (fun c (i : Nat) => c.scheduleOne (cfg.retransmitDelay * i) job) c =
        { c with loop := loop, finite := finite } ∧
      loop.time = c.loop.time ∧
      ∃ new, loop.scheduled = c.loop.scheduled ++ new ∧
        (∀ t ∈ new, t.callback = .fire job) ∧
        new.map (·.when) = is.map (fun (i : Nat) => c.loop.time + cfg.retransmitDelay * i) ∧
        ∀ handle, handle ∈ finite ↔ handle ∈ c.finite ∨ ∃ t ∈ new, t.id = handle := by
  induction is generalizing c with
  | nil => exact ⟨c.loop, c.finite, rfl, rfl, [], by simp, by simp, rfl, by simp⟩
  | cons i is ih =>
    obtain ⟨loop, finite, heq, htime, new, hscheduled, hfires, hwhen, hfinite⟩ :=
      ih (c.scheduleOne (cfg.retransmitDelay * i) job)
    refine ⟨loop, finite, heq, htime, _, hscheduled.trans (List.append_assoc ..), ?_, ?_, ?_⟩
    · exact List.forall_mem_append.mpr ⟨List.forall_mem_singleton.mpr rfl, hfires⟩
    · rw [List.map_append, hwhen]
      rfl
    · intro handle
      rw [hfinite]
      simp only [scheduleOne, List.mem_insert_iff, List.mem_append, List.mem_singleton, or_and_right,
        exists_or, exists_eq_left]
      rw [or_comm (a := handle = _), or_assoc, eq_comm (a := handle)]

/-! ## What publishing leaves alone -/

/-- The second client differs from the first in its timers and in its history only. -/
structure SameSubscriptions (c c' : MpubsubClient) : Prop where
  sock : c'.sock = c.sock
  ifindex : c'.ifindex = c.ifindex
  subs : c'.subs = c.subs
  crcIndex : c'.crcIndex = c.crcIndex
  groups : c'.groups = c.groups
  topicSubs : c'.topicSubs = c.topicSubs
  subscriptions : c'.subscriptions = c.subscriptions
  sockets : c'.sockets = c.sockets

theorem SameSubscriptions.refl (c : MpubsubClient) : SameSubscriptions c c := by
  constructor <;> rfl

theorem SameSubscriptions.trans {c c' c'' : MpubsubClient} (h : SameSubscriptions c c')
    (h' : SameSubscriptions c' c'') : SameSubscriptions c c'' where
  sock := h'.sock.trans h.sock
  ifindex := h'.ifindex.trans h.ifindex
  subs := h'.subs.trans h.subs
  crcIndex := h'.crcIndex.trans h.crcIndex
  groups := h'.groups.trans h.groups
  topicSubs := h'.topicSubs.trans h.topicSubs
  subscriptions := h'.subscriptions.trans h.subscriptions
  sockets := h'.sockets.trans h.sockets

theorem sendto_sameSubscriptions (cfg : Settings) (c : MpubsubClient) (job : Job) (when : Rat)
    (ok : Bool) :
    SameSubscriptions c (c.sendto cfg job when ok) := by
  unfold sendto
  split
  · exact .refl c
  · constructor <;> rfl

theorem cancelIndefinite_sameSubscriptions (c : MpubsubClient) (topic : String) :
    SameSubscriptions c (c.cancelIndefinite topic) := by
  unfold cancelIndefinite
  split
  · exact .refl c
  · constructor <;> rfl

theorem startIndefinite_sameSubscriptions (c : MpubsubClient) (job : Job) :
    SameSubscriptions c (c.startIndefinite cfg job) := by
  constructor <;> rfl

theorem transmit_sameSubscriptions (c : MpubsubClient) (call : PublishCall) (group : GroupAddr)
    (data : Bytes) : SameSubscriptions c (c.transmit cfg call group data) := by
  unfold transmit
  simp only
  generalize (⟨c.published.length, call.topic, data, group⟩ : Job) = job
  generalize (⟨job, effectiveRetransmitCount cfg call.qos, c.loop.time, c.stops⟩ :
    Publication) = p
  have hpublished : SameSubscriptions c { c with published := c.published ++ [p] } := by
    constructor <;> rfl
  have hsent := (hpublished.trans (cancelIndefinite_sameSubscriptions _ call.topic)).trans
    (sendto_sameSubscriptions cfg _ job c.loop.time call.ok)
  generalize sendto cfg _ _ _ _ = c' at hsent ⊢
  split
  · exact hsent.trans (startIndefinite_sameSubscriptions c' job)
  split
  · obtain ⟨loop, finite, heq, -⟩ := foldl_scheduleOne cfg c' job
      (List.range' 1 ((effectiveRetransmitCount cfg call.qos).toNat - 1))
    rw [heq]
    refine hsent.trans ?_
    constructor <;> rfl
  · exact hsent

theorem fire_sameSubscriptions (c : MpubsubClient) (handle : Nat) (ok : Bool) :
    SameSubscriptions c (c.fire cfg handle ok) := by
  unfold fire
  split
  · exact .refl c
  split
  · exact .refl c
  · have hcancelled : SameSubscriptions c { c with loop := c.loop.cancel handle } := by
      constructor <;> rfl
    dsimp only
    split
    · refine SameSubscriptions.trans ?_ (sendto_sameSubscriptions _ _ _ _ _)
      constructor <;> rfl
    split
    · exact hcancelled
    · exact (hcancelled.trans (sendto_sameSubscriptions _ _ _ _ _)).trans
        (startIndefinite_sameSubscriptions _ _)

end MpubsubClient

end Mpubsub.Client
