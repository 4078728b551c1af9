import Mpubsub.Client.Retransmit

/-!
# What an asyncio client has been asked to send

A history is kept beside the client, from the calls, their outcomes and the clock alone.
It has an entry for every `publish` that returned: the datagram that the call encodes to,
for the group of its topic, with the effective count, the time of the call and the calls of
`stop` before it. The invariant (`Follows`) is that the client's own numbering of its
publishes goes with it.
-/

namespace Mpubsub.Client

open Mpubsub.Lib Mpubsub.Wire

/-! ## The history -/

/-- The calls so far; `opened` between a `start` and the next `stop`. -/
structure History where
  time : Rat
  opened : Bool := false
  stops : Nat := 0
  published : List Publication := []
deriving DecidableEq

namespace History

variable (cfg : Settings) (log : History)

/-- The entry of a `publish` that is encoded. -/
def publication (call : PublishCall) (data : Bytes) : Publication where
  job := ⟨log.published.length, call.topic, data, Reference.topicToGroup call.topic cfg.scope⟩
  count := effectiveRetransmitCount cfg call.qos
  time := log.time
  stops := log.stops

/-- What a call and its outcome do to the history. -/
def record : Event → Outcome → History
  | .start _, _ => { log with opened := true }
  | .stop, _ => { log with opened := false, stops := log.stops + 1 }
  | .publish call, .done =>
    match datagram cfg call with
    | .ok data => { log with published := log.published ++ [log.publication cfg call data] }
    | .error _ => log
  | .advance time, _ => { log with time := max log.time time }
  | _, _ => log

/-- What is to be resent on a topic: the latest publish, if it was indefinite and `stop` has not
been called since. -/
def due (topic : String) : Option Job :=
  ((latest log.published topic).filter fun p =>
    p.count = RETRANSMIT_INDEFINITE ∧ p.stops = log.stops).map Publication.job

end History

namespace MpubsubClient

variable {cfg : Settings} {c c' c'' : MpubsubClient} {log : History}

/-! ## Steps that only send -/

/-- The second client has made some sends more, at the time of the first, and differs in its
timers and subscriptions at most. -/
structure OnlySends (c c' : MpubsubClient) : Prop where
  transport : c'.transport = c.transport
  published : c'.published = c.published
  stops : c'.stops = c.stops
  time : c'.loop.time = c.loop.time
  sent : ∃ new, c'.sent = c.sent ++ new ∧ ∀ s ∈ new, s.time = c.loop.time

theorem OnlySends.of_sent_eq (htransport : c'.transport = c.transport)
    (hpublished : c'.published = c.published) (hstops : c'.stops = c.stops)
    (htime : c'.loop.time = c.loop.time) (hsent : c'.sent = c.sent) : OnlySends c c' where
  transport := htransport
  published := hpublished
  stops := hstops
  time := htime
  sent := ⟨[], by rw [hsent, List.append_nil], fun s hs => by cases hs⟩

theorem OnlySends.refl (c : MpubsubClient) : OnlySends c c := .of_sent_eq rfl rfl rfl rfl rfl

theorem OnlySends.trans (h : OnlySends c c') (h' : OnlySends c' c'') : OnlySends c c'' where
  transport := h'.transport.trans h.transport
  published := h'.published.trans h.published
  stops := h'.stops.trans h.stops
  time := h'.time.trans h.time
  sent := by
    obtain ⟨new, hnew, hnow⟩ := h.sent
    obtain ⟨new', hnew', hnow'⟩ := h'.sent
    refine ⟨new ++ new', ?_, List.forall_mem_append.mpr ⟨hnow, fun s hs => ?_⟩⟩
    · rw [hnew', hnew, List.append_assoc]
    · exact (hnow' s hs).trans h.time

theorem sendto_onlySends (cfg : Settings) (c : MpubsubClient) (job : Job) (when : Rat)
    (ok : Bool) : OnlySends c (c.sendto cfg job when ok) := by
  unfold sendto
  split
  · exact .refl c
  · exact ⟨rfl, rfl, rfl, rfl, _, rfl, List.forall_mem_singleton.mpr rfl⟩

theorem cancelIndefinite_onlySends (c : MpubsubClient) (topic : String) :
    OnlySends c (c.cancelIndefinite topic) := by
  unfold cancelIndefinite
  split
  · exact .refl c
  · exact .of_sent_eq rfl rfl rfl rfl rfl

theorem startIndefinite_onlySends (c : MpubsubClient) (job : Job) :
    OnlySends c (c.startIndefinite cfg job) :=
  .of_sent_eq rfl rfl rfl rfl rfl

theorem fire_onlySends (c : MpubsubClient) (handle : Nat) (ok : Bool) :
    OnlySends c (c.fire cfg handle ok) := by
  unfold fire
  split
  · exact .refl c
  split
  · exact .refl c
  · have hcancelled : OnlySends c { c with loop := c.loop.cancel handle } :=
      .of_sent_eq rfl rfl rfl rfl rfl
    dsimp only
    split
    · refine OnlySends.trans ?_ (sendto_onlySends _ _ _ _ _)
      exact .of_sent_eq rfl rfl rfl rfl rfl
    split
    · exact hcancelled
    · exact (hcancelled.trans (sendto_onlySends _ _ _ _ _)).trans (startIndefinite_onlySends _ _)

/-- A publish is entered, and then sent. -/
theorem transmit_onlySends (cfg : Settings) (c : MpubsubClient) (call : PublishCall)
    (group : GroupAddr) (data : Bytes) :
    OnlySends
      { c with
        published := c.published ++ [⟨⟨c.published.length, call.topic, data, group⟩,
          effectiveRetransmitCount cfg call.qos, c.loop.time, c.stops⟩] }
      (c.transmit cfg call group data) := by
  unfold transmit
  simp only
  generalize (⟨c.published.length, call.topic, data, group⟩ : Job) = job
  generalize (⟨job, effectiveRetransmitCount cfg call.qos, c.loop.time, c.stops⟩ :
    Publication) = p
  have hsent := (cancelIndefinite_onlySends { c with published := c.published ++ [p] }
    call.topic).trans (sendto_onlySends cfg _ job c.loop.time call.ok)
  generalize sendto cfg _ _ _ _ = c' at hsent ⊢
  split
  · exact hsent.trans (startIndefinite_onlySends c' job)
  split
  · obtain ⟨loop, finite, heq, htime, -⟩ := foldl_scheduleOne cfg c' job
      (List.range' 1 ((effectiveRetransmitCount cfg call.qos).toNat - 1))
    rw [heq]
    exact hsent.trans (.of_sent_eq rfl rfl rfl htime rfl)
  · exact hsent

/-! ## The invariant -/

/-- The client's own account of its publishes is that of the history. -/
structure Follows (c : MpubsubClient) (log : History) : Prop where
  published : c.published = log.published
  stops : c.stops = log.stops
  time : c.loop.time = log.time
  opened : c.transport ≠ none ↔ log.opened = true

theorem Follows.of_onlySends (h : Follows c log) (hsame : OnlySends c c') : Follows c' log where
  published := hsame.published.trans h.published
  stops := hsame.stops.trans h.stops
  time := hsame.time.trans h.time
  opened := by rw [hsame.transport, h.opened]

theorem Follows.publish (h : Follows c log) (hcached : GroupsCached cfg c) (call : PublishCall) :
    Follows (c.publish cfg call).1 (log.record cfg (.publish call) (c.publish cfg call).2) := by
  have hcases := publish_publishes hcached call
  generalize c.publish cfg call = result at hcases
  cases hcases with
  | raised groups error => exact ⟨h.published, h.stops, h.time, h.opened⟩
  | transmitted groups data hcached htransport htopic hdata =>
    simp only [History.record, hdata]
    refine Follows.of_onlySends ?_ (transmit_onlySends cfg _ call _ data)
    refine ⟨?_, h.stops, h.time, h.opened⟩
    simp only [History.publication, h.published, h.stops, h.time]

end MpubsubClient

end Mpubsub.Client
