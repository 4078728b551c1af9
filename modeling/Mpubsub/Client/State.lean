import Mathlib.Data.Rat.Defs
import Mathlib.Algebra.Order.Ring.Unbundled.Rat
import Mpubsub.Lib.Dict
import Mpubsub.Lib.EventLoop
import Mpubsub.Reference.Wire

/-!
# The asyncio client's state (`aio.py`)

`MpubsubClient` as a record, with the loop it runs on and the objects it shares:
`_TopicSub`s and `_Subscription`s are known by their places in `topicSubs` and
`subscriptions`, sockets by their places in `sockets`, where the kernel keeps the groups
that a socket has joined. `published`, `sent` and `stops` are the history of the client;
nothing reads them. Times are those of the loop's clock, in seconds and exact.
-/

namespace Mpubsub.Client

open Mpubsub.Lib Mpubsub.Wire

/-! ## Topics and payloads -/

def MAX_TOPIC_BYTES : Nat := 200
def WILDCARD_CHARS : List Char := ['+', '#']

inductive TopicError where
  | wildcard (topic : String) (char : Char)
  | empty
  | nul
  | tooLong (len : Nat)
deriving DecidableEq

/-- The text of an error; `repr` is the format `%r`. -/
def TopicError.text (repr : String → String) : TopicError → String
  | wildcard topic char =>
    "topic " ++ repr topic ++ " contains the MQTT wildcard " ++ repr (String.singleton char) ++
      ", which mpubsub cannot support: the wire carries only a CRC32 of the topic, so there " ++
      "is no way to match a pattern. Subscribe to each topic individually."
  | empty => "topic must not be empty"
  | nul => "topic must not contain NUL bytes"
  | tooLong len =>
    "topic too long: " ++ toString len ++ " bytes (limit " ++ toString MAX_TOPIC_BYTES ++ ")"

/-- `validate_topic`, of a string. -/
def validateTopic (topic : String) : Except TopicError String :=
  match WILDCARD_CHARS.find? fun char => topic.toList.contains char with
  | some char => .error (.wildcard topic char)
  | none =>
    let encoded := utf8 topic
    if encoded = [] then .error .empty
    else if 0 ∈ encoded then .error .nul
    else if encoded.length > MAX_TOPIC_BYTES then .error (.tooLong encoded.length)
    else .ok topic

/-- A payload; of a number, what `str` makes of it. -/
inductive Payload where
  | none
  | bytes (payload : Bytes)
  | str (payload : String)
  | number (str : String)
deriving DecidableEq

/-- `_to_bytes`. -/
def toBytes : Payload → Bytes
  | .none => []
  | .bytes payload => payload
  | .str payload => utf8 payload
  | .number str => utf8 str

/-- What `publish` and `subscribe` raise. -/
inductive ClientError where
  | topic (error : TopicError)
  | notStarted
  | encode (error : Reference.EncodeError)
  | codec (encoding : String)
  | osError
deriving DecidableEq

/-- The outcome of a call: it returns nothing or a new subscription, or it raises. -/
inductive Outcome where
  | done
  | subscribed (sub : Nat)
  | raised (error : ClientError)
deriving DecidableEq

/-! ## Objects -/

/-- The attributes that only the constructor sets. -/
structure Settings where
  port : Nat := 18512
  scope : Scope := .LINK_LOCAL
  interface : Option String := none
  key : Option Bytes := none
  retransmitCount : Int := 1
  retransmitDelay : Rat := 1 / 10
  promoteQos : Bool := false

/-- `_TopicSub`. -/
structure TopicSub where
  topic : String
  crc : Nat
  group : GroupAddr
  callbacks : List Nat := []
deriving DecidableEq

/-- `_Subscription`, with the topic that its `unsubscribe` closure has captured. -/
structure Subscription where
  topic : String
  encoding : Option String
deriving DecidableEq

/-- The argument of `IPV6_JOIN_GROUP`: a group and an interface. -/
structure Mreq where
  group : GroupAddr
  ifindex : Nat
deriving DecidableEq

/-- What a publish sends; `publish` numbers the publishes that were encoded. -/
structure Job where
  publish : Nat
  topic : String
  data : Bytes
  group : GroupAddr
deriving DecidableEq

/-- The closures that are given to `call_later`. -/
inductive Callback where
  | fire (job : Job)
  | tick (job : Job)
deriving DecidableEq

/-- A publish that was encoded, `stops` calls of `stop` after the beginning. -/
structure Publication where
  job : Job
  count : Int
  time : Rat
  stops : Nat
deriving DecidableEq

/-- A call of `sendto`, due at `when` and made at `time`; `ok` unless it raised `OSError`. -/
structure Send where
  job : Job
  port : Nat
  when : Rat
  time : Rat
  ok : Bool
deriving DecidableEq

/-- `MpubsubClient`. -/
structure MpubsubClient where
  sock : Option Nat := none
  transport : Option Nat := none
  ifindex : Nat := 0
  subs : Dict String Nat := .empty
  crcIndex : Dict Nat (List Nat) := .empty
  groups : Dict String GroupAddr := .empty
  indefinite : Dict String Nat := .empty
  finite : List Nat := []
  sendFailed : Bool := false
  loop : EventLoop Rat Callback := .idle 0
  topicSubs : List TopicSub := []
  subscriptions : List Subscription := []
  sockets : List (List Mreq) := []
  published : List Publication := []
  sent : List Send := []
  stops : Nat := 0

namespace MpubsubClient

variable (cfg : Settings) (c : MpubsubClient)

/-! ## Lifecycle -/

/-- `start`; `ifindex` is what `if_nametoindex` finds for the interface. -/
def start (ifindex : Nat) : MpubsubClient :=
  let c := if cfg.interface.isSome then { c with ifindex := ifindex } else c
  { c with
    sock := some c.sockets.length
    transport := some c.sockets.length
    sockets := c.sockets ++ [[]] }

/-- `stop`. The transport closes its socket, and the kernel drops the memberships. -/
def stop : MpubsubClient :=
  let c := { c with loop := c.loop.cancelAll c.indefinite.values, indefinite := .empty }
  let c := { c with loop := c.loop.cancelAll c.finite, finite := [] }
  { c with
    transport := none
    sockets :=
      match c.transport with
      | none => c.sockets
      | some i => c.sockets.set i []
    sock := none
    subs := .empty
    crcIndex := .empty
    stops := c.stops + 1 }

/-- `_group_for`. -/
def groupFor (topic : String) : GroupAddr × MpubsubClient :=
  match c.groups.get? topic with
  | some group => (group, c)
  | none =>
    let group := Reference.topicToGroup topic cfg.scope
    (group, { c with groups := c.groups.set topic group })

/-- Cached groups are those of their topics. -/
def GroupsCached : Prop :=
  ∀ topic group, c.groups.get? topic = some group → group = Reference.topicToGroup topic cfg.scope

variable {cfg c}

/-- `_group_for` finds the group of the topic, and changes the cache only. -/
theorem groupFor_spec (h : GroupsCached cfg c) (topic : String) :
    ∃ groups, c.groupFor cfg topic =
        (Reference.topicToGroup topic cfg.scope, { c with groups := groups }) ∧
      GroupsCached cfg { c with groups := groups } := by
  unfold groupFor
  cases hget : c.groups.get? topic with
  | some group =>
    refine ⟨c.groups, ?_, h⟩
    simp only [h topic group hget]
  | none =>
    refine ⟨_, rfl, ?_⟩
    intro topic' group hgroup
    have hgroup : (c.groups.set topic (Reference.topicToGroup topic cfg.scope)).get? topic' =
      some group := hgroup
    rw [Dict.get?_set] at hgroup
    split at hgroup
    · rename_i htopic
      cases hgroup
      rw [htopic]
    · exact h topic' group hgroup

/-! ## The timers of `stop` -/

/-- Every pending timer is known to the client, and `stop` cancels it. -/
theorem scheduled_stop (h : ∀ t ∈ c.loop.scheduled, t.id ∈ c.indefinite.values ∨ t.id ∈ c.finite) :
    c.stop.loop.scheduled = [] := by
  apply List.eq_nil_iff_forall_not_mem.mpr
  intro t ht
  obtain ⟨ht, hfinite⟩ := EventLoop.mem_cancelAll.mp ht
  obtain ⟨ht, hindefinite⟩ := EventLoop.mem_cancelAll.mp ht
  rcases h t ht with hin | hin
  · exact hindefinite hin
  · exact hfinite hin

end MpubsubClient

end Mpubsub.Client
