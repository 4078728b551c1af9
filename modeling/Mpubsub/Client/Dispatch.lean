import Mpubsub.Lib.Loop
import Mpubsub.Client.Config
import Mpubsub.Client.Index
import Mpubsub.Replay.Python

/-!
# Datagrams at the asyncio client (`aio.py`)

`_handle_datagram` and `_dispatch`. What the callbacks do is open: each may call `unsubscribe`
closures and `publish`, and then returns, returns a coroutine or raises an `Exception`; the
client's other methods are coroutine functions. The `Exception`s are those of a type `ε`.
-/

namespace Mpubsub.Client

open Mpubsub.Lib Mpubsub.Wire Mpubsub.Replay.Python MpubsubClient

/-! ## Codecs and callbacks -/

/-- What `bytes.decode` raises. -/
inductive CodecError (ε : Type) where
  | unicodeDecodeError
  | other (e : ε)
deriving DecidableEq

/-- `bytes.decode`, by the name of the codec. -/
abbrev Codecs (ε : Type) : Type := String → Bytes → Except (CodecError ε) String

/-- `Message`. -/
structure Message where
  topic : String
  payload : Payload
  wasEncrypted : Bool
  wireEncoding : Nat
  senderTimestamp : Option Nat
deriving DecidableEq

/-- A call on the client that a callback makes. -/
inductive Action where
  | unsubscribe (sub : Nat)
  | publish (call : PublishCall)
deriving DecidableEq

/-- How a callback ends. -/
inductive Ending (ε : Type) where
  | returned
  | coroutine
  | raised (e : ε)
deriving DecidableEq

/-- What a callback does when it is called. -/
structure Reaction (ε : Type) where
  actions : List Action := []
  ending : Ending ε := .returned
deriving DecidableEq

/-- A call of the callback of a subscription. -/
structure Call (ε : Type) where
  sub : Nat
  message : Message
  reaction : Reaction ε
deriving DecidableEq

/-- The behaviour of the callbacks, each after the calls before it. -/
abbrev Callbacks (ε : Type) : Type := List (Call ε) → Nat → Message → Reaction ε

def Action.event : Action → Event
  | .unsubscribe sub => .unsubscribe sub
  | .publish call => .publish call

def Action.sub? : Action → Option Nat
  | .unsubscribe sub => some sub
  | .publish _ => none

/-- The subscriptions that a callback cancels. -/
def Reaction.unsubscribes {ε : Type} (r : Reaction ε) : List Nat := r.actions.filterMap Action.sub?

/-- `latin-1`: a byte is a character. -/
def latin1 (payload : Bytes) : String := .ofList (payload.map fun b => Char.ofNat b.toNat)

/-- The codecs `utf-8`, `ascii` and `latin-1` as Python has them, beside the others. -/
def textCodecs {ε : Type} (others : Codecs ε) : Codecs ε := fun encoding payload =>
  if encoding = "utf-8" then
    match String.fromUTF8? payload.toByteArray with
    | none => .error .unicodeDecodeError
    | some text => .ok text
  else if encoding = "ascii" then
    if payload.all (· < 128) then .ok (latin1 payload) else .error .unicodeDecodeError
  else if encoding = "latin-1" then .ok (latin1 payload)
  else others encoding payload

/-- The encodings with these codecs, and the one without a codec. -/
def TEXT_ENCODINGS : List (Option String) :=
  [none, some "utf-8", some "ascii", some "latin-1"]

/-! ## Receiving -/

def REPLAY_CACHE_ENTRIES : Int := 4096

/-- The client with its `_replay`. -/
structure Receiver where
  client : MpubsubClient
  replay : ReplayGuard

/-- What a datagram has led to so far. -/
structure Dispatch (ε : Type) where
  client : MpubsubClient
  calls : List (Call ε) := []
  tasks : List Nat := []

/-- What `_handle_datagram` raises: what `decode` raises beside `WireError`, or an exception from
its loops. -/
inductive Raised (ε : Type) where
  | decode (error : Reference.DecodeException)
  | exception (e : ε)
deriving DecidableEq

/-- The end of `_handle_datagram`; it returns unless it raised something. -/
structure Handled (ε : Type) where
  receiver : Receiver
  calls : List (Call ε) := []
  tasks : List Nat := []
  raised : Option (Raised ε) := none

section

variable {ε : Type} (cfg : Settings) (codecs : Codecs ε) (callbacks : Callbacks ε)

def MpubsubClient.perform (c : MpubsubClient) (actions : List Action) : MpubsubClient :=
  actions.foldl (fun c action => (c.step cfg action.event).1) c

/-- The payload that a subscription gets. -/
def decodePayload (subscription : Subscription) (payload : Bytes) :
    Except (CodecError ε) Payload :=
  match subscription.encoding with
  | none => .ok (.bytes payload)
  | some encoding => (codecs encoding payload).map .str

/-- `_dispatch`. -/
def dispatch (topicSub : TopicSub) (msg : Reference.DecodedMessage) (sub : Nat) (d : Dispatch ε) :
    Dispatch ε × Except ε Unit :=
  match d.client.subscriptions[sub]? with
  | none => (d, .ok ())
  | some subscription =>
    match decodePayload codecs subscription msg.payload with
    | .error .unicodeDecodeError => (d, .ok ())
    | .error (.other e) => (d, .error e)
    | .ok payload =>
      let message : Message :=
        { topic := topicSub.topic, payload := payload, wasEncrypted := msg.wasEncrypted
          wireEncoding := msg.encoding, senderTimestamp := msg.timestamp }
      let reaction := callbacks d.calls sub message
      let d := { d with
        client := d.client.perform cfg reaction.actions
        calls := d.calls ++ [⟨sub, message, reaction⟩] }
      match reaction.ending with
      | .returned => (d, .ok ())
      -- `except Exception` logs it.
      | .raised _ => (d, .ok ())
      | .coroutine => ({ d with tasks := d.tasks ++ [sub] }, .ok ())

/-- The inner loop; the callbacks are copied when it begins. -/
def dispatchTopic (msg : Reference.DecodedMessage) (ref : Nat) (d : Dispatch ε) :
    Dispatch ε × Except ε Unit :=
  match d.client.topicSubs[ref]? with
  | none => (d, .ok ())
  | some topicSub => forEach (dispatch cfg codecs callbacks topicSub msg) topicSub.callbacks d

/-- The check by the replay guard, which is not asked about plaintext. -/
def replayAccepts (replay : ReplayGuard) (now : Int) (msg : Reference.DecodedMessage) :
    ReplayGuard × Bool :=
  if msg.wasEncrypted then
    replay.accept now true (msg.timestamp.map Int.ofNat) (msg.nonce.map Int.ofNat)
  else (replay, true)

/-- `_handle_datagram` at a time. -/
def handleDatagram (now : Int) (data : Bytes) (r : Receiver) : Handled ε :=
  match Reference.decode data cfg.key with
  | .error (.wireError _) => { receiver := r }
  | .error error => { receiver := r, raised := some (.decode error) }
  | .ok msg =>
    let (replay, admitted) := replayAccepts r.replay now msg
    let r := { r with replay := replay }
    if !admitted then { receiver := r }
    else
      let refs := (r.client.crcIndex.get? msg.topicCrc).getD []
      if refs = [] then { receiver := r }
      else if msg.encoding ≠ Reference.ENCODING_RAW then { receiver := r }
      else
        match forEach (dispatchTopic cfg codecs callbacks msg) refs { client := r.client } with
        | (d, result) =>
          { receiver := { r with client := d.client }
            calls := d.calls
            tasks := d.tasks
            raised :=
              match result with
              | .ok () => none
              | .error e => some (.exception e) }

end

/-! ## What callbacks do to the client -/

/-- The second client has the subscriptions of the first, less some of `gone`. -/
structure Pruned (gone : List Nat) (c c' : MpubsubClient) : Prop where
  subscriptions : c'.subscriptions = c.subscriptions
  callbacks : ∀ (ref : Nat) (topicSub : TopicSub), c.topicSubs[ref]? = some topicSub →
    ∃ p : Nat → Bool,
      c'.topicSubs[ref]? = some { topicSub with callbacks := topicSub.callbacks.filter p } ∧
        ∀ sub, p sub = false → sub ∈ gone

section

variable {cfg : Settings} {gone gone' : List Nat} {c c' c'' : MpubsubClient}

theorem Pruned.of_eq (hsubscriptions : c'.subscriptions = c.subscriptions)
    (htopicSubs : c'.topicSubs = c.topicSubs) : Pruned gone c c' where
  subscriptions := hsubscriptions
  callbacks := by
    intro ref topicSub href
    refine ⟨fun _ => true, ?_, fun _ h => by cases h⟩
    rw [htopicSubs, href, List.filter_true]

theorem Pruned.trans (h : Pruned gone c c') (h' : Pruned gone' c' c'') :
    Pruned (gone ++ gone') c c'' where
  subscriptions := h'.subscriptions.trans h.subscriptions
  callbacks := by
    intro ref topicSub href
    obtain ⟨p, hp, hgone⟩ := h.callbacks ref topicSub href
    obtain ⟨q, hq, hgone'⟩ := h'.callbacks ref _ hp
    refine ⟨fun sub => q sub && p sub, ?_, ?_⟩
    · rw [hq, List.filter_filter]
    · intro sub hsub
      rcases Bool.and_eq_false_iff.mp hsub with hsub | hsub
      · exact List.mem_append_right _ (hgone' sub hsub)
      · exact List.mem_append_left _ (hgone sub hsub)

theorem MpubsubClient.Indexed.unsubscribe_pruned (h : c.Indexed cfg) (sub : Nat) :
    Pruned [sub] c (c.unsubscribe sub) := by
  have hcases := unsubscribe_unsubscribes c sub
  generalize c.unsubscribe sub = result at hcases
  have herased {ref : Nat} {topicSub : TopicSub} (href : c.topicSubs[ref]? = some topicSub) :
      Pruned [sub] c
        { c with
          topicSubs := c.topicSubs.set ref
            { topicSub with callbacks := topicSub.callbacks.erase sub } } := by
    refine ⟨rfl, ?_⟩
    intro i t hi
    by_cases heq : ref = i
    · subst heq
      cases href.symm.trans hi
      obtain ⟨hlt, -⟩ := List.getElem?_eq_some_iff.mp href
      refine ⟨fun sub' => sub' != sub, ?_, ?_⟩
      · rw [List.getElem?_set_self hlt,
          (h.callbacks topicSub (List.mem_of_getElem? href)).erase_eq_filter]
      · intro sub' hsub'
        rw [bne_eq_false_iff_eq.mp hsub']
        exact List.mem_singleton_self sub
    · have hsame : Pruned [sub] c c := .of_eq rfl rfl
      obtain ⟨p, hp, hgone⟩ := hsame.callbacks i t hi
      exact ⟨p, (List.getElem?_set_ne heq).trans hp, hgone⟩
  cases hcases with
  | stale => exact .of_eq rfl rfl
  | shortened subscription ref topicSub hsub hget href => exact herased href
  | abandoned subscription ref topicSub hsub hget href =>
    exact ⟨rfl, (herased href).callbacks⟩

theorem MpubsubClient.Indexed.publish_pruned (h : c.Indexed cfg) (call : PublishCall) :
    Pruned [] c (c.publish cfg call).1 := by
  obtain ⟨groups, hcached, hcases⟩ := publish_cases h.cached call
  rcases hcases with heq | ⟨-, data, heq⟩
  · rw [heq]
    exact .of_eq rfl rfl
  · rw [heq]
    have hsame : SameSubscriptions { c with groups := groups }
        ({ c with groups := groups }.transmit cfg call
          (Reference.topicToGroup call.topic cfg.scope) data) :=
      transmit_sameSubscriptions _ call _ data
    exact .of_eq hsame.subscriptions hsame.topicSubs

theorem MpubsubClient.Indexed.perform (h : c.Indexed cfg) (actions : List Action) :
    (c.perform cfg actions).Indexed cfg ∧
      Pruned (actions.filterMap Action.sub?) c (c.perform cfg actions) := by
  induction actions generalizing c with
  | nil => exact ⟨h, .of_eq rfl rfl⟩
  | cons action actions ih =>
    obtain ⟨hindexed, hpruned⟩ := ih (h.step action.event)
    refine ⟨hindexed, ?_⟩
    cases action with
    | unsubscribe sub => exact (h.unsubscribe_pruned sub).trans hpruned
    | publish call => exact (h.publish_pruned call).trans hpruned

end

/-! ## Runs -/

/-- The calls on the client, and the datagrams that reach it, each with what the callbacks do
then. -/
inductive Input (ε : Type) where
  | call (e : Event)
  | datagram (callbacks : Callbacks ε) (now : Int) (data : Bytes)

namespace Receiver

variable {ε : Type} (cfg : Settings) (codecs : Codecs ε)

def step (r : Receiver) : Input ε → Receiver × Option (Raised ε)
  | .call e => ({ r with client := (r.client.step cfg e).1 }, none)
  | .datagram callbacks now data =>
    ((handleDatagram cfg codecs callbacks now data r).receiver,
      (handleDatagram cfg codecs callbacks now data r).raised)

def machine : Machine Receiver (Input ε) (Option (Raised ε)) := ⟨step cfg codecs⟩

end Receiver

/-- A client that has just been made, with what the constructor made of its arguments. -/
def Attributes.receiver (a : Attributes) (time : Rat) : Receiver where
  client := new time
  replay := .init a.replayWindow REPLAY_CACHE_ENTRIES

end Mpubsub.Client
