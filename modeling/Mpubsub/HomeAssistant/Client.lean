import Mpubsub.Client.Dispatch
import Mpubsub.HomeAssistant.BinarySensor

/-!
# The client of the Home Assistant integration (`client.py`)

The integration has a client of its own, beside that of the library (`aio.py`). Its attributes are
those of the library's client, and where its methods have the same lines they are here the library's
under their names in the integration. It differs in the order in which a topic is checked and joined,
in the codecs, which `async_subscribe` does not look at, in what a payload may be, and in the
exceptions that leave `_dispatch`: `async_run_hass_job` lets the exception of a callback through.
-/

namespace Mpubsub.HomeAssistant

open Mpubsub.Lib Mpubsub.Wire Mpubsub.Replay.Python
open Mpubsub.Client hiding Event Input Callbacks Call Dispatch Handled Payload validateTopic dispatch
  dispatchTopic decodePayload handleDatagram

/-! ## Topics and payloads -/

/-- `validate_topic`, of a string. -/
def validateTopic (topic : String) : Except TopicError String :=
  match WILDCARD_CHARS.find? fun char => topic.toList.contains char with
  | some char => .error (.wildcard topic char)
  | none =>
    if '\x00' ∈ topic.toList then .error .nul
    else
      let encoded := utf8 topic
      if encoded.length = 0 then .error .empty
      else if encoded.length > MAX_TOPIC_BYTES then .error (.tooLong encoded.length)
      else .ok topic

def DEFAULT_ENCODING : String := "utf-8"

/-- `str.encode`, by the name of the codec; `none` if it raises. -/
abbrev Encoders : Type := String → String → Option Bytes

/-- The codec `utf-8` as Python has it, beside the others. -/
def textEncoders (others : Encoders) : Encoders := fun encoding text =>
  if encoding = "utf-8" then some (utf8 text) else others encoding text

/-- `_encode_payload`. -/
def encodePayload (encoders : Encoders) (payload : Client.Payload) (encoding : Option String) :
    Option Bytes :=
  let encoding := (encoding.filter (· ≠ "")).getD DEFAULT_ENCODING
  match payload with
  | .none => some []
  | .bytes payload => some payload
  | .str payload => encoders encoding payload
  | .number str => encoders encoding str

/-! ## Messages -/

/-- `ReceiveMessage`. -/
structure ReceiveMessage where
  topic : String
  payload : Payload
  qos : Int
  retain : Bool
  subscribedTopic : String
  timestamp : Rat
  wasEncrypted : Bool := false
  wireEncoding : Nat := Reference.ENCODING_RAW
  senderTimestamp : Option Nat := none
deriving DecidableEq

/-- A call of the job of a subscription. -/
structure Call (ε : Type) where
  sub : Nat
  message : ReceiveMessage
  reaction : Reaction ε
deriving DecidableEq

/-- The behaviour of the jobs, each after the calls before it. -/
abbrev Callbacks (ε : Type) : Type := List (Call ε) → Nat → ReceiveMessage → Reaction ε

/-- What a datagram has led to so far. -/
structure Dispatch (ε : Type) where
  client : MpubsubClient
  calls : List (Call ε) := []
  tasks : List Nat := []

/-- The end of `handle_datagram`; it returns unless it raised something. -/
structure Handled (ε : Type) where
  receiver : Receiver
  calls : List (Call ε) := []
  tasks : List Nat := []
  raised : Option (Raised ε) := none

/-- A call on the client, the clock, or a timer. -/
inductive Event where
  | start (ifindex : Nat)
  | stop
  | subscribe (topic : String) (encoding : Option String) (ok : Bool)
  | unsubscribe (sub : Nat)
  | publish (call : PublishCall) (encoding : Option String)
  | advance (time : Rat)
  | fire (handle : Nat) (ok : Bool)
deriving DecidableEq

/-- A call, or a datagram with what the jobs do then; `now` and `timestamp` are what `time.time()`
gives to the replay guard and to the messages. -/
inductive Input (ε : Type) where
  | call (e : Event)
  | datagram (callbacks : Callbacks ε) (now : Int) (timestamp : Rat) (data : Bytes)

section

variable (cfg : Settings) (c : MpubsubClient)

/-! ## Lifecycle and subscriptions -/

/-- `async_start`. -/
def asyncStart (ifindex : Nat) : MpubsubClient := c.start cfg ifindex

/-- `async_stop`. -/
def asyncStop : MpubsubClient := c.stop

/-- `_group_for`. -/
def groupFor (topic : String) : GroupAddr × MpubsubClient := c.groupFor cfg topic

/-- `_async_join`, which asks for the group before it looks for a socket. -/
def asyncJoin (topic : String) (ok : Bool) : MpubsubClient × Except ClientError Nat :=
  let crc := Reference.topicCrc32 topic
  let (group, c) := groupFor cfg c topic
  match c.sock with
  | none => (c, .error .notStarted)
  | some i =>
    match joinGroup c.sockets i ⟨group, c.ifindex⟩ ok with
    | none => (c, .error .osError)
    | some sockets =>
      ({ c with sockets := sockets }.adopt { topic := topic, crc := crc, group := group },
        .ok c.topicSubs.length)

/-- `async_subscribe`; `ok` says whether the kernel lets the socket join. -/
def asyncSubscribe (topic : String) (encoding : Option String) (ok : Bool) :
    MpubsubClient × Outcome :=
  match validateTopic topic with
  | .error error => (c, .raised (.topic error))
  | .ok _ =>
    match c.subs.get? topic with
    | some ref => (c.register ref ⟨topic, encoding⟩, .subscribed c.subscriptions.length)
    | none =>
      match asyncJoin cfg c topic ok with
      | (c, .error error) => (c, .raised error)
      | (c, .ok ref) =>
        (c.register ref ⟨topic, encoding⟩, .subscribed c.subscriptions.length)

/-- The closure that `async_subscribe` returned, which calls `_unsubscribe`. -/
def unsubscribe (sub : Nat) : MpubsubClient := c.unsubscribe sub

/-! ## Publishing -/

/-- `async_publish` from the call of `_effective_retransmit_count` on. -/
def transmit (call : PublishCall) (group : GroupAddr) (data : Bytes) : MpubsubClient :=
  c.transmit cfg call group data

/-- `async_publish` of the client, with the payload in bytes. -/
def asyncPublish (call : PublishCall) (payload : Bytes) : MpubsubClient × Outcome :=
  match validateTopic call.topic with
  | .error error => (c, .raised (.topic error))
  | .ok _ =>
    if c.transport.isNone then (c, .raised .notStarted)
    else
      let (group, c) := groupFor cfg c call.topic
      let timestamp := (cfg.key.filter (· ≠ [])).map fun _ => call.time
      match Reference.encode call.time call.urandom call.topic payload Reference.ENCODING_RAW
          cfg.key timestamp none with
      | .error error => (c, .raised (.encode error))
      | .ok data => (transmit cfg c call group data, .done)

/-- `async_publish` of the integration, which encodes the payload first. -/
def publish (encoders : Encoders) (call : PublishCall) (encoding : Option String) :
    MpubsubClient × Outcome :=
  match encodePayload encoders call.payload encoding with
  | none => (c, .raised (.codec (encoding.getD DEFAULT_ENCODING)))
  | some payload => asyncPublish cfg c call payload

/-- The loop runs `_fire` or `_tick`. -/
def fire (handle : Nat) (ok : Bool) : MpubsubClient := c.fire cfg handle ok

end

/-! ## Receiving -/

section

variable {ε : Type} (cfg : Settings) (codecs : Codecs ε) (lookupError : ε → Bool)
  (encoders : Encoders) (callbacks : Callbacks ε)

/-- What a job does to the client; it publishes with the default encoding. -/
def act (c : MpubsubClient) : Action → MpubsubClient
  | .unsubscribe sub => unsubscribe c sub
  | .publish call => (publish cfg c encoders call (some DEFAULT_ENCODING)).1

def perform (c : MpubsubClient) (actions : List Action) : MpubsubClient :=
  actions.foldl (act cfg encoders) c

/-- The payload that a subscription gets. -/
def decodePayload (subscription : Subscription) (payload : Bytes) :
    Except (CodecError ε) Payload :=
  match subscription.encoding with
  | none => .ok (.bytes payload)
  | some encoding => (codecs encoding payload).map .str

/-- `_dispatch`; `lookupError` are the exceptions that are a `LookupError`. -/
def dispatch (timestamp : Rat) (topicSub : TopicSub) (msg : Reference.DecodedMessage) (sub : Nat)
    (d : Dispatch ε) : Dispatch ε × Except ε Unit :=
  match d.client.subscriptions[sub]? with
  | none => (d, .ok ())
  | some subscription =>
    match decodePayload codecs subscription msg.payload with
    | .error .unicodeDecodeError => (d, .ok ())
    | .error (.other e) => if lookupError e then (d, .ok ()) else (d, .error e)
    | .ok payload =>
      let message : ReceiveMessage :=
        { topic := topicSub.topic, payload := payload, qos := 0, retain := false
          subscribedTopic := topicSub.topic, timestamp := timestamp
          wasEncrypted := msg.wasEncrypted, wireEncoding := msg.encoding
          senderTimestamp := msg.timestamp }
      let reaction := callbacks d.calls sub message
      let d := { d with
        client := perform cfg encoders d.client reaction.actions
        calls := d.calls ++ [⟨sub, message, reaction⟩] }
      match reaction.ending with
      | .returned => (d, .ok ())
      | .raised e => (d, .error e)
      | .coroutine => ({ d with tasks := d.tasks ++ [sub] }, .ok ())

/-- The inner loop of `handle_datagram`; the callbacks are copied when it begins. -/
def dispatchTopic (timestamp : Rat) (msg : Reference.DecodedMessage) (ref : Nat) (d : Dispatch ε) :
    Dispatch ε × Except ε Unit :=
  match d.client.topicSubs[ref]? with
  | none => (d, .ok ())
  | some topicSub =>
    forEach (dispatch cfg codecs lookupError encoders callbacks timestamp topicSub msg)
      topicSub.callbacks d

/-- `handle_datagram`. -/
def handleDatagram (now : Int) (timestamp : Rat) (data : Bytes) (r : Receiver) : Handled ε :=
  match Reference.decode data cfg.key with
  | .error (.wireError _) => { receiver := r }
  | .error error => { receiver := r, raised := some (.decode error) }
  | .ok msg =>
    let (replay, admitted) := replayAccepts r.replay now msg
    let r := { r with replay := replay }
    if !admitted then { receiver := r }
    else
      let refs := (r.client.crcIndex.get? msg.topicCrc).getD []
      if refs = [] then { receiver := r }
      else if msg.encoding ≠ Reference.ENCODING_RAW then { receiver := r }
      else
        match forEach (dispatchTopic cfg codecs lookupError encoders callbacks timestamp msg) refs
            { client := r.client } with
        | (d, result) =>
          { receiver := { r with client := d.client }
            calls := d.calls
            tasks := d.tasks
            raised :=
              match result with
              | .ok () => none
              | .error e => some (.exception e) }

end

/-! ## Runs -/

/-- What a call comes to, and what a datagram leads to. -/
inductive Answer (ε : Type) where
  | outcome (outcome : Outcome)
  | handled (calls : List (Call ε)) (tasks : List Nat) (raised : Option (Raised ε))

section

variable {ε : Type} (cfg : Settings) (codecs : Codecs ε) (lookupError : ε → Bool)
  (encoders : Encoders)

def call (c : MpubsubClient) : Event → MpubsubClient × Outcome
  | .start ifindex => (asyncStart cfg c ifindex, .done)
  | .stop => (asyncStop c, .done)
  | .subscribe topic encoding ok => asyncSubscribe cfg c topic encoding ok
  | .unsubscribe sub => (unsubscribe c sub, .done)
  | .publish call encoding => publish cfg c encoders call encoding
  | .advance time => ({ c with loop := c.loop.advance time }, .done)
  | .fire handle ok => (fire cfg c handle ok, .done)

def step (r : Receiver) : Input ε → Receiver × Answer ε
  | .call e =>
    ({ r with client := (call cfg encoders r.client e).1 },
      .outcome (call cfg encoders r.client e).2)
  | .datagram callbacks now timestamp data =>
    let handled :=
      handleDatagram cfg codecs lookupError encoders callbacks now timestamp data r
    (handled.receiver, .handled handled.calls handled.tasks handled.raised)

def machine : Machine Receiver (Input ε) (Answer ε) := ⟨step cfg codecs lookupError encoders⟩

end

end Mpubsub.HomeAssistant
