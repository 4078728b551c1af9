import Mpubsub.HomeAssistant.Client

/-!
# The integration's client over the library's

A run of the integration's client is read as a run of the library's client: of a message a job sees
what the library's `Message` has, and a payload is encoded before it is published (`Input.library`).
Beside each other, the two clients differ in their caches of groups at most (`Alike`), as long as
nobody subscribes with a codec that Python does not have, no payload fails to be encoded, and no job
raises (`Input.Shared`).
-/

namespace Mpubsub.HomeAssistant

open Mpubsub.Lib Mpubsub.Wire Mpubsub.Replay.Python
open Mpubsub.Client hiding Event Input Callbacks Call Dispatch Handled Payload validateTopic dispatch
  dispatchTopic decodePayload handleDatagram

/-! ## The translation -/

/-- A payload as the integration has it. -/
def payloadOf : Client.Payload → Payload
  | .none => .bytes []
  | .bytes payload => .bytes payload
  | .str payload => .str payload
  | .number str => .str str

/-- A message as the integration has it, made at a time. -/
def receiveMessage (timestamp : Rat) (message : Message) : ReceiveMessage where
  topic := message.topic
  payload := payloadOf message.payload
  qos := 0
  retain := false
  subscribedTopic := message.topic
  timestamp := timestamp
  wasEncrypted := message.wasEncrypted
  wireEncoding := message.wireEncoding
  senderTimestamp := message.senderTimestamp

section

variable {ε : Type}

def callOf (timestamp : Rat) (call : Client.Call ε) : Call ε :=
  ⟨call.sub, receiveMessage timestamp call.message, call.reaction⟩

/-- The jobs as callbacks of the library. -/
def Callbacks.library (callbacks : Callbacks ε) (timestamp : Rat) : Client.Callbacks ε :=
  fun calls sub message =>
    callbacks (calls.map (callOf timestamp)) sub (receiveMessage timestamp message)

variable (encoders : Encoders)

def Event.library : Event → Client.Event
  | .start ifindex => .start ifindex
  | .stop => .stop
  | .subscribe topic encoding ok => .subscribe topic encoding true ok
  | .unsubscribe sub => .unsubscribe sub
  | .publish call encoding =>
    .publish { call with
      payload := .bytes ((encodePayload encoders call.payload encoding).getD []) }
  | .advance time => .advance time
  | .fire handle ok => .fire handle ok

def Input.library : Input ε → Client.Input ε
  | .call e => .call (e.library encoders)
  | .datagram callbacks now timestamp data => .datagram (callbacks.library timestamp) now data

/-- The calls that both clients take: with a codec that Python has, with a payload that can be
encoded. -/
def Event.Shared (known : String → Bool) : Event → Prop
  | .subscribe _ encoding _ => ∀ codec, encoding = some codec → known codec = true
  | .publish call encoding => encodePayload encoders call.payload encoding ≠ none
  | _ => True

/-- The calls that both clients take, and datagrams when no job raises. -/
def Input.Shared (known : String → Bool) : Input ε → Prop
  | .call e => e.Shared encoders known
  | .datagram callbacks _ _ _ =>
    ∀ calls sub message e, (callbacks calls sub message).ending ≠ .raised e

/-- The library's client, answering as the integration does. -/
def libraryMachine (cfg : Settings) (codecs : Codecs ε) : Machine Receiver (Input ε) (Answer ε) where
  step r
    | .call e =>
      ({ r with client := (r.client.step cfg (e.library encoders)).1 },
        .outcome (r.client.step cfg (e.library encoders)).2)
    | .datagram callbacks now timestamp data =>
      let handled := Client.handleDatagram cfg codecs (callbacks.library timestamp) now data r
      (handled.receiver,
        .handled (handled.calls.map (callOf timestamp)) handled.tasks handled.raised)

/-- Its states are those of the library's runs. -/
theorem exec_libraryMachine (cfg : Settings) (codecs : Codecs ε) (r : Receiver)
    (inputs : List (Input ε)) :
    (libraryMachine encoders cfg codecs).exec r inputs =
      (Receiver.machine cfg codecs).exec r (inputs.map (Input.library encoders)) := by
  induction inputs generalizing r with
  | nil => rfl
  | cons input inputs ih =>
    rw [List.map_cons, Machine.exec_cons, Machine.exec_cons, ih]
    cases input <;> rfl

end

/-! ## Topics and payloads -/

/-- The two clients check a topic in different orders, with the same result. -/
theorem validateTopic_eq (topic : String) : validateTopic topic = Client.validateTopic topic := by
  unfold validateTopic Client.validateTopic
  cases WILDCARD_CHARS.find? fun char => topic.toList.contains char with
  | some char => rfl
  | none =>
    simp only [← zero_mem_utf8, List.length_eq_zero_iff]
    by_cases hempty : utf8 topic = []
    · rw [hempty, if_neg List.not_mem_nil]
      rfl
    · rw [if_neg hempty, if_neg hempty]

/-- With the default encoding a payload is the bytes that the library makes of it. -/
theorem encodePayload_default (others : Encoders) (payload : Client.Payload) :
    encodePayload (textEncoders others) payload (some DEFAULT_ENCODING) =
      some (toBytes payload) := by
  have hcodec : ((some DEFAULT_ENCODING).filter (· ≠ "")).getD DEFAULT_ENCODING = "utf-8" := by
    decide
  unfold encodePayload
  rw [hcodec]
  cases payload <;> rfl

/-- The integration's payloads are what the codecs of the library make. -/
theorem decodePayload_eq {ε : Type} (codecs : Codecs ε) (subscription : Subscription)
    (payload : Bytes) :
    decodePayload codecs subscription payload =
      (Client.decodePayload codecs subscription payload).map payloadOf := by
  unfold decodePayload Client.decodePayload
  cases subscription.encoding with
  | none => rfl
  | some encoding =>
    simp only
    cases codecs encoding payload <;> rfl

/-! ## The clients beside each other -/

/-- The client with another cache of groups. -/
def recached (c : MpubsubClient) (groups : Dict String GroupAddr) : MpubsubClient :=
  { c with groups := groups }

section

variable {cfg : Settings} (c : MpubsubClient) (groups : Dict String GroupAddr)

@[simp] theorem recached_sock : (recached c groups).sock = c.sock := rfl
@[simp] theorem recached_ifindex : (recached c groups).ifindex = c.ifindex := rfl
@[simp] theorem recached_sockets : (recached c groups).sockets = c.sockets := rfl
@[simp] theorem recached_topicSubs : (recached c groups).topicSubs = c.topicSubs := rfl

theorem unsubscribe_recached (sub : Nat) :
    (recached c groups).unsubscribe sub = recached (c.unsubscribe sub) groups := by
  unfold MpubsubClient.unsubscribe recached
  dsimp only
  cases c.subscriptions[sub]? with
  | none => rfl
  | some subscription =>
    dsimp only
    cases c.subs.get? subscription.topic with
    | none => rfl
    | some ref =>
      dsimp only
      cases c.topicSubs[ref]? with
      | none => rfl
      | some topicSub =>
        dsimp only
        split
        · rfl
        split
        · rfl
        · rfl

theorem sendto_recached (job : Job) (when : Rat) (ok : Bool) :
    (recached c groups).sendto cfg job when ok = recached (c.sendto cfg job when ok) groups := by
  unfold MpubsubClient.sendto recached
  dsimp only
  split
  · rfl
  · rfl

theorem cancelIndefinite_recached (topic : String) :
    (recached c groups).cancelIndefinite topic = recached (c.cancelIndefinite topic) groups := by
  unfold MpubsubClient.cancelIndefinite recached
  dsimp only
  cases c.indefinite.get? topic <;> rfl

theorem transmit_recached (call : PublishCall) (group : GroupAddr) (data : Bytes) :
    (recached c groups).transmit cfg call group data =
      recached (c.transmit cfg call group data) groups := by
  unfold MpubsubClient.transmit
  generalize hjob : (⟨c.published.length, call.topic, data, group⟩ : Job) = job
  generalize hpublication :
    (⟨job, effectiveRetransmitCount cfg call.qos, c.loop.time, c.stops⟩ : Publication) = p
  have hsent := @sendto_recached cfg
    (({ c with published := c.published ++ [p] } : MpubsubClient).cancelIndefinite call.topic) groups
    job c.loop.time call.ok
  rw [← cancelIndefinite_recached] at hsent
  unfold recached at hsent ⊢
  dsimp only at hsent ⊢
  rw [hjob, hpublication, hsent]
  generalize MpubsubClient.sendto cfg _ _ _ _ = sent
  split
  · rfl
  split
  · have hone (c : MpubsubClient) (i : Nat) :
        (recached c groups).scheduleOne (cfg.retransmitDelay * i) job =
          recached (c.scheduleOne (cfg.retransmitDelay * i) job) groups := rfl
    exact List.foldl_hom (recached · groups) hone
  · rfl

theorem fire_recached (handle : Nat) (ok : Bool) :
    (recached c groups).fire cfg handle ok = recached (c.fire cfg handle ok) groups := by
  unfold MpubsubClient.fire recached
  dsimp only
  cases c.loop.find? handle with
  | none => rfl
  | some timer =>
    dsimp only
    split
    · rfl
    · cases timer.callback with
      | fire job =>
        exact sendto_recached
          { c with loop := c.loop.cancel handle, finite := c.finite.filter (· ≠ handle) } groups job
          timer.when ok
      | tick job =>
        dsimp only
        split
        · rfl
        · exact congrArg (MpubsubClient.startIndefinite cfg · job)
            (sendto_recached { c with loop := c.loop.cancel handle } groups job timer.when ok)

end

/-- The second client has another cache of groups at most, and no subscription has a codec that
Python does not have. -/
inductive Alike (cfg : Settings) (known : String → Bool) (c : MpubsubClient) :
    MpubsubClient → Prop
  | mk (groups : Dict String GroupAddr) (hcached : c.GroupsCached cfg)
      (hgroups : (recached c groups).GroupsCached cfg)
      (hknown : ∀ subscription ∈ c.subscriptions, ∀ codec, subscription.encoding = some codec →
        known codec = true) :
      Alike cfg known c (recached c groups)

namespace Alike

variable {cfg : Settings} {known : String → Bool} {c c' : MpubsubClient}

theorem eq_recached (h : Alike cfg known c c') : c' = recached c c'.groups := by
  cases h
  rfl

theorem subscriptions (h : Alike cfg known c c') : c'.subscriptions = c.subscriptions := by
  cases h
  rfl

theorem topicSubs (h : Alike cfg known c c') : c'.topicSubs = c.topicSubs := by
  cases h
  rfl

theorem crcIndex (h : Alike cfg known c c') : c'.crcIndex = c.crcIndex := by
  cases h
  rfl

theorem codec_known (h : Alike cfg known c c') {subscription : Subscription}
    (hmem : subscription ∈ c.subscriptions) {codec : String}
    (hcodec : subscription.encoding = some codec) : known codec = true := by
  obtain ⟨-, -, -, hknown⟩ := h
  exact hknown subscription hmem codec hcodec

theorem start (h : Alike cfg known c c') (ifindex : Nat) :
    Alike cfg known (asyncStart cfg c ifindex) (c'.start cfg ifindex) := by
  obtain ⟨groups, hcached, hgroups, hknown⟩ := h
  unfold asyncStart MpubsubClient.start
  dsimp only
  split
  · exact .mk groups hcached hgroups hknown
  · exact .mk groups hcached hgroups hknown

theorem stop (h : Alike cfg known c c') : Alike cfg known (asyncStop c) c'.stop := by
  obtain ⟨groups, hcached, hgroups, hknown⟩ := h
  exact .mk groups hcached hgroups hknown

theorem advance (h : Alike cfg known c c') (time : Rat) :
    Alike cfg known { c with loop := c.loop.advance time }
      { c' with loop := c'.loop.advance time } := by
  obtain ⟨groups, hcached, hgroups, hknown⟩ := h
  exact .mk groups hcached hgroups hknown

/-- What leaves the cache and the subscriptions alone. -/
theorem frame {groups : Dict String GroupAddr} {d : MpubsubClient}
    (h : Alike cfg known c (recached c groups)) (hgroups : d.groups = c.groups)
    (hsubscriptions : d.subscriptions = c.subscriptions) :
    Alike cfg known d (recached d groups) := by
  generalize hc' : recached c groups = c' at h
  obtain ⟨groups', hcached, hother, hknown⟩ := h
  have heq : groups' = groups := (congrArg MpubsubClient.groups hc').symm
  subst heq
  refine .mk groups' ?_ hother ?_
  · intro topic group hget
    exact hcached topic group (hgroups ▸ hget)
  · rw [hsubscriptions]
    exact hknown

theorem fire (h : Alike cfg known c c') (handle : Nat) (ok : Bool) :
    Alike cfg known (fire cfg c handle ok) (c'.fire cfg handle ok) := by
  have hsame := @MpubsubClient.fire_sameSubscriptions cfg c handle ok
  cases h with
  | mk groups hcached hgroups hknown =>
    rw [fire_recached]
    exact (Alike.mk groups hcached hgroups hknown).frame hsame.groups hsame.subscriptions

theorem unsubscribe (h : Alike cfg known c c') (sub : Nat) :
    Alike cfg known (unsubscribe c sub) (c'.unsubscribe sub) := by
  have hsame : (c.unsubscribe sub).groups = c.groups ∧
      (c.unsubscribe sub).subscriptions = c.subscriptions := by
    have hcases := MpubsubClient.unsubscribe_unsubscribes c sub
    generalize c.unsubscribe sub = result at hcases
    cases hcases <;> exact ⟨rfl, rfl⟩
  cases h with
  | mk groups hcached hgroups hknown =>
    rw [unsubscribe_recached]
    exact (Alike.mk groups hcached hgroups hknown).frame hsame.1 hsame.2

/-- Both clients find the group of the topic. -/
theorem groupFor (h : Alike cfg known c c') (topic : String) :
    ∃ groups groups', groupFor cfg c topic =
        (Reference.topicToGroup topic cfg.scope, recached c groups) ∧
      c'.groupFor cfg topic =
        (Reference.topicToGroup topic cfg.scope, recached c groups') ∧
      Alike cfg known (recached c groups) (recached c groups') ∧
      Alike cfg known (recached c groups) c' := by
  obtain ⟨groups', hcached, hgroups, hknown⟩ := h
  obtain ⟨groups₁, heq₁, hcached₁⟩ := MpubsubClient.groupFor_spec hcached topic
  obtain ⟨groups₂, heq₂, hcached₂⟩ := MpubsubClient.groupFor_spec hgroups topic
  exact ⟨groups₁, groups₂, heq₁, heq₂, .mk groups₂ hcached₁ hcached₂ hknown,
    .mk groups' hcached₁ hgroups hknown⟩

/-- A publish with the same payload. -/
theorem publish (h : Alike cfg known c c') (call : PublishCall) {payload : Client.Payload}
    {bytes : Bytes} (hbytes : toBytes payload = bytes) :
    Alike cfg known (asyncPublish cfg c call bytes).1
        (c'.publish cfg { call with payload := payload }).1 ∧
      (asyncPublish cfg c call bytes).2 = (c'.publish cfg { call with payload := payload }).2 := by
  obtain ⟨groups, groups', heq, heq', halike, -⟩ := h.groupFor call.topic
  have htransport : c'.transport = c.transport := by
    cases h
    rfl
  unfold asyncPublish MpubsubClient.publish
  rw [validateTopic_eq]
  cases Client.validateTopic call.topic with
  | error error => exact ⟨h, rfl⟩
  | ok topic =>
    simp only [htransport, heq, heq', hbytes]
    split
    · exact ⟨h, rfl⟩
    · cases Reference.encode call.time call.urandom call.topic bytes Reference.ENCODING_RAW cfg.key
          ((cfg.key.filter (· ≠ [])).map fun _ => call.time) none with
      | error error => exact ⟨halike, rfl⟩
      | ok data =>
        refine ⟨?_, rfl⟩
        have hsame := @MpubsubClient.transmit_sameSubscriptions cfg (recached c groups) call
          (Reference.topicToGroup call.topic cfg.scope) data
        have hkept := frame halike hsame.groups hsame.subscriptions
        rw [← transmit_recached] at hkept
        exact hkept

theorem register (h : Alike cfg known c c') (ref : Nat) (topic : String)
    {encoding : Option String} (hcodec : ∀ codec, encoding = some codec → known codec = true) :
    Alike cfg known (c.register ref ⟨topic, encoding⟩) (c'.register ref ⟨topic, encoding⟩) := by
  obtain ⟨groups, hcached, hgroups, hknown⟩ := h
  exact .mk groups hcached hgroups
    (List.forall_mem_append.mpr ⟨hknown, List.forall_mem_singleton.mpr hcodec⟩)

/-- Without a socket the integration has filled its cache before it raises, the library has not. -/
theorem join (h : Alike cfg known c c') (topic : String) (ok : Bool) :
    Alike cfg known (asyncJoin cfg c topic ok).1 (c'.join cfg topic ok).1 ∧
      (asyncJoin cfg c topic ok).2 = (c'.join cfg topic ok).2 := by
  obtain ⟨groups, groups', heq, heq', halike, hold⟩ := h.groupFor topic
  have hsock : c'.sock = c.sock := by
    cases h
    rfl
  unfold asyncJoin MpubsubClient.join
  simp only [heq, heq', hsock, recached_sock, recached_sockets, recached_ifindex,
    recached_topicSubs]
  cases c.sock with
  | none => exact ⟨hold, rfl⟩
  | some i =>
    simp only
    cases joinGroup c.sockets i ⟨Reference.topicToGroup topic cfg.scope, c.ifindex⟩ ok with
    | none => exact ⟨halike, rfl⟩
    | some sockets =>
      refine ⟨?_, rfl⟩
      let topicSub : TopicSub :=
        { topic := topic, crc := Reference.topicCrc32 topic
          group := Reference.topicToGroup topic cfg.scope }
      let joined : MpubsubClient := { recached c groups with sock := some i, sockets := sockets }
      exact frame (d := joined.adopt topicSub) halike rfl rfl

/-- A subscription with a codec that Python has. -/
theorem subscribe (h : Alike cfg known c c') (topic : String)
    {encoding : Option String} (hcodec : ∀ codec, encoding = some codec → known codec = true)
    (ok : Bool) :
    Alike cfg known (asyncSubscribe cfg c topic encoding ok).1
        (c'.subscribe cfg topic encoding true ok).1 ∧
      (asyncSubscribe cfg c topic encoding ok).2 = (c'.subscribe cfg topic encoding true ok).2 := by
  obtain ⟨hjoin, hresult⟩ := h.join topic ok
  have hsubs : c'.subs = c.subs := by
    cases h
    rfl
  unfold asyncSubscribe MpubsubClient.subscribe
  rw [validateTopic_eq]
  cases Client.validateTopic topic with
  | error error => exact ⟨h, rfl⟩
  | ok topic' =>
    simp only [hsubs, h.subscriptions, Bool.not_true, Bool.false_eq_true, and_false, if_false]
    cases c.subs.get? topic with
    | some ref => exact ⟨h.register ref topic hcodec, rfl⟩
    | none =>
      simp only
      generalize asyncJoin cfg c topic ok = r at hjoin hresult ⊢
      generalize c'.join cfg topic ok = r' at hjoin hresult ⊢
      obtain ⟨d, result⟩ := r
      obtain ⟨d', result'⟩ := r'
      cases hresult
      cases result with
      | error error => exact ⟨hjoin, rfl⟩
      | ok ref =>
        have hsame : d'.subscriptions = d.subscriptions := hjoin.subscriptions
        refine ⟨hjoin.register ref topic hcodec, ?_⟩
        simp only [hsame]

end Alike

end Mpubsub.HomeAssistant
