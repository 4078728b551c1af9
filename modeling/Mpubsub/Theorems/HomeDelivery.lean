import Mpubsub.Theorems.ClientAgreement
import Mpubsub.Theorems.Dispatch
import Mpubsub.Theorems.HostileDatagrams
import Mpubsub.Theorems.SenderAgreement

/-!
# From a node to Home Assistant

What a node publishes reaches the jobs that are subscribed to its topic in Home Assistant: each of
them once, with the payload that was published, decoded as the subscription wants it
(`home_hears`). The dispatch of the integration is that of the library (`handleDatagram_beside`).
-/

namespace Mpubsub.Theorems

open Mpubsub.Lib Mpubsub.Wire Mpubsub.Node Mpubsub.HomeAssistant
open Mpubsub.Client (Settings MpubsubClient Receiver Codecs CodecError Subscription TopicSub Message
  TEXT_ENCODINGS textCodecs)

/-! ## What the calls bring -/

section

variable {ε : Type} {cfg : Settings} {codecs : Codecs ε} {callbacks : Client.Callbacks ε}
  {c : MpubsubClient} {msg : Reference.DecodedMessage}

/-- The call brings the message to its subscription. -/
def Brings (codecs : Codecs ε) (c : MpubsubClient) (msg : Reference.DecodedMessage)
    (call : Client.Call ε) : Prop :=
  ∃ subscription payload, c.subscriptions[call.sub]? = some subscription ∧
    Client.decodePayload codecs subscription msg.payload = .ok payload ∧
    call.message =
      { topic := subscription.topic, payload := payload, wasEncrypted := msg.wasEncrypted
        wireEncoding := msg.encoding, senderTimestamp := msg.timestamp }

/-- What holds while the loops of `_handle_datagram` run. -/
structure Bringing (cfg : Settings) (codecs : Codecs ε) (c : MpubsubClient)
    (msg : Reference.DecodedMessage) (d : Client.Dispatch ε) : Prop where
  indexed : d.client.Indexed cfg
  subscriptions : d.client.subscriptions = c.subscriptions
  calls : ∀ call ∈ d.calls, Brings codecs c msg call

theorem dispatch_bringing {topicSub : TopicSub} {sub : Nat} {d : Client.Dispatch ε}
    (h : Bringing cfg codecs c msg d) {subscription : Subscription}
    (hget : c.subscriptions[sub]? = some subscription)
    (htopic : subscription.topic = topicSub.topic) :
    Ends (Bringing cfg codecs c msg) (fun _ => Bringing cfg codecs c msg)
      (Client.dispatch cfg codecs callbacks topicSub msg sub d) := by
  unfold Client.dispatch
  rw [h.subscriptions, hget]
  simp only
  cases hdecode : Client.decodePayload codecs subscription msg.payload with
  | error error => cases error <;> exact h
  | ok payload =>
    simp only
    generalize callbacks d.calls sub _ = reaction
    obtain ⟨hindexed, hpruned⟩ := h.indexed.perform reaction.actions
    have hnext (tasks : List Nat) : Bringing cfg codecs c msg
        { client := d.client.perform cfg reaction.actions
          calls := d.calls ++ [⟨sub,
            { topic := topicSub.topic, payload := payload, wasEncrypted := msg.wasEncrypted
              wireEncoding := msg.encoding, senderTimestamp := msg.timestamp }, reaction⟩]
          tasks := tasks } := by
      refine ⟨hindexed, hpruned.subscriptions.trans h.subscriptions, ?_⟩
      refine List.forall_mem_append.mpr ⟨h.calls, List.forall_mem_singleton.mpr ?_⟩
      exact ⟨subscription, payload, hget, hdecode, by rw [htopic]⟩
    cases reaction.ending with
    | returned => exact hnext d.tasks
    | raised e => exact hnext d.tasks
    | coroutine => exact hnext (d.tasks ++ [sub])

theorem dispatchTopic_bringing {ref : Nat} {d : Client.Dispatch ε}
    (h : Bringing cfg codecs c msg d) :
    Ends (Bringing cfg codecs c msg) (fun _ => Bringing cfg codecs c msg)
      (Client.dispatchTopic cfg codecs callbacks msg ref d) := by
  unfold Client.dispatchTopic
  cases hget : d.client.topicSubs[ref]? with
  | none => exact h
  | some topicSub =>
    refine forEach_ends (I := fun _ => Bringing cfg codecs c msg) ?_ h
    intro done sub rest d' hsplit hd'
    have hsub : sub ∈ topicSub.callbacks := by
      rw [← hsplit]
      exact List.mem_append_right _ List.mem_cons_self
    obtain ⟨subscription, hsubscription, htopic⟩ :=
      h.indexed.captured topicSub (List.mem_of_getElem? hget) sub hsub
    rw [h.subscriptions] at hsubscription
    exact dispatch_bringing hd' hsubscription htopic

theorem handleDatagram_brings {r : Receiver} {now : Int} {data : Bytes}
    (h : r.client.Indexed cfg) (hadmitted : Admitted cfg r now data msg) :
    ∀ call ∈ (Client.handleDatagram cfg codecs callbacks now data r).calls,
      Brings codecs r.client msg call := by
  have hloops : Ends (Bringing cfg codecs r.client msg) (fun _ => Bringing cfg codecs r.client msg)
      (forEach (Client.dispatchTopic cfg codecs callbacks msg)
        ((r.client.crcIndex.get? msg.topicCrc).getD []) { client := r.client }) :=
    forEach_ends (I := fun _ => Bringing cfg codecs r.client msg)
      (fun _ _ _ _ _ hd => dispatchTopic_bringing hd) ⟨h, rfl, List.forall_mem_nil _⟩
  unfold Client.handleDatagram
  rw [hadmitted.decode]
  simp only [hadmitted.fresh, hadmitted.raw, Bool.not_true, Bool.false_eq_true, if_false, ne_eq,
    not_true_eq_false]
  split
  · exact List.forall_mem_nil _
  · generalize forEach (Client.dispatchTopic cfg codecs callbacks msg) _ _ = result at hloops ⊢
    obtain ⟨d, e | ⟨⟩⟩ := result
    · exact hloops.calls
    · exact hloops.calls

end

/-! ## The jobs -/

/-- What the jobs hear of a message. -/
structure Hears {ε : Type} (codecs : Codecs ε) (c : MpubsubClient) (msg : Reference.DecodedMessage)
    (timestamp : Rat) (h : Handled ε) : Prop where
  returned : h.raised = none
  atMostOnce : ∀ sub, (h.calls.map Call.sub).count sub ≤ 1
  once : ∀ sub ∈ registered c msg, Decodes codecs c msg sub →
    (∀ call ∈ h.calls, [call.sub, sub].Sublist (registered c msg) →
      sub ∉ call.reaction.unsubscribes) →
    (h.calls.map Call.sub).count sub = 1
  messages : ∀ call ∈ h.calls, ∃ subscription payload,
    c.subscriptions[call.sub]? = some subscription ∧
      Reference.topicCrc32 subscription.topic = msg.topicCrc ∧
      decodePayload codecs subscription msg.payload = .ok payload ∧
      call.message =
        { topic := subscription.topic, payload := payload, qos := 0, retain := false
          subscribedTopic := subscription.topic, timestamp := timestamp
          wasEncrypted := msg.wasEncrypted, wireEncoding := msg.encoding
          senderTimestamp := msg.timestamp }

/-- The codecs `utf-8`, `ascii` and `latin-1`. -/
def textKnown (codec : String) : Bool := some codec ∈ TEXT_ENCODINGS

section

variable {ε : Type} {cfg : Settings} {others : Codecs ε} {lookupError : ε → Bool}

/-- They raise nothing but `UnicodeDecodeError`. -/
theorem textCodecs_known {codec : String} (hknown : textKnown codec = true) (payload : Bytes) (e : ε) :
    textCodecs others codec payload ≠ .error (.other e) := by
  intro hraises
  have hdecode := @textCodecs_decode ε others ⟨"", some codec⟩ (of_decide_eq_true hknown) payload e
  refine hdecode ?_
  unfold Client.decodePayload
  simp only [hraises]
  rfl

theorem noLookupError_text (others : Codecs ε) (lookupError : ε → Bool) :
    NoLookupError (textCodecs others) lookupError textKnown :=
  fun _ payload e hknown hraises => absurd hraises (textCodecs_known hknown payload e)

theorem not_raises {c c' : MpubsubClient} (h : Alike cfg textKnown c c')
    (msg : Reference.DecodedMessage) (sub : Nat) (e : ε) :
    ¬Raises (textCodecs others) c' msg sub e := by
  intro hraises
  unfold Raises decodedFor at hraises
  rw [h.subscriptions] at hraises
  obtain ⟨subscription, hget, hdecode⟩ := Option.map_eq_some_iff.mp hraises
  unfold Client.decodePayload at hdecode
  cases hencoding : subscription.encoding with
  | none =>
    rw [hencoding] at hdecode
    cases hdecode
  | some codec =>
    have hknown := h.codec_known (List.mem_of_getElem? hget) hencoding
    rw [hencoding] at hdecode
    simp only at hdecode
    cases hcodec : textCodecs others codec msg.payload with
    | ok text =>
      rw [hcodec] at hdecode
      cases hdecode
    | error error =>
      rw [hcodec] at hdecode
      cases hdecode
      exact textCodecs_known hknown msg.payload e hcodec

/-- A message that is admitted, at a client that is like a client of the library. -/
theorem hears_of_alike {encoders : Encoders} {callbacks : Callbacks ε}
    (hquiet : ∀ calls sub message e, (callbacks calls sub message).ending ≠ .raised e)
    {r r' : Receiver} (h : BothAlike cfg textKnown r r') (hindexed : r'.client.Indexed cfg)
    {now : Int} (timestamp : Rat) {data : Bytes} {msg : Reference.DecodedMessage}
    (hadmitted : Admitted cfg r now data msg) :
    Hears (textCodecs others) r.client msg timestamp
      (handleDatagram cfg (textCodecs others) lookupError (textEncoders encoders) callbacks now
        timestamp data r) := by
  obtain ⟨halike, hreplay⟩ := h
  have hregistered : registered r'.client msg = registered r.client msg := by
    unfold registered callbacksOf
    rw [halike.crcIndex, halike.topicSubs]
  have hadmitted' : Admitted cfg r' now data msg :=
    ⟨hadmitted.decode, hreplay ▸ hadmitted.fresh, hadmitted.raw⟩
  obtain ⟨-, -, hcalls, -, hraised⟩ := handleDatagram_beside encoders
    (noLookupError_text others lookupError) hquiet now timestamp data halike hreplay
  have horderly : Orderly (textCodecs others) r'.client msg :=
    List.pairwise_of_forall fun sub _ hraises =>
      absurd hraises.choose_spec (not_raises halike msg sub _)
  have hdispatched := @dispatched_of_orderly ε cfg _ (callbacks.library timestamp) _ _ _ _
    hindexed hadmitted' horderly
  have hbrings := @handleDatagram_brings ε cfg (textCodecs others)
    (callbacks.library timestamp) _ _ _ _ hindexed hadmitted'
  generalize handleDatagram cfg _ _ _ _ _ _ _ _ = handled at hcalls hraised ⊢
  generalize Client.handleDatagram cfg _ _ _ _ _ = handled' at *
  have hsubs : handled.calls.map Call.sub = handled'.calls.map Client.Call.sub := by
    rw [hcalls, List.map_map]
    rfl
  constructor
  · rw [hraised]
    cases hcase : handled'.raised with
    | none => rfl
    | some raised =>
      obtain ⟨sub, -, e, -, hraises⟩ := hdispatched.raised raised hcase
      exact absurd hraises (not_raises halike msg sub e)
  · rw [hsubs]
    exact hdispatched.atMostOnce
  · intro sub hsub hdecodes hkept
    rw [hsubs]
    refine hdispatched.exactlyOnce sub (hregistered ▸ hsub) ?_ ?_
    · unfold Decodes decodedFor at hdecodes ⊢
      rw [halike.subscriptions]
      exact hdecodes
    · rintro ⟨call, hcall, hbefore, hunsubscribes⟩
      refine hkept (callOf timestamp call) ?_ (hregistered ▸ hbefore) hunsubscribes
      rw [hcalls]
      exact List.mem_map_of_mem hcall
  · intro call hcall
    rw [hcalls] at hcall
    obtain ⟨call', hcall', rfl⟩ := List.mem_map.mp hcall
    obtain ⟨subscription, payload, hget, hdecode, hmessage⟩ := hbrings call' hcall'
    obtain ⟨-, subscription', hget', hcrc⟩ := hdispatched.crc call' hcall'
    cases hget.symm.trans hget'
    refine ⟨subscription, payloadOf payload, halike.subscriptions ▸ hget, hcrc, ?_, ?_⟩
    · rw [decodePayload_eq, hdecode]
      rfl
    · show receiveMessage timestamp call'.message = _
      rw [hmessage]
      rfl

end

/-! ## The theorem -/

/-- After every run in which subscriptions are to text or bytes and no job raises: a payload that a
node with the same key setting publishes, and that the replay guard takes, is heard by the jobs
that are subscribed to its topic. -/
theorem home_hears {κ ε : Type} (node : MulticastPubSub κ) (cfg : Settings)
    (hkey : cfg.key = keySetting node) (others : Codecs ε) (lookupError : ε → Bool)
    (encoders : Encoders) (time : Rat) (replay : Replay.Python.ReplayGuard)
    (inputs : List (Input ε))
    (hshared : ∀ input ∈ inputs, input.Shared (textEncoders encoders) textKnown) (topic : String)
    (payload : Bytes) (hsize : payload.length ≤ node.effectiveMax) (sent : UInt32)
    (nonce : Vector UInt8 12) (callbacks : Callbacks ε)
    (hquiet : ∀ calls sub message e, (callbacks calls sub message).ending ≠ .raised e) (now : Int)
    (timestamp : Rat) :
    let r := (machine cfg (textCodecs others) lookupError (textEncoders encoders)).exec
      ⟨MpubsubClient.new time, replay⟩ inputs
    let msg := sentMessage node.encryptionEnabled topic payload .RAW sent nonce
    (Client.replayAccepts r.replay now msg).2 = true →
      Hears (textCodecs others) r.client msg timestamp
        (handleDatagram cfg (textCodecs others) lookupError (textEncoders encoders) callbacks now
          timestamp (node.datagram (drawing nonce sent) (utf8 topic) payload .RAW) r) := by
  intro r msg hfresh
  obtain ⟨-, hboth⟩ := exec_alike cfg encoders (noLookupError_text others lookupError) time replay
    hshared
  refine hears_of_alike hquiet hboth (exec_indexed time replay _) timestamp ⟨?_, hfresh, rfl⟩
  rw [hkey]
  exact decode_published hsize topic .RAW sent nonce

/-- A node with a key, and a job that is subscribed to the text of `t`. -/
def doorNode : MulticastPubSub Nat := { encryptionEnabled := true }

def doorInputs : List (Input String) :=
  [.call (.start 0), .call (.subscribe "t" (some "utf-8") true)]

/-- `home_hears` when the node says that the door is open. -/
theorem home_hears_door :
    let others : Codecs String := fun _ _ => .error (.other "LookupError")
    let encoders : Encoders := fun _ _ => none
    let cfg : Settings := { key := keySetting doorNode }
    let r := (machine cfg (textCodecs others) (fun _ => false) (textEncoders encoders)).exec
      ⟨MpubsubClient.new 0, .init 60 4096⟩ doorInputs
    Hears (textCodecs others) r.client
      (sentMessage true "t" (utf8 "open") .RAW 1000 (Vector.replicate 12 7)) 1000
      (handleDatagram cfg (textCodecs others) (fun _ => false) (textEncoders encoders)
        (fun _ _ _ => {}) 1000 1000
        (doorNode.datagram (drawing (Vector.replicate 12 7) 1000) (utf8 "t") (utf8 "open") .RAW)
        r) := by
  intro others encoders
  refine home_hears doorNode { key := keySetting doorNode } rfl others (fun _ => false) encoders 0
    (.init 60 4096) doorInputs ?_ "t" (utf8 "open") (by decide) 1000 (Vector.replicate 12 7)
    (fun _ _ _ => {}) ?_ 1000 1000 ?_
  · intro input hinput
    simp only [doorInputs, List.mem_cons, List.not_mem_nil, or_false] at hinput
    rcases hinput with rfl | rfl
    · trivial
    · intro codec hcodec
      cases hcodec
      rfl
  · intro calls sub message e hraised
    cases hraised
  · rfl

end Mpubsub.Theorems
