import Mpubsub.HomeAssistant.Library

/-!
# The integration's client and the library's (`client.py`, `aio.py`)

The library's client is the integration's "with Home Assistant taken out". Over every run that both
can take, the integration's client does what the library's does: every call has the same outcome,
every datagram leads to the same calls of the same jobs, and the two have the same subscriptions,
memberships, timers and datagrams sent (`clients_agree`).
-/

namespace Mpubsub.Theorems

open Mpubsub.Lib Mpubsub.HomeAssistant
open Mpubsub.Client (Settings MpubsubClient Receiver Codecs CodecError Raised Subscription TopicSub
  Reaction PublishCall)

/-! ## Datagrams -/

section

variable {ε : Type} {cfg : Settings} {codecs : Codecs ε} {lookupError : ε → Bool}
  {known : String → Bool} {others : Encoders} {callbacks : Callbacks ε} {timestamp : Rat}

/-- What the clients have made of a datagram so far. -/
structure Beside (cfg : Settings) (known : String → Bool) (timestamp : Rat) (d : Dispatch ε)
    (d' : Client.Dispatch ε) : Prop where
  client : Alike cfg known d.client d'.client
  calls : d.calls = d'.calls.map (callOf timestamp)
  tasks : d.tasks = d'.tasks

theorem perform_alike {c c' : MpubsubClient} (h : Alike cfg known c c')
    (actions : List Client.Action) :
    Alike cfg known (perform cfg (textEncoders others) c actions) (c'.perform cfg actions) := by
  induction actions generalizing c c' with
  | nil => exact h
  | cons action actions ih =>
    refine ih (c := act cfg (textEncoders others) c action) ?_
    cases action with
    | unsubscribe sub => exact h.unsubscribe sub
    | publish call =>
      show Alike cfg known (publish cfg c (textEncoders others) call (some DEFAULT_ENCODING)).1 _
      simp only [publish, encodePayload_default]
      exact (h.publish call rfl).1

/-- A codec that Python has does not raise a `LookupError`. -/
def NoLookupError (codecs : Codecs ε) (lookupError : ε → Bool) (known : String → Bool) : Prop :=
  ∀ codec payload e, known codec = true → codecs codec payload = .error (.other e) →
    lookupError e = false

/-- An exception that is not a `UnicodeDecodeError` leaves both clients. -/
theorem lookupError_eq_false (hknown : NoLookupError codecs lookupError known)
    {subscription : Subscription}
    (hcodec : ∀ codec, subscription.encoding = some codec → known codec = true) {payload : Bytes}
    {e : ε} (hdecode : Client.decodePayload codecs subscription payload = .error (.other e)) :
    lookupError e = false := by
  unfold Client.decodePayload at hdecode
  cases hencoding : subscription.encoding with
  | none =>
    rw [hencoding] at hdecode
    cases hdecode
  | some codec =>
    rw [hencoding] at hdecode
    simp only at hdecode
    cases hcodecs : codecs codec payload with
    | ok text =>
      rw [hcodecs] at hdecode
      cases hdecode
    | error error =>
      rw [hcodecs] at hdecode
      cases hdecode
      exact hknown codec payload e (hcodec codec hencoding) hcodecs

/-- One turn of a subscription. -/
theorem dispatch_beside (hknown : NoLookupError codecs lookupError known)
    (hquiet : ∀ calls sub message e, (callbacks calls sub message).ending ≠ .raised e)
    (topicSub : TopicSub) (msg : Reference.DecodedMessage) (sub : Nat) {d : Dispatch ε}
    {d' : Client.Dispatch ε} (h : Beside cfg known timestamp d d') :
    let r := dispatch cfg codecs lookupError (textEncoders others) callbacks timestamp topicSub msg
      sub d
    let r' := Client.dispatch cfg codecs (callbacks.library timestamp) topicSub msg sub d'
    Beside cfg known timestamp r.1 r'.1 ∧ r.2 = r'.2 := by
  intro r r'
  simp only [r, r', dispatch, Client.dispatch, h.client.subscriptions]
  cases hget : d.client.subscriptions[sub]? with
  | none => exact ⟨h, rfl⟩
  | some subscription =>
    simp only [decodePayload_eq]
    cases hdecode : Client.decodePayload codecs subscription msg.payload with
    | error error =>
      cases error with
      | unicodeDecodeError => exact ⟨h, rfl⟩
      | other e =>
        have hcodec (codec : String) (hcodec : subscription.encoding = some codec) :
            known codec = true := h.client.codec_known (List.mem_of_getElem? hget) hcodec
        simp only [Except.map, lookupError_eq_false hknown hcodec hdecode, Bool.false_eq_true,
          if_false]
        exact ⟨h, trivial⟩
    | ok payload =>
      let message : Client.Message :=
        { topic := topicSub.topic, payload := payload, wasEncrypted := msg.wasEncrypted
          wireEncoding := msg.encoding, senderTimestamp := msg.timestamp }
      simp only [Except.map, h.calls]
      generalize hreaction : Callbacks.library callbacks timestamp d'.calls sub _ = reaction
      have hsame : callbacks (d'.calls.map (callOf timestamp)) sub
          (receiveMessage timestamp message) = reaction := hreaction
      simp only [message, receiveMessage] at hsame
      rw [hsame]
      have hnext (tasks : List Nat) : Beside cfg known timestamp
          { client := perform cfg (textEncoders others) d.client reaction.actions
            calls := d'.calls.map (callOf timestamp) ++
              [⟨sub, receiveMessage timestamp message, reaction⟩]
            tasks := tasks }
          { client := d'.client.perform cfg reaction.actions
            calls := d'.calls ++ [⟨sub, message, reaction⟩], tasks := tasks } := by
        refine ⟨perform_alike h.client _, ?_, rfl⟩
        rw [List.map_append, List.map_singleton]
        rfl
      cases hending : reaction.ending with
      | returned => exact ⟨h.tasks ▸ hnext d.tasks, rfl⟩
      | coroutine => exact ⟨h.tasks ▸ hnext (d.tasks ++ [sub]), rfl⟩
      | raised e =>
        rw [← hsame] at hending
        exact absurd hending (hquiet _ _ _ e)

/-- The turns of one `_TopicSub`. -/
theorem dispatchTopic_beside (others : Encoders) (hknown : NoLookupError codecs lookupError known)
    (hquiet : ∀ calls sub message e, (callbacks calls sub message).ending ≠ .raised e)
    (msg : Reference.DecodedMessage) (ref : Nat) {d : Dispatch ε} {d' : Client.Dispatch ε}
    (h : Beside cfg known timestamp d d') :
    let r := dispatchTopic cfg codecs lookupError (textEncoders others) callbacks timestamp msg ref d
    let r' := Client.dispatchTopic cfg codecs (callbacks.library timestamp) msg ref d'
    Beside cfg known timestamp r.1 r'.1 ∧ r.2 = r'.2 := by
  intro r r'
  simp only [r, r', dispatchTopic, Client.dispatchTopic, h.client.topicSubs]
  cases d.client.topicSubs[ref]? with
  | none => exact ⟨h, rfl⟩
  | some topicSub =>
    exact forEach_sim (fun sub d d' hd => dispatch_beside hknown hquiet topicSub msg sub hd)
      topicSub.callbacks h

/-- A datagram at both clients. -/
theorem handleDatagram_beside (others : Encoders) (hknown : NoLookupError codecs lookupError known)
    (hquiet : ∀ calls sub message e, (callbacks calls sub message).ending ≠ .raised e)
    (now : Int) (timestamp : Rat) (data : Bytes) {r r' : Receiver} (hclient : Alike cfg known r.client r'.client)
    (hreplay : r'.replay = r.replay) :
    let h := handleDatagram cfg codecs lookupError (textEncoders others) callbacks now timestamp data r
    let h' := Client.handleDatagram cfg codecs (callbacks.library timestamp) now data r'
    Alike cfg known h.receiver.client h'.receiver.client ∧
      h'.receiver.replay = h.receiver.replay ∧ h.calls = h'.calls.map (callOf timestamp) ∧
        h.tasks = h'.tasks ∧ h.raised = h'.raised := by
  intro h h'
  simp only [h, h', handleDatagram, Client.handleDatagram]
  cases Reference.decode data cfg.key with
  | error error => cases error <;> exact ⟨hclient, hreplay, rfl, rfl, rfl⟩
  | ok msg =>
    simp only [hreplay, hclient.crcIndex]
    split
    · exact ⟨hclient, rfl, rfl, rfl, rfl⟩
    split
    · exact ⟨hclient, rfl, rfl, rfl, rfl⟩
    split
    · exact ⟨hclient, rfl, rfl, rfl, rfl⟩
    · have hstart : Beside cfg known timestamp ({ client := r.client } : Dispatch ε)
          { client := r'.client } := ⟨hclient, rfl, rfl⟩
      have hloops := forEach_sim
        (fun ref d d' hd => dispatchTopic_beside others hknown hquiet msg ref hd)
        ((r.client.crcIndex.get? msg.topicCrc).getD []) hstart
      generalize forEach _ _ ({ client := r.client } : Dispatch ε) = result at hloops ⊢
      generalize forEach _ _ ({ client := r'.client } : Client.Dispatch ε) = result' at hloops ⊢
      obtain ⟨d, ending⟩ := result
      obtain ⟨d', ending'⟩ := result'
      obtain ⟨hbeside, hsame⟩ := hloops
      have hending : ending = ending' := hsame
      subst hending
      refine ⟨hbeside.client, rfl, hbeside.calls, hbeside.tasks, ?_⟩
      cases ending <;> rfl

/-! ## Runs -/

/-- The states of the two clients. -/
def BothAlike (cfg : Settings) (known : String → Bool) (r r' : Receiver) : Prop :=
  Alike cfg known r.client r'.client ∧ r'.replay = r.replay

theorem step_alike (hknown : NoLookupError codecs lookupError known) {r r' : Receiver}
    {input : Input ε} (h : BothAlike cfg known r r')
    (hshared : input.Shared (textEncoders others) known) :
    let s := (machine cfg codecs lookupError (textEncoders others)).step r input
    let s' := (libraryMachine (textEncoders others) cfg codecs).step r' input
    BothAlike cfg known s.1 s'.1 ∧ s.2 = s'.2 := by
  intro s s'
  obtain ⟨hclient, hreplay⟩ := h
  cases input with
  | call e =>
    have hcall : Alike cfg known (call cfg (textEncoders others) r.client e).1
          (r'.client.step cfg (e.library (textEncoders others))).1 ∧
        (call cfg (textEncoders others) r.client e).2 =
          (r'.client.step cfg (e.library (textEncoders others))).2 := by
      cases e with
      | start ifindex => exact ⟨hclient.start ifindex, rfl⟩
      | stop => exact ⟨hclient.stop, rfl⟩
      | subscribe topic encoding ok => exact hclient.subscribe topic hshared ok
      | unsubscribe sub => exact ⟨hclient.unsubscribe sub, rfl⟩
      | publish call encoding =>
        obtain ⟨payload, hpayload⟩ := Option.ne_none_iff_exists'.mp hshared
        simp only [HomeAssistant.call, publish, hpayload, Event.library, Option.getD_some]
        exact hclient.publish call rfl
      | advance time => exact ⟨hclient.advance time, rfl⟩
      | fire handle ok => exact ⟨hclient.fire handle ok, rfl⟩
    exact ⟨⟨hcall.1, hreplay⟩, congrArg Answer.outcome hcall.2⟩
  | datagram callbacks now timestamp data =>
    obtain ⟨halike, hsame, hcalls, htasks, hraised⟩ :=
      handleDatagram_beside others hknown hshared now timestamp data hclient hreplay
    refine ⟨⟨halike, hsame⟩, ?_⟩
    show Answer.handled _ _ _ = Answer.handled _ _ _
    rw [hcalls, htasks, hraised]

theorem exec_alike (cfg : Settings) (others : Encoders)
    (hknown : NoLookupError codecs lookupError known) (time : Rat) (replay : Replay.Python.ReplayGuard) {inputs : List (Input ε)}
    (hshared : ∀ input ∈ inputs, input.Shared (textEncoders others) known) :
    let start : Receiver := ⟨MpubsubClient.new time, replay⟩
    let m := machine cfg codecs lookupError (textEncoders others)
    m.trace start inputs = (libraryMachine (textEncoders others) cfg codecs).trace start inputs ∧
      BothAlike cfg known (m.exec start inputs)
        ((Receiver.machine cfg codecs).exec start
          (inputs.map (Input.library (textEncoders others)))) := by
  intro start m
  have hstart : BothAlike cfg known start start := by
    refine ⟨.mk .empty ?_ ?_ (List.forall_mem_nil _), rfl⟩
    · exact fun topic group hget => by cases hget
    · exact fun topic group hget => by cases hget
  have hboth := Machine.trace_eq_of_sim_along
    (fun _ _ _ h hshared => step_alike hknown h hshared) hstart
    (m.along_of_forall start hshared)
  rw [exec_libraryMachine] at hboth
  exact hboth

end

/-! ## The theorem -/

/-- Over every run in which nobody subscribes with a codec that Python does not have, every payload
can be encoded and no job raises, the integration's client answers as the library's does, and apart
from the caches of groups their states are the same. -/
theorem clients_agree {ε : Type} (cfg : Settings) (codecs : Codecs ε) (lookupError : ε → Bool)
    (known : String → Bool) (others : Encoders) (hknown : NoLookupError codecs lookupError known)
    (time : Rat) (replay : Replay.Python.ReplayGuard) (inputs : List (Input ε))
    (hshared : ∀ input ∈ inputs, input.Shared (textEncoders others) known) :
    let start : Receiver := ⟨MpubsubClient.new time, replay⟩
    let m := machine cfg codecs lookupError (textEncoders others)
    let r := m.exec start inputs
    let r' := (Receiver.machine cfg codecs).exec start
      (inputs.map (Input.library (textEncoders others)))
    m.trace start inputs = (libraryMachine (textEncoders others) cfg codecs).trace start inputs ∧
      r'.replay = r.replay ∧ r'.client = { r.client with groups := r'.client.groups } := by
  intro start m r r'
  obtain ⟨htrace, halike, hreplay⟩ := exec_alike cfg others hknown time replay hshared
  exact ⟨htrace, hreplay, halike.eq_recached⟩

/-- A job that cancels its own subscription. -/
def once : Callbacks String := fun _ sub _ => { actions := [.unsubscribe sub] }

/-- The plaintext packet of an empty text for `t`. -/
def emptyText : Bytes :=
  Reference.buildHeader (Reference.topicCrc32 "t") Reference.ENCODING_RAW 0 Reference.ENC_MODE_NONE

/-- A subscriber to `t` that wants one message, and a publish to `t` while it waits. -/
def oneMessage : List (Input String) :=
  [.call (.start 0), .call (.subscribe "t" (some "utf-8") true),
    .call (.publish { topic := "t", payload := .str "on" } none), .datagram once 0 0 emptyText]

/-- `clients_agree` on this run, where `utf-8` is the only codec. -/
theorem clients_agree_oneMessage :
    let codecs : Codecs String := Client.textCodecs fun _ _ => .error (.other "LookupError")
    let encoders := textEncoders fun _ _ => none
    let start : Receiver := ⟨MpubsubClient.new 0, .init 0 4096⟩
    (machine {} codecs (· = "LookupError") encoders).trace start oneMessage =
      (libraryMachine encoders {} codecs).trace start oneMessage := by
  intro codecs encoders start
  refine (clients_agree {} codecs (· = "LookupError") (· = "utf-8") (fun _ _ => none) ?_ 0
    (.init 0 4096) oneMessage ?_).1
  · intro codec payload e hcodec hraises
    have hutf8 : codec = "utf-8" := of_decide_eq_true hcodec
    simp only [codecs, Client.textCodecs, hutf8, if_true] at hraises
    split at hraises <;> cases hraises
  · intro input hinput
    simp only [oneMessage, List.mem_cons, List.not_mem_nil, or_false] at hinput
    rcases hinput with rfl | rfl | rfl | rfl
    · trivial
    · intro codec hcodec
      cases hcodec
      rfl
    · exact Option.some_ne_none _
    · intro calls sub message e hraised
      cases hraised

end Mpubsub.Theorems
