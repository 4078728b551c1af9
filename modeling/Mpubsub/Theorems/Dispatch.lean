import Mpubsub.Client.Dispatch

/-!
# Dispatch under unsubscription (`aio.py`)

While a datagram is dispatched, callbacks cancel subscriptions, those of other topics with the
same CRC too. Each subscription has one turn, in the order of the lists as the datagram found
them, and is called in it unless its payload cannot be decoded or a callback before it has
cancelled it. An exception of a codec other than `UnicodeDecodeError` ends the dispatch, and the
subscriptions behind it have no turn (`dispatched_iff`).
-/

namespace Mpubsub.Theorems

open Mpubsub.Lib Mpubsub.Client MpubsubClient

/-! ## The property -/

section

variable {ε : Type} (codecs : Codecs ε) (c : MpubsubClient) (msg : Reference.DecodedMessage)

def callbacksOf (ref : Nat) : List Nat := ((c.topicSubs[ref]?).map TopicSub.callbacks).getD []

/-- The subscriptions for the CRC of a message, in the order of their turns. -/
def registered : List Nat := ((c.crcIndex.get? msg.topicCrc).getD []).flatMap (callbacksOf c)

/-- What the codec of a subscription makes of the payload. -/
def decodedFor (sub : Nat) : Option (Except (CodecError ε) Payload) :=
  (c.subscriptions[sub]?).map fun subscription => decodePayload codecs subscription msg.payload

def Decodes (sub : Nat) : Prop := ∃ payload, decodedFor codecs c msg sub = some (.ok payload)

/-- The codec raises something else than `UnicodeDecodeError`. -/
def Raises (sub : Nat) (e : ε) : Prop := decodedFor codecs c msg sub = some (.error (.other e))

/-- A callback has cancelled the subscription before its turn. -/
def UnsubscribedBefore (turns : List Nat) (calls : List (Call ε)) (sub : Nat) : Prop :=
  ∃ call ∈ calls, [call.sub, sub].Sublist turns ∧ sub ∈ call.reaction.unsubscribes

/-- What a dispatch does, whatever the callbacks do. -/
structure Dispatched (h : Handled ε) : Prop where
  atMostOnce : ∀ sub, (h.calls.map Call.sub).count sub ≤ 1
  exactlyOnce : ∀ sub ∈ registered c msg, Decodes codecs c msg sub →
    ¬UnsubscribedBefore (registered c msg) h.calls sub → (h.calls.map Call.sub).count sub = 1
  crc : ∀ call ∈ h.calls, call.sub ∈ registered c msg ∧ ∃ subscription,
    c.subscriptions[call.sub]? = some subscription ∧
      Reference.topicCrc32 subscription.topic = msg.topicCrc
  raised : ∀ r, h.raised = some r → ∃ sub ∈ registered c msg, ∃ e,
    r = .exception e ∧ Raises codecs c msg sub e

/-- No codec raises something else than `UnicodeDecodeError` before another one decodes. -/
def Orderly : Prop :=
  (registered c msg).Pairwise fun sub sub' =>
    (∃ e, Raises codecs c msg sub e) → ¬Decodes codecs c msg sub'

end

/-! ## The turns -/

section

variable {ε : Type} {cfg : Settings} {codecs : Codecs ε} {callbacks : Callbacks ε}
  {c : MpubsubClient} {msg : Reference.DecodedMessage}

/-- What a turn has come to: a call, a payload that cannot be decoded, or nothing since the
subscription was cancelled before. -/
def Turned (codecs : Codecs ε) (c : MpubsubClient) (msg : Reference.DecodedMessage)
    (turns : List Nat) (calls : List (Call ε)) (sub : Nat) : Prop :=
  (Decodes codecs c msg sub ∧ sub ∈ calls.map Call.sub) ∨
    decodedFor codecs c msg sub = some (.error .unicodeDecodeError) ∨
    UnsubscribedBefore turns calls sub

/-- What holds when the subscriptions in `done` have had their turns. -/
structure Upto (cfg : Settings) (codecs : Codecs ε) (callbacks : Callbacks ε) (c : MpubsubClient)
    (msg : Reference.DecodedMessage) (turns done : List Nat) (d : Dispatch ε) : Prop where
  indexed : d.client.Indexed cfg
  reactions : ∀ call ∈ d.calls, ∃ calls message, call.reaction = callbacks calls call.sub message
  pruned : Pruned (d.calls.flatMap fun call => call.reaction.unsubscribes) c d.client
  sublist : (d.calls.map Call.sub).Sublist done
  turned : ∀ sub ∈ done, Turned codecs c msg turns d.calls sub

/-- The codec of one subscription has ended the dispatch. -/
def Stopped (cfg : Settings) (codecs : Codecs ε) (callbacks : Callbacks ε) (c : MpubsubClient)
    (msg : Reference.DecodedMessage) (turns : List Nat) (e : ε) (d : Dispatch ε) : Prop :=
  ∃ done sub rest, turns = done ++ sub :: rest ∧ Raises codecs c msg sub e ∧
    Upto cfg codecs callbacks c msg turns done d

theorem UnsubscribedBefore.mono {turns : List Nat} {calls calls' : List (Call ε)} {sub : Nat}
    (h : UnsubscribedBefore turns calls sub) (hcalls : calls <+: calls') :
    UnsubscribedBefore turns calls' sub := by
  obtain ⟨call, hcall, h⟩ := h
  exact ⟨call, hcalls.subset hcall, h⟩

theorem Turned.mono {turns : List Nat} {calls calls' : List (Call ε)} {sub : Nat}
    (h : Turned codecs c msg turns calls sub) (hcalls : calls <+: calls') :
    Turned codecs c msg turns calls' sub := by
  rcases h with ⟨hdecodes, hcalled⟩ | hundecodable | hbefore
  · exact .inl ⟨hdecodes, List.map_subset Call.sub hcalls.subset hcalled⟩
  · exact .inr (.inl hundecodable)
  · exact .inr (.inr (hbefore.mono hcalls))

/-- A turn without a call. -/
theorem Upto.skip {turns done : List Nat} {d : Dispatch ε} (h : Upto cfg codecs callbacks c msg turns done d)
    {sub : Nat} (hsub : Turned codecs c msg turns d.calls sub) :
    Upto cfg codecs callbacks c msg turns (done ++ [sub]) d where
  indexed := h.indexed
  reactions := h.reactions
  pruned := h.pruned
  sublist := h.sublist.trans (List.sublist_append_left done [sub])
  turned := List.forall_mem_append.mpr ⟨h.turned, List.forall_mem_singleton.mpr hsub⟩

/-- A turn with a call. -/
theorem Upto.call {turns done : List Nat} {d : Dispatch ε} (h : Upto cfg codecs callbacks c msg turns done d)
    {sub : Nat} (hdecodes : Decodes codecs c msg sub) (message : Message) (tasks : List Nat) :
    Upto cfg codecs callbacks c msg turns (done ++ [sub])
      { client := d.client.perform cfg (callbacks d.calls sub message).actions
        calls := d.calls ++ [⟨sub, message, callbacks d.calls sub message⟩]
        tasks := tasks } := by
  obtain ⟨hindexed, hpruned⟩ := h.indexed.perform (callbacks d.calls sub message).actions
  constructor
  · exact hindexed
  · refine List.forall_mem_append.mpr ⟨h.reactions, List.forall_mem_singleton.mpr ?_⟩
    exact ⟨d.calls, message, rfl⟩
  · rw [List.flatMap_append, List.flatMap_singleton]
    exact h.pruned.trans hpruned
  · rw [List.map_append]
    exact h.sublist.append (List.Sublist.refl [sub])
  · refine List.forall_mem_append.mpr ⟨?_, List.forall_mem_singleton.mpr (.inl ⟨hdecodes, ?_⟩)⟩
    · exact fun sub hsub => (h.turned sub hsub).mono (List.prefix_append _ _)
    · exact List.mem_map_of_mem (List.mem_append_right _ (List.mem_singleton_self _))

/-- One turn. -/
theorem dispatch_ends {turns done rest : List Nat} {sub : Nat} {d : Dispatch ε}
    (h : Upto cfg codecs callbacks c msg turns done d) (hturns : turns = done ++ sub :: rest)
    (hsub : sub < c.subscriptions.length) (topicSub : TopicSub) :
    Ends (fun d' => Upto cfg codecs callbacks c msg turns (done ++ [sub]) d' ∧ d.calls <+: d'.calls)
      (Stopped cfg codecs callbacks c msg turns) (dispatch cfg codecs callbacks topicSub msg sub d) := by
  have hget := List.getElem?_eq_getElem hsub
  unfold dispatch
  rw [h.pruned.subscriptions, hget]
  simp only
  cases hdecode : decodePayload codecs c.subscriptions[sub] msg.payload with
  | error error =>
    have hdecoded : decodedFor codecs c msg sub = some (.error error) := by
      rw [decodedFor, hget, Option.map_some, hdecode]
    cases error with
    | unicodeDecodeError => exact ⟨h.skip (.inr (.inl hdecoded)), List.prefix_refl _⟩
    | other e => exact ⟨done, sub, rest, hturns, hdecoded, h⟩
  | ok payload =>
    have hdecodes : Decodes codecs c msg sub :=
      ⟨payload, by rw [decodedFor, hget, Option.map_some, hdecode]⟩
    simp only
    split
    · exact ⟨h.call hdecodes _ _, List.prefix_append _ _⟩
    · exact ⟨h.call hdecodes _ _, List.prefix_append _ _⟩
    · exact ⟨h.call hdecodes _ _, List.prefix_append _ _⟩

/-- The turns of one `_TopicSub`. What is missing from the copy of its callbacks was cancelled by
calls before. -/
theorem dispatchTopic_ends {turns done rest : List Nat} {ref : Nat} {topicSub : TopicSub}
    {d : Dispatch ε} (h : Upto cfg codecs callbacks c msg turns done d)
    (hturns : turns = done ++ (topicSub.callbacks ++ rest))
    (href : c.topicSubs[ref]? = some topicSub)
    (hsubs : ∀ sub ∈ topicSub.callbacks, sub < c.subscriptions.length) :
    Ends (Upto cfg codecs callbacks c msg turns (done ++ topicSub.callbacks))
      (Stopped cfg codecs callbacks c msg turns) (dispatchTopic cfg codecs callbacks msg ref d) := by
  obtain ⟨p, hp, hgone⟩ := h.pruned.callbacks ref topicSub href
  have hmissing : ∀ sub ∈ topicSub.callbacks, p sub = false →
      UnsubscribedBefore turns d.calls sub := by
    intro sub hsub hfalse
    obtain ⟨call, hcall, hunsubscribes⟩ := List.mem_flatMap.mp (hgone sub hfalse)
    refine ⟨call, hcall, ?_, hunsubscribes⟩
    rw [hturns]
    have hcalled : [call.sub].Sublist done :=
      List.singleton_sublist.mpr (h.sublist.subset (List.mem_map_of_mem hcall))
    exact hcalled.append (List.singleton_sublist.mpr (List.mem_append_left _ hsub))
  unfold dispatchTopic
  rw [hp]
  simp only [forEach_filter]
  refine (forEach_ends (I := fun mine d' => Upto cfg codecs callbacks c msg turns (done ++ mine) d' ∧
    d.calls <+: d'.calls) ?_ ⟨(List.append_nil done).symm ▸ h, List.prefix_refl _⟩).mono
      fun d' hd' => hd'.1
  rintro mine sub others d' hmine ⟨hupto, hcalls⟩
  have hsub : sub ∈ topicSub.callbacks := by
    rw [← hmine]
    exact List.mem_append_right _ List.mem_cons_self
  rw [← List.append_assoc]
  cases hp : p sub with
  | false =>
    rw [if_neg Bool.false_ne_true]
    exact ⟨hupto.skip (.inr (.inr ((hmissing sub hsub hp).mono hcalls))), hcalls⟩
  | true =>
    rw [if_pos rfl]
    have hsplit : turns = (done ++ mine) ++ sub :: (others ++ rest) := by
      rw [hturns, ← hmine]
      simp only [List.append_assoc, List.cons_append]
    exact (dispatch_ends hupto hsplit (hsubs sub hsub) _).mono
      fun d'' hd'' => ⟨hd''.1, hcalls.trans hd''.2⟩

/-! ## A datagram -/

theorem callbacksOf_eq {ref : Nat} {topicSub : TopicSub}
    (href : c.topicSubs[ref]? = some topicSub) : callbacksOf c ref = topicSub.callbacks := by
  rw [callbacksOf, href]
  rfl

/-- The loops of `_handle_datagram`. -/
theorem loops_end (codecs : Codecs ε) (callbacks : Callbacks ε) (msg : Reference.DecodedMessage)
    (h : c.Indexed cfg) :
    Ends (Upto cfg codecs callbacks c msg (registered c msg) (registered c msg))
      (Stopped cfg codecs callbacks c msg (registered c msg))
      (forEach (dispatchTopic cfg codecs callbacks msg)
        ((c.crcIndex.get? msg.topicCrc).getD []) { client := c }) := by
  refine forEach_ends (I := fun refs d => Upto cfg codecs callbacks c msg (registered c msg)
    (refs.flatMap (callbacksOf c)) d) ?_ ?_
  · intro done ref rest d hrefs hupto
    have href : ref ∈ (c.crcIndex.get? msg.topicCrc).getD [] := by
      rw [← hrefs]
      exact List.mem_append_right _ List.mem_cons_self
    obtain ⟨topicSub, hget, -⟩ := h.index _ ref href
    rw [List.flatMap_append, List.flatMap_singleton, callbacksOf_eq hget]
    have hturns : registered c msg = done.flatMap (callbacksOf c) ++
        (topicSub.callbacks ++ rest.flatMap (callbacksOf c)) := by
      rw [registered, ← hrefs, List.flatMap_append, List.flatMap_cons, callbacksOf_eq hget]
    exact dispatchTopic_ends hupto hturns hget
      fun sub hsub => h.lt_length (List.mem_of_getElem? hget) hsub
  · exact ⟨h, List.forall_mem_nil _, .of_eq rfl rfl, List.Sublist.refl _, List.forall_mem_nil _⟩

theorem registered_nodup (msg : Reference.DecodedMessage) (h : c.Indexed cfg) :
    (registered c msg).Nodup := by
  refine List.nodup_flatMap.mpr ⟨?_, ?_⟩
  · intro ref href
    obtain ⟨topicSub, hget, -⟩ := h.index _ ref href
    rw [callbacksOf_eq hget]
    exact h.callbacks topicSub (List.mem_of_getElem? hget)
  · refine (h.nodup msg.topicCrc).imp_of_mem ?_
    intro ref ref' href href' hne sub hsub hsub'
    obtain ⟨topicSub, hget, -⟩ := h.index _ ref href
    obtain ⟨topicSub', hget', -⟩ := h.index _ ref' href'
    rw [callbacksOf_eq hget] at hsub
    rw [callbacksOf_eq hget'] at hsub'
    exact hne (h.disjoint ref ref' topicSub topicSub' hget hget' sub hsub hsub')

/-- The subscriptions that have turns are to topics with the CRC. -/
theorem registered_crc (h : c.Indexed cfg) {sub : Nat} (hsub : sub ∈ registered c msg) :
    ∃ subscription, c.subscriptions[sub]? = some subscription ∧
      Reference.topicCrc32 subscription.topic = msg.topicCrc := by
  obtain ⟨ref, href, hsub⟩ := List.mem_flatMap.mp hsub
  obtain ⟨topicSub, hget, hcrc⟩ := h.index _ ref href
  rw [callbacksOf_eq hget] at hsub
  have hmem := List.mem_of_getElem? hget
  obtain ⟨subscription, hsubscription, htopic⟩ := h.captured topicSub hmem sub hsub
  refine ⟨subscription, hsubscription, ?_⟩
  rw [htopic, ← h.crcs topicSub hmem, hcrc]

/-- A RAW datagram that decodes and passes the replay guard. -/
structure Admitted (cfg : Settings) (r : Receiver) (now : Int) (data : Bytes)
    (msg : Reference.DecodedMessage) : Prop where
  decode : Reference.decode data cfg.key = .ok msg
  fresh : (replayAccepts r.replay now msg).2 = true
  raw : msg.encoding = Reference.ENCODING_RAW

/-- How the handling of an accepted datagram ends. -/
theorem handleDatagram_cases (codecs : Codecs ε) (callbacks : Callbacks ε) {r : Receiver}
    {now : Int} {data : Bytes} (h : r.client.Indexed cfg) (haccepted : Admitted cfg r now data msg) :
    ∃ d, (handleDatagram cfg codecs callbacks now data r).calls = d.calls ∧
      (Upto cfg codecs callbacks r.client msg (registered r.client msg)
            (registered r.client msg) d ∧
          (handleDatagram cfg codecs callbacks now data r).raised = none ∨
        ∃ e, Stopped cfg codecs callbacks r.client msg (registered r.client msg) e d ∧
          (handleDatagram cfg codecs callbacks now data r).raised = some (.exception e)) := by
  have hend := loops_end codecs callbacks msg h
  unfold handleDatagram
  rw [haccepted.decode]
  simp only [haccepted.fresh, haccepted.raw, Bool.not_true, Bool.false_eq_true, if_false, ne_eq,
    not_true_eq_false]
  split
  · rename_i hnil
    rw [hnil] at hend
    exact ⟨{ client := r.client }, rfl, .inl ⟨hend, rfl⟩⟩
  · generalize forEach (dispatchTopic cfg codecs callbacks msg) _ _ = result at hend ⊢
    obtain ⟨d, e | ⟨⟩⟩ := result
    · exact ⟨d, rfl, .inr ⟨e, hend, rfl⟩⟩
    · exact ⟨d, rfl, .inl ⟨hend, rfl⟩⟩

/-- What `_handle_datagram` does to the client, and why it may raise. -/
structure Handles (cfg : Settings) (codecs : Codecs ε) (r : Receiver) (data : Bytes)
    (handled : Handled ε) : Prop where
  indexed : handled.receiver.client.Indexed cfg
  subscriptions : handled.receiver.client.subscriptions = r.client.subscriptions
  raised : handled.raised = none ∨
    (∃ error, Reference.decode data cfg.key = .error error ∧ (∀ w, error ≠ .wireError w) ∧
      handled.raised = some (.decode error)) ∨
    ∃ msg sub e, Raises codecs r.client msg sub e ∧ handled.raised = some (.exception e)

theorem handleDatagram_kept (codecs : Codecs ε) (callbacks : Callbacks ε) {r : Receiver}
    (h : r.client.Indexed cfg) (now : Int) (data : Bytes) :
    Handles cfg codecs r data (handleDatagram cfg codecs callbacks now data r) := by
  unfold handleDatagram
  split
  · exact ⟨h, rfl, .inl rfl⟩
  · rename_i error hwire hdecode
    exact ⟨h, rfl, .inr (.inl ⟨error, hdecode, fun w heq => hwire w heq, rfl⟩)⟩
  · rename_i msg _
    have hend := loops_end codecs callbacks msg h
    simp only
    split
    · exact ⟨h, rfl, .inl rfl⟩
    split
    · exact ⟨h, rfl, .inl rfl⟩
    split
    · exact ⟨h, rfl, .inl rfl⟩
    · generalize forEach (dispatchTopic cfg codecs callbacks msg) _ _ = result at hend ⊢
      obtain ⟨d, e | ⟨⟩⟩ := result
      · obtain ⟨done, sub, rest, -, hraises, hupto⟩ := hend
        exact ⟨hupto.indexed, hupto.pruned.subscriptions, .inr (.inr ⟨msg, sub, e, hraises, rfl⟩)⟩
      · exact ⟨hend.indexed, hend.pruned.subscriptions, .inl rfl⟩

theorem exec_indexed (time : Rat) (replay : Replay.Python.ReplayGuard) (inputs : List (Input ε)) :
    ((Receiver.machine cfg codecs).exec ⟨new time, replay⟩ inputs).client.Indexed cfg := by
  refine (Receiver.machine cfg codecs).exec_invariant (I := fun r => r.client.Indexed cfg) ?_
    (indexed_new time) inputs
  intro r input h
  cases input with
  | call e => exact h.step e
  | datagram callbacks now data => exact (handleDatagram_kept _ _ h now data).indexed

/-! ## The condition -/

/-- What holds of the calls when the turns up to `done` have been taken. -/
theorem Upto.count_le {done rest : List Nat} {d : Dispatch ε} (h : c.Indexed cfg)
    (hsplit : registered c msg = done ++ rest)
    (hupto : Upto cfg codecs callbacks c msg (registered c msg) done d) (sub : Nat) :
    (d.calls.map Call.sub).count sub ≤ 1 := by
  have hsublist : (d.calls.map Call.sub).Sublist (registered c msg) := by
    rw [hsplit]
    exact hupto.sublist.trans (List.sublist_append_left done rest)
  exact List.nodup_iff_count_le_one.mp (hsublist.nodup (registered_nodup msg h)) sub

/-- A turn that was taken, of a subscription whose codec decodes the payload. -/
theorem Turned.called {calls : List (Call ε)} {sub : Nat}
    (h : Turned codecs c msg (registered c msg) calls sub) (hdecodes : Decodes codecs c msg sub)
    (hbefore : ¬UnsubscribedBefore (registered c msg) calls sub) : sub ∈ calls.map Call.sub := by
  obtain ⟨payload, hpayload⟩ := hdecodes
  rcases h with ⟨-, hcalled⟩ | hundecodable | hunsubscribed
  · exact hcalled
  · cases hpayload.symm.trans hundecodable
  · exact absurd hunsubscribed hbefore

/-- The property when the turns up to `done` have been taken, and no codec of the rest decodes. -/
theorem dispatched_of_upto {done rest : List Nat} {d : Dispatch ε} {handled : Handled ε}
    (h : c.Indexed cfg) (hsplit : registered c msg = done ++ rest)
    (hupto : Upto cfg codecs callbacks c msg (registered c msg) done d)
    (hcalls : handled.calls = d.calls) (hrest : ∀ sub ∈ rest, ¬Decodes codecs c msg sub)
    (hraised : ∀ r, handled.raised = some r → ∃ sub ∈ registered c msg, ∃ e,
      r = .exception e ∧ Raises codecs c msg sub e) :
    Dispatched codecs c msg handled where
  atMostOnce := by
    rw [hcalls]
    exact hupto.count_le h hsplit
  exactlyOnce := by
    intro sub hsub hdecodes hbefore
    rw [hcalls] at hbefore ⊢
    rw [hsplit] at hsub
    rcases List.mem_append.mp hsub with hdone | hin
    · have hcalled := (hupto.turned sub hdone).called hdecodes hbefore
      exact Nat.le_antisymm (hupto.count_le h hsplit sub) (List.count_pos_iff.mpr hcalled)
    · exact absurd hdecodes (hrest sub hin)
  crc := by
    intro call hcall
    rw [hcalls] at hcall
    have hin : call.sub ∈ registered c msg := by
      rw [hsplit]
      exact List.mem_append_left _ (hupto.sublist.subset (List.mem_map_of_mem hcall))
    exact ⟨hin, registered_crc h hin⟩
  raised := hraised

/-- In an orderly state the property holds for every behaviour of the callbacks. -/
theorem dispatched_of_orderly {r : Receiver} {now : Int} {data : Bytes} (h : r.client.Indexed cfg)
    (haccepted : Admitted cfg r now data msg) (horderly : Orderly codecs r.client msg) :
    Dispatched codecs r.client msg (handleDatagram cfg codecs callbacks now data r) := by
  obtain ⟨d, hcalls, ⟨hupto, hraised⟩ | ⟨e, ⟨done, sub, rest, hsplit, hraises, hupto⟩, hraised⟩⟩ :=
    handleDatagram_cases codecs callbacks h haccepted
  · refine dispatched_of_upto h (List.append_nil _).symm hupto hcalls (List.forall_mem_nil _) ?_
    intro raised heq
    rw [hraised] at heq
    cases heq
  · refine dispatched_of_upto h hsplit hupto hcalls ?_ ?_
    · intro sub' hsub' hdecodes
      rcases List.mem_cons.mp hsub' with rfl | hlater
      · obtain ⟨payload, hpayload⟩ := hdecodes
        cases hpayload.symm.trans hraises
      · rw [Orderly, hsplit] at horderly
        have htail := (List.pairwise_append.mp horderly).2.1
        exact List.rel_of_pairwise_cons htail hlater ⟨e, hraises⟩ hdecodes
    · intro raised heq
      rw [hraised] at heq
      cases heq
      refine ⟨sub, ?_, e, rfl, hraises⟩
      rw [hsplit]
      exact List.mem_append_right _ List.mem_cons_self

/-- Callbacks that only return. -/
def quiet : Callbacks ε := fun _ _ _ => {}

theorem not_unsubscribedBefore {turns done : List Nat} {d : Dispatch ε}
    (h : Upto cfg codecs quiet c msg turns done d) (sub : Nat) :
    ¬UnsubscribedBefore turns d.calls sub := by
  rintro ⟨call, hcall, -, hunsubscribes⟩
  obtain ⟨calls, message, hreaction⟩ := h.reactions call hcall
  rw [hreaction] at hunsubscribes
  cases hunsubscribes

/-- Quiet callbacks break the property in a state that is not orderly. -/
theorem orderly_of_dispatched {r : Receiver} {now : Int} {data : Bytes} (h : r.client.Indexed cfg)
    (haccepted : Admitted cfg r now data msg)
    (hdispatched : Dispatched codecs r.client msg (handleDatagram cfg codecs quiet now data r)) :
    Orderly codecs r.client msg := by
  refine List.pairwise_iff_forall_sublist.mpr ?_
  rintro sub sub' hpair ⟨e, hraises⟩ hdecodes
  -- The turn of `sub` cannot have been taken.
  have hnot {done : List Nat} {d : Dispatch ε}
      (hupto : Upto cfg codecs quiet r.client msg (registered r.client msg) done d) :
      sub ∉ done := by
    intro hsub
    rcases hupto.turned sub hsub with ⟨⟨payload, hpayload⟩, -⟩ | hundecodable | hbefore
    · cases hpayload.symm.trans hraises
    · cases hraises.symm.trans hundecodable
    · exact not_unsubscribedBefore hupto sub hbefore
  obtain ⟨d, hcalls, ⟨hupto, -⟩ | ⟨-, ⟨done, stop, rest, hsplit, -, hupto⟩, -⟩⟩ :=
    handleDatagram_cases codecs quiet h haccepted
  · exact hnot hupto (hpair.subset List.mem_cons_self)
  · have hcalled : sub' ∈ done := by
      have hcount := hdispatched.exactlyOnce sub'
        (hpair.subset (List.mem_cons_of_mem _ (List.mem_singleton_self _))) hdecodes
        (hcalls ▸ not_unsubscribedBefore hupto sub')
      rw [hcalls] at hcount
      exact hupto.sublist.subset (List.count_pos_iff.mp (hcount ▸ Nat.one_pos))
    have hnodup := registered_nodup msg h
    rw [hsplit] at hpair hnodup
    obtain ⟨before, after, heq, hbefore, hafter⟩ := List.sublist_append_iff.mp hpair
    cases before with
    | nil =>
      have hlater : sub' ∈ after := by
        rw [← List.nil_append after, ← heq]
        exact List.mem_cons_of_mem _ (List.mem_singleton_self _)
      exact List.disjoint_of_nodup_append hnodup hcalled (hafter.subset hlater)
    | cons first others =>
      obtain ⟨rfl, -⟩ := List.cons.inj heq
      exact hnot hupto (hbefore.subset List.mem_cons_self)

end

/-! ## The theorem -/

/-- Over every run: the property holds, whatever the callbacks do, if and only if no codec of a
subscription raises something else than `UnicodeDecodeError` before the codec of another one
decodes the payload. -/
theorem dispatched_iff {ε : Type} (cfg : Settings) (codecs : Codecs ε) (time : Rat)
    (replay : Replay.Python.ReplayGuard) (inputs : List (Input ε)) (now : Int) (data : Bytes)
    (msg : Reference.DecodedMessage) :
    let r := (Receiver.machine cfg codecs).exec ⟨new time, replay⟩ inputs
    Admitted cfg r now data msg →
      ((∀ callbacks, Dispatched codecs r.client msg
          (handleDatagram cfg codecs callbacks now data r)) ↔ Orderly codecs r.client msg) := by
  intro r haccepted
  have h : r.client.Indexed cfg := exec_indexed time replay inputs
  constructor
  · exact fun hall => orderly_of_dispatched h haccepted (hall quiet)
  · exact fun horderly callbacks => dispatched_of_orderly h haccepted horderly

/-- Two subscriptions to one topic: the first with a codec, the second to the bytes. -/
def subscribed (encoding : String) : List (Input String) :=
  [.call (.start 0), .call (.subscribe "t" (some encoding) true true),
    .call (.subscribe "t" none true true)]

/-- Codecs as they are for `xn--a`: the one for domain names raises a plain `UnicodeError`. -/
def domainCodecs : Codecs String := fun encoding _ =>
  if encoding = "idna" then .error (.other "UnicodeError") else .ok "xn--a"

def domain : Reference.DecodedMessage :=
  { topicCrc := Reference.topicCrc32 "t", encoding := 0, payload := [120, 110, 45, 45, 97] }

def domainData : Bytes := Reference.buildHeader (Reference.topicCrc32 "t") 0 5 0 ++ domain.payload

def receiver (encoding : String) : Receiver :=
  (Receiver.machine {} domainCodecs).exec ⟨new 0, .init 0 4096⟩ (subscribed encoding)

theorem accepted_domain (encoding : String) : Admitted {} (receiver encoding) 0 domainData domain where
  decode := by decide +kernel
  fresh := rfl
  raw := rfl

/-- The codec of the first subscription ends the dispatch, and the second is not called. -/
theorem skipped_behind_codec :
    Admitted {} (receiver "idna") 0 domainData domain ∧
      ¬∀ callbacks, Dispatched domainCodecs (receiver "idna").client domain
        (handleDatagram {} domainCodecs callbacks 0 domainData (receiver "idna")) := by
  refine ⟨accepted_domain "idna", fun hall => ?_⟩
  have hregistered : 1 ∈ registered (receiver "idna").client domain := by decide +kernel
  have hdecodes : Decodes domainCodecs (receiver "idna").client domain 1 :=
    ⟨.bytes domain.payload, by decide +kernel⟩
  have hcalls : (handleDatagram {} domainCodecs quiet 0 domainData (receiver "idna")).calls = [] := by
    decide +kernel
  have hbefore : ¬UnsubscribedBefore (registered (receiver "idna").client domain)
      (handleDatagram {} domainCodecs quiet 0 domainData (receiver "idna")).calls 1 := by
    rw [hcalls]
    rintro ⟨call, hcall, -⟩
    cases hcall
  have hone := (hall quiet).exactlyOnce 1 hregistered hdecodes hbefore
  rw [hcalls] at hone
  cases hone

/-- `dispatched_iff` where every codec decodes. -/
theorem dispatched_iff_utf8 :
    Admitted {} (receiver "utf-8") 0 domainData domain ∧
      ∀ callbacks, Dispatched domainCodecs (receiver "utf-8").client domain
        (handleDatagram {} domainCodecs callbacks 0 domainData (receiver "utf-8")) := by
  refine ⟨accepted_domain "utf-8", ?_⟩
  refine (dispatched_iff {} domainCodecs 0 (.init 0 4096) (subscribed "utf-8") 0 domainData domain
    (accepted_domain "utf-8")).mpr ?_
  show Orderly domainCodecs (receiver "utf-8").client domain
  have hregistered : registered (receiver "utf-8").client domain = [0, 1] := by decide +kernel
  have hfirst : decodedFor domainCodecs (receiver "utf-8").client domain 0 =
      some (.ok (.str "xn--a")) := by decide +kernel
  rw [Orderly, hregistered]
  refine .cons ?_ (List.pairwise_singleton _ _)
  rintro sub - ⟨e, hraises⟩
  cases hfirst.symm.trans hraises

end Mpubsub.Theorems
