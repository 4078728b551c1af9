import Mpubsub.Replay.GoMemory
import Mpubsub.Theorems.BridgeRelay

/-!
# Feedback between bridges

Each entry is one-directional, and what is published by one may be a message to another. A
network whose entries do not feed one another in a circle comes to rest, whatever the broker
and the link do with the finitely many messages in it, or does so between two indefinite resends
(`settles_of_acyclic`). Around a circle of RAW entries, a message goes for ever: neither encryption
nor replay protection stops it, since each round is sealed anew (`echoes_of_cycle`).
-/

namespace Mpubsub.Theorems

open Mpubsub.Lib Mpubsub.Wire Mpubsub.Node Mpubsub.Bridge
open Mpubsub.Replay.Go (ReplayGuard)
open Relation (TransGen)

variable {ι : Type}

/-! ## Entries that feed one another -/

/-- The entries that publish to the broker. -/
def IsExit (net : Network ι) (b : LoadedEntry) : Prop :=
  ∃ j, b ∈ (net.peers j).bridges ∧ b.direction = Direction.name .DirMPubsubToMQTT

/-- A datagram on the topic gets to a bridge with the entry `c`, which forwards topics with its
CRC. -/
def ReachesExit (net : Network ι) (topic : Bytes) (c : LoadedEntry) : Prop :=
  ∃ j, c ∈ (net.peers j).bridges ∧ c.direction = Direction.name .DirMPubsubToMQTT ∧
    net.Hears j (topicToGroup topic net.scope) ∧ topicCrc32 c.mpubsubTopic = topicCrc32 topic

/-- The message that `b` publishes for its topic may be on the way to the handler of `f`, which
relays it to a bridge with the entry `c`. -/
def RelaysTo (net : Network ι) (i : ι) (f b c : LoadedEntry) : Prop :=
  f ∈ (net.peers i).bridges ∧ f.direction = Direction.name .DirMQTTToMPubsub ∧
    net.Matches f.mqttTopic b.mqttTopic ∧ ReachesExit net (f.topicOf b.mqttTopic) c

def Feeds (net : Network ι) (b c : LoadedEntry) : Prop := ∃ i f, RelaysTo net i f b c

theorem Feeds.isExit {net : Network ι} {b c : LoadedEntry} (h : Feeds net b c) : IsExit net c := by
  obtain ⟨-, -, -, -, -, j, hc, hdirection, -⟩ := h
  exact ⟨j, hc, hdirection⟩

/-- What a message or a datagram may become. -/
inductive Leads (net : Network ι) : Transit ι → Transit ι → Prop where
  | handled {i : ι} {entry : LoadedEntry} {msg : MqttMessage} {now : UInt32} {nonce : Bytes}
      {out : Resend.Outgoing} {t : Transit ι} (h : net.handle i entry msg now nonce = some out)
      (ht : net.Copied out t) : Leads net (.message i entry msg) t
  | received {i : ι} {raw : Bytes} {replay : ReplayGuard} {now : UInt32} {p : Publish Bytes}
      {t : Transit ι} (hp : p ∈ (net.receive i replay now raw).2) (ht : net.Subscribed p t) :
      Leads net (.datagram i raw) t

/-- A turn of a bridge is a step of the cascade. -/
theorem cascade_of_turn [DecidableEq ι] {net : Network ι} {now : UInt32} {s s' : Network.State ι}
    (h : net.Turn now s s') : Cascade.Step (Leads net) s.transit s'.transit := by
  cases h with
  | handled nonce ok htransit hcopies =>
    rw [htransit]
    refine .handle _ _ fun t ht => ?_
    obtain ⟨-, out, hout, hcopied⟩ := hcopies t ht
    exact .handled hout hcopied
  | received htransit hmade =>
    rw [htransit]
    refine .handle _ _ fun t ht => ?_
    obtain ⟨p, hp, hsub⟩ := hmade t ht
    exact .received hp hsub

/-- A publish is made for an entry of the topic in the packet. -/
theorem exists_exit_of_mem_receive {net : Network ι} {j : ι} {replay : ReplayGuard}
    {now : UInt32} {raw : Bytes} {p : Publish Bytes} (hp : p ∈ (net.receive j replay now raw).2) :
    ∃ b ∈ (net.peers j).bridges, b.direction = Direction.name .DirMPubsubToMQTT ∧
      p.mqttTopic = b.mqttTopic ∧ ∃ pkt,
        decodePacket net.aeadOpen [] (.owned (raw.take MAX_DATAGRAM))
          (net.peers j).mpubsub.encryptionKey = .ok pkt ∧
        topicCrc32 b.mpubsubTopic = pkt.topicCRC := by
  unfold Network.receive Bridge.receive at hp
  cases hpkt : decodePacket net.aeadOpen [] (.owned (raw.take MAX_DATAGRAM))
      (net.peers j).receiver.encryptionKey with
  | error e =>
    rw [hpkt] at hp
    cases hp
  | ok pkt =>
    rw [hpkt] at hp
    simp only at hp
    split at hp
    · cases hp
    rw [forward_eq] at hp
    obtain ⟨b, hb, hdue⟩ := List.mem_filterMap.mp hp
    unfold duePublish at hdue
    split at hdue
    · rename_i hmatch
      obtain ⟨payload, -, rfl⟩ := Option.map_eq_some_iff.mp hdue
      exact ⟨b, hb, hmatch.1, rfl, pkt, hpkt, hmatch.2.1⟩
    · cases hdue

/-- There is one key at most. -/
def OneKey (net : Network ι) : Prop :=
  ∀ i j, ∀ k ∈ (net.peers i).mpubsub.encryptionKey,
    ∀ k' ∈ (net.peers j).mpubsub.encryptionKey, k = k'

section Rest

variable {net : Network ι} (hseal : SealsRfc8439 net.aeadSeal) (hopen : OpensRfc8439 net.aeadOpen)
  (hok : ∀ i, (net.peers i).Ok) (hkeys : OneKey net)
include hseal hopen hok hkeys

/-- What a bridge publishes of a relayed message that it hears is for entries that the message
reaches. -/
theorem exists_exit_of_relayed {i j : ι} {entry : LoadedEntry} {msg : MqttMessage}
    {now : UInt32} {nonce : Bytes} {out : Resend.Outgoing}
    (h : net.handle i entry msg now nonce = some out) (hhears : net.Hears j out.group)
    {replay : ReplayGuard} {clock : UInt32} {p : Publish Bytes}
    (hp : p ∈ (net.receive j replay clock out.pkt).2) :
    ∃ b, ReachesExit net (entry.topicOf msg.topic) b ∧ p.mqttTopic = b.mqttTopic := by
  obtain ⟨hgroup, body, encoding, -, hencode⟩ := exists_encodePacket_of_handle h
  have hkey := (hok i).key
  have hkey' := (hok j).key
  have hcut : out.pkt.take MAX_DATAGRAM = out.pkt :=
    List.take_of_length_le (length_encodePacket_le hseal hkey hencode)
  obtain ⟨b, hb, hdirection, htopic, pkt, hpkt, hcrc⟩ := exists_exit_of_mem_receive hp
  rw [hcut] at hpkt
  rw [hgroup] at hhears
  refine ⟨b, ⟨j, hb, hdirection, hhears, ?_⟩, htopic⟩
  have hsame : (net.peers i).mpubsub.encryptionKey = none ∨
      (net.peers j).mpubsub.encryptionKey = (net.peers i).mpubsub.encryptionKey := by
    cases hi : (net.peers i).mpubsub.encryptionKey with
    | none => exact .inl rfl
    | some k =>
      cases hj : (net.peers j).mpubsub.encryptionKey with
      | none =>
        have hsealed : (net.peers i).mpubsub.encryptionKey ≠ none := by simp [hi]
        exact absurd hpkt (decodePacket_keyless hseal hopen hkey hkey' hencode hsealed hj pkt)
      | some k' => exact .inr (congrArg some (hkeys i j k hi k' hj).symm)
  obtain ⟨pkt', hpkt', hreads⟩ := exists_reads hseal hopen hkey hkey' hencode hsame
  rw [hpkt] at hpkt'
  cases hpkt'
  rw [hcrc, hreads.topicCRC]

/-- The messages to the subscriptions of an exit's topic come to rest if all that it feeds do. -/
theorem acc_message {b : LoadedEntry} (hb : Acc (flip (Feeds net)) b) {t : Transit ι}
    (ht : ∃ p : Publish Bytes, p.mqttTopic = b.mqttTopic ∧ net.Subscribed p t) :
    Acc (flip (Leads net)) t := by
  induction hb generalizing t with
  | intro b _ ih =>
    obtain ⟨p, htopic, i, entry, hentry, hdirection, hmatch, qos, -, rfl⟩ := ht
    refine Acc.intro _ fun t ht => ?_
    cases ht with
    | handled hhandle hcopied =>
      obtain ⟨j, hhears, rfl⟩ := hcopied
      refine Acc.intro _ fun t ht => ?_
      cases ht with
      | received hp hsub =>
        obtain ⟨c, hreaches, hc⟩ := exists_exit_of_relayed hseal hopen hok hkeys hhandle hhears hp
        rw [htopic] at hreaches hmatch
        exact ih c ⟨i, entry, hentry, hdirection, hmatch, hreaches⟩ ⟨_, hc, hsub⟩

theorem wellFounded_leads (hfeeds : ∀ b, IsExit net b → Acc (flip (Feeds net)) b) :
    WellFounded (flip (Leads net)) := by
  have hdatagram : ∀ i raw, Acc (flip (Leads net)) (.datagram i raw) := by
    intro i raw
    refine Acc.intro _ fun t ht => ?_
    cases ht with
    | received hp hsub =>
      obtain ⟨b, hmem, hdirection, hb, -⟩ := exists_exit_of_mem_receive hp
      exact acc_message hseal hopen hok hkeys (hfeeds b ⟨i, hmem, hdirection⟩) ⟨_, hb, hsub⟩
  refine ⟨fun t => ?_⟩
  cases t with
  | datagram i raw => exact hdatagram i raw
  | message i entry msg =>
    refine Acc.intro _ fun t ht => ?_
    cases ht with
    | handled h hcopied =>
      obtain ⟨j, -, rfl⟩ := hcopied
      exact hdatagram _ _

omit hseal hopen hok hkeys in
/-- Finitely many exits that do not feed one another in a circle. -/
theorem acc_of_acyclic [Finite ι] (hacyclic : ∀ b, ¬TransGen (Feeds net) b b) (b : LoadedEntry)
    (hb : IsExit net b) : Acc (flip (Feeds net)) b := by
  have hfinite : Set.Finite {b | IsExit net b} := by
    refine (Set.finite_iUnion fun j => List.finite_toSet (net.peers j).bridges).subset ?_
    rintro b ⟨j, hb, -⟩
    exact Set.mem_iUnion.mpr ⟨j, hb⟩
  have : Finite {b // IsExit net b} := hfinite.to_subtype
  have hwf : WellFounded (flip fun b c : {b // IsExit net b} => Feeds net b.val c.val) := by
    refine Cascade.wellFounded_of_acyclic fun b hcycle => hacyclic b.val ?_
    exact TransGen.lift (p := Feeds net) Subtype.val (fun _ _ h => h) _ _ hcycle
  suffices hall : ∀ b : {b // IsExit net b}, Acc (flip (Feeds net)) b.val from hall ⟨b, hb⟩
  intro b
  induction b using hwf.induction with
  | _ b ih => exact Acc.intro _ fun c hc => ih ⟨c, hc.isExit⟩ hc

omit hseal hopen hok hkeys in
/-- A bridge whose messages are all sent finitely often starts no goroutine of the other kind. -/
theorem keepResending_of_finite {i : ι} {entry : LoadedEntry} {msg : MqttMessage} {now : UInt32}
    {nonce : Bytes} {ok : Bool}
    (hfinite : ∀ qos, Resend.effectiveRetransmitCount (net.peers i).sender qos ≠ -1) :
    Network.keepResending [] (net.handle i entry msg now nonce) ok = [] := by
  cases hout : net.handle i entry msg now nonce with
  | none => rfl
  | some out =>
    obtain ⟨body, -, hencoded⟩ := Option.bind_eq_some_iff.mp hout
    obtain ⟨pkt, -, rfl⟩ := Option.map_eq_some_iff.mp hencoded
    simp only [Network.keepResending, Network.cancelIndefinite, List.map_nil, List.nil_append]
    exact if_neg fun h => hfinite _ h.2

omit hseal hopen hok hkeys in
/-- Without such goroutines, and with finite counts, a step is a turn and starts none. -/
theorem turn_of_finite [DecidableEq ι]
    (hfinite : ∀ i qos, Resend.effectiveRetransmitCount (net.peers i).sender qos ≠ -1)
    {s s' : Network.State ι} (hs : ∀ i, s.resending i = []) (h : net.Step s s') :
    (∃ now, net.Turn now s s') ∧ ∀ i, s'.resending i = [] := by
  cases h with
  | resent hjob hcopies =>
    rw [hs] at hjob
    cases hjob
  | returned hjob hcancelled =>
    rw [hs] at hjob
    exact absurd hjob.symm (List.append_ne_nil_of_right_ne_nil _ (List.cons_ne_nil _ _))
  | turn h =>
    refine ⟨⟨_, h⟩, ?_⟩
    cases h with
    | received => exact hs
    | @handled i entry msg before after copies nonce ok htransit hcopies =>
      intro k
      by_cases hk : k = i
      · subst hk
        simp only [Function.update_self, hs]
        exact keepResending_of_finite (hfinite k)
      · simp only [Function.update_of_ne hk]
        exact hs k

/-- **Rest.** Bridges whose entries do not feed one another in a circle. Whatever is on its way,
and in which order it is taken, lost or repeated, there is no infinite run of turns: between two
indefinite resends the network comes to rest. If no message is resent indefinitely, there is no
infinite run. -/
theorem settles_of_acyclic [Finite ι] [DecidableEq ι]
    (hacyclic : ∀ b, ¬TransGen (Feeds net) b b) :
    (WellFounded fun s' s => ∃ now, net.Turn now s s') ∧
      ((∀ i qos, Resend.effectiveRetransmitCount (net.peers i).sender qos ≠ -1) →
        ∀ s : Network.State ι, (∀ i, s.resending i = []) → Acc (fun s' s => net.Step s s') s) := by
  have hturns : WellFounded fun s' s => ∃ now, net.Turn now s s' :=
    Subrelation.wf (fun ⟨_, hturn⟩ => cascade_of_turn hturn)
      (InvImage.wf Network.State.transit (Cascade.settles
        (wellFounded_leads hseal hopen hok hkeys (acc_of_acyclic hacyclic))))
  refine ⟨hturns, fun hfinite s => ?_⟩
  induction s using hturns.induction with
  | _ s ih =>
    intro hs
    refine Acc.intro _ fun s' hstep => ?_
    obtain ⟨hturn, hs'⟩ := turn_of_finite hfinite hs hstep
    exact ih s' hturn hs'

end Rest

/-! ## Around a circle -/

/-- `b` feeds `c` past a handler without a schema, and `c` has none. -/
def FeedsRaw (net : Network ι) (b c : LoadedEntry) : Prop :=
  c.schemaPtr = none ∧ ∃ i f, f.schemaPtr = none ∧ RelaysTo net i f b c

/-- What `b` has published with this payload is on its way to a handler without a schema that relays
it to `c`. -/
def OnItsWay (net : Network ι) (payload : Bytes) (b c : LoadedEntry) (s : Network.State ι) :
    Prop :=
  ∃ i f qos, f.schemaPtr = none ∧ RelaysTo net i f b c ∧
    .message i f ⟨b.mqttTopic, payload, qos⟩ ∈ s.transit

/-- The receive loop keeps the guard's memory bounded. -/
theorem bounded_receive {net : Network ι} {j : ι} {replay : ReplayGuard} (h : replay.Bounded)
    (now : UInt32) (raw : Bytes) : (net.receive j replay now raw).1.Bounded := by
  unfold Network.receive Bridge.receive
  cases decodePacket net.aeadOpen [] (.owned (raw.take MAX_DATAGRAM))
      (net.peers j).receiver.encryptionKey with
  | error e => exact h
  | ok pkt =>
    have hcheck : (replayCheck replay now pkt).1.Bounded := by
      unfold replayCheck
      split
      · exact h.accept now pkt.timestamp pkt.nonce true
      · exact h
    simp only
    split
    · exact hcheck
    · exact hcheck

section Circle

variable [DecidableEq ι] {net : Network ι} (hseal : SealsRfc8439 net.aeadSeal)
  (hopen : OpensRfc8439 net.aeadOpen) (hok : ∀ i, (net.peers i).Ok) {key : Option Bytes}
  (hkey : ∀ i, (net.peers i).mpubsub.encryptionKey = key)
include hseal hopen hok hkey

omit [DecidableEq ι] in
/-- A message to a handler without a schema is published again by the entry that it is relayed to,
whatever the guard has taken before. -/
theorem exists_publish_of_relays {i : ι} {f b c : LoadedEntry} (hf : f.schemaPtr = none)
    (hc : c.schemaPtr = none) (hrelays : RelaysTo net i f b c) {payload : Bytes}
    (hfits : payload.length ≤ (keyed key).effectiveMax) (qos : UInt8) {replay : ι → ReplayGuard}
    (hguards : ∀ j, (replay j).Bounded) {now : UInt32} (hnow : now ≠ 0) :
    ∃ (nonce : Bytes) (out : Resend.Outgoing) (j : ι) (p : Publish Bytes),
      net.handle i f ⟨b.mqttTopic, payload, qos⟩ now nonce = some out ∧ net.Hears j out.group ∧
      p ∈ (net.receive j (replay j) now out.pkt).2 ∧ p.mqttTopic = c.mqttTopic ∧
      p.payload = payload := by
  obtain ⟨-, -, -, j, hmem, hdirection, hhears, hcrc⟩ := hrelays
  -- A nonce that the guard of `j` does not remember.
  obtain ⟨n, hn⟩ := (hguards j).exists_fresh
  let nonce : Vector UInt8 12 :=
    ⟨(storeU32le n ++ List.replicate 8 0).toArray, by simp [length_storeU32le]⟩
  have hnonce : loadU32leAt nonce.toList 0 = n := loadU32leAt_storeU32le_append n _
  have hfits' : (⟨b.mqttTopic, payload, qos⟩ : MqttMessage).payload.length ≤
      (keyed (net.peers i).mpubsub.encryptionKey).effectiveMax := by
    rw [hkey]
    exact hfits
  obtain ⟨out, hout⟩ := exists_handle hseal hok hf hfits' now nonce
  have hsame : (net.peers i).mpubsub.encryptionKey = (net.peers j).mpubsub.encryptionKey :=
    (hkey i).trans (hkey j).symm
  have hkeys : ∀ k ∈ (net.peers i).mpubsub.encryptionKey,
      ∀ k' ∈ (net.peers j).mpubsub.encryptionKey, k = k' :=
    fun k hk k' hk' => Option.some.inj (hk.symm.trans (hsame.trans hk'))
  have haccept : ((replay j).accept now true now (loadU32leAt nonce.toList 0)).2 = true := by
    rw [hnonce]
    exact ReplayGuard.accept_fresh hnow hn
  obtain ⟨hgroup, hrelay⟩ := relay_law hseal hopen hok hkeys hout fun _ _ => haccept
  rw [if_neg fun h => h.1 (hsame.trans h.2)] at hrelay
  rw [← hgroup] at hhears
  refine ⟨nonce.toList, out, j,
    ⟨c.mqttTopic, (net.peers j).mqtt.qos, (net.peers j).mqtt.retain, payload⟩, hout, hhears, ?_,
    rfl, rfl⟩
  rw [hrelay]
  refine List.mem_filterMap.mpr ⟨c, hmem, ?_⟩
  have hrequired : c.requireEncryption = true → (net.peers i).mpubsub.encryptionKey ≠ none := by
    rw [hsame]
    exact fun h => (((hok j).entries c hmem).required h).2
  rw [relayed, if_pos ⟨hdirection, hcrc, hrequired⟩, relayedPayload, hf, hc]
  rfl

/-- One round: the message goes through the link to the next entry, and through the broker to
the next handler. -/
theorem round_of_onItsWay {b c d : LoadedEntry} (hc : c.schemaPtr = none)
    (hnext : FeedsRaw net c d) {payload : Bytes} (hfits : payload.length ≤ (keyed key).effectiveMax)
    {now : UInt32} (hnow : now ≠ 0) {s : Network.State ι} (hguards : ∀ i, (s.replay i).Bounded)
    (hs : OnItsWay net payload b c s) :
    ∃ mid s', net.Turn now s mid ∧ net.Turn now mid s' ∧ (∀ i, (s'.replay i).Bounded) ∧
      OnItsWay net payload c d s' := by
  obtain ⟨i, f, qos, hf, hrelays, hmem⟩ := hs
  obtain ⟨-, i', f', hf', hrelays'⟩ := hnext
  obtain ⟨before, after, htransit⟩ := List.append_of_mem hmem
  obtain ⟨nonce, out, j, p, hout, hhears, hp, htopic, hpayload⟩ :=
    exists_publish_of_relays hseal hopen hok hkey hf hc hrelays hfits qos hguards hnow
  let mid : Network.State ι :=
    { s with
      resending := Function.update s.resending i (Network.keepResending (s.resending i)
        (net.handle i f ⟨b.mqttTopic, payload, qos⟩ now nonce) true)
      transit := before ++ [.datagram j out.pkt] ++ after }
  have hfirst : net.Turn now s mid :=
    .handled nonce true htransit
      (List.forall_mem_singleton.mpr ⟨rfl, out, hout, j, hhears, rfl⟩)
  -- The broker keeps the QoS, as far as the subscription allows it.
  let qos' := min p.qos (subQoS (net.peers i').mpubsub.promoteQoS (net.peers i').mqtt.qos)
  have hsubscribed : net.Subscribed p (.message i' f' ⟨c.mqttTopic, payload, qos'⟩) := by
    refine ⟨i', f', hrelays'.1, hrelays'.2.1, ?_, qos', UInt8.le_refl _, ?_⟩
    · rw [htopic]
      exact hrelays'.2.2.1
    · rw [htopic, hpayload]
  have hsecond : net.Turn now mid
      { mid with
        replay := Function.update s.replay j (net.receive j (s.replay j) now out.pkt).1
        transit := before ++ [.message i' f' ⟨c.mqttTopic, payload, qos'⟩] ++ after } :=
    .received (by simp [mid]) (List.forall_mem_singleton.mpr ⟨p, hp, hsubscribed⟩)
  refine ⟨_, _, hfirst, hsecond, ?_, i', f', qos', hf', hrelays', by simp⟩
  intro k
  by_cases hk : k = j
  · subst hk
    simp only [Function.update_self]
    exact bounded_receive (hguards k) now out.pkt
  · simp only [Function.update_of_ne hk]
    exact hguards k

/-- **Echo.** RAW entries of bridges with one key, or without one, that feed one another in a
circle. One message on the MQTT topic of an entry of the circle, to a handler that relays it to the
next one, goes round the circle for ever with its payload, whatever replay protection the bridges
have, and at whatever times it does. -/
theorem echoes_of_cycle {k : Nat} {circle : Fin (k + 1) → LoadedEntry}
    (hcircle : ∀ n, FeedsRaw net (circle n) (circle (n + 1))) {i : ι} {f : LoadedEntry}
    (hf : f.schemaPtr = none) (hrelays : RelaysTo net i f (circle 0) (circle 1)) {payload : Bytes}
    (hfits : payload.length ≤ (keyed key).effectiveMax) (qos : UInt8) {clock : Nat → UInt32}
    (hclock : ∀ n, clock n ≠ 0) :
    ∃ run : Nat → Network.State ι,
      run 0 = net.start [.message i f ⟨(circle 0).mqttTopic, payload, qos⟩] ∧
      (∀ n, net.Turn (clock (n / 2)) (run n) (run (n + 1))) ∧
      ∀ n, OnItsWay net payload (circle (Fin.ofNat (k + 1) n)) (circle (Fin.ofNat (k + 1) (n + 1)))
        (run (2 * n)) := by
  have hsucc (n : Nat) : Fin.ofNat (k + 1) (n + 1) = Fin.ofNat (k + 1) n + 1 := by
    ext
    simp [Fin.val_add]
  let P : Nat → Network.State ι → Prop := fun n s => (∀ i, (s.replay i).Bounded) ∧
    OnItsWay net payload (circle (Fin.ofNat (k + 1) n)) (circle (Fin.ofNat (k + 1) (n + 1))) s
  have hround : ∀ n s, P n s → ∃ mid s', net.Turn (clock n) s mid ∧ net.Turn (clock n) mid s' ∧
      P (n + 1) s' := by
    rintro n s ⟨hguards, hway⟩
    have hnext : FeedsRaw net (circle (Fin.ofNat (k + 1) (n + 1)))
        (circle (Fin.ofNat (k + 1) (n + 1 + 1))) := by
      rw [hsucc (n + 1)]
      exact hcircle _
    have hraw : (circle (Fin.ofNat (k + 1) (n + 1))).schemaPtr = none := by
      rw [hsucc]
      exact (hcircle _).1
    exact round_of_onItsWay hseal hopen hok hkey hraw hnext hfits (hclock n) hguards hway
  have hstart : P 0 (net.start [.message i f ⟨(circle 0).mqttTopic, payload, qos⟩]) := by
    refine ⟨fun _ => ReplayGuard.bounded_new _, i, f, qos, hf, ?_, List.mem_singleton_self _⟩
    rw [hsucc]
    simpa using hrelays
  obtain ⟨run, hzero, hturns, hrounds⟩ :=
    Cascade.exists_run (fun n => net.Turn (clock n)) P hstart hround
  exact ⟨run, hzero, hturns, fun n => (hrounds n).2⟩

end Circle

/-! ## Two examples -/

/-- `settles_of_acyclic` for a tunnel. -/
theorem settles_of_acyclic_tunnel :
    (WellFounded fun s' s => ∃ now, tunnelNetwork.Turn now s s') ∧
      Acc (fun s' s => tunnelNetwork.Step s s')
        (tunnelNetwork.start [.message false (entryFrom [97]) ⟨[97], [7], 0⟩]) := by
  have hkeys : OneKey tunnelNetwork := by
    intro i j k hk k' hk'
    cases i <;> cases j <;> cases hk <;> cases hk' <;> rfl
  have hacyclic : ∀ b, ¬TransGen (Feeds tunnelNetwork) b b := by
    intro b hcycle
    obtain ⟨_, hfirst, -⟩ := TransGen.head'_iff.mp hcycle
    obtain ⟨_, -, hlast⟩ := TransGen.tail'_iff.mp hcycle
    obtain ⟨j, hb, hto⟩ := hlast.isExit
    obtain ⟨i, f, hf, hfrom, hmatch, _⟩ := hfirst
    cases j with
    | false =>
      rw [List.mem_singleton.mp hb] at hto
      exact absurd hto (by decide)
    | true =>
      cases i with
      | false =>
        rw [List.mem_singleton.mp hb, List.mem_singleton.mp hf] at hmatch
        exact absurd (show ([97] : Bytes) = [98] from hmatch) (by decide)
      | true =>
        rw [List.mem_singleton.mp hf] at hfrom
        exact absurd hfrom (by decide)
  obtain ⟨hturns, hsteps⟩ := settles_of_acyclic sealsRfc8439_rfcSeal opensRfc8439_rfcOpen
    tunnelNetwork_ok hkeys hacyclic
  refine ⟨hturns, hsteps ?_ _ fun _ => rfl⟩
  intro i qos
  cases i <;> exact (by decide : (1 : Int) ≠ -1)

/-- A bridge that mirrors "a" both ways. -/
def mirrorNetwork : Network Unit :=
  plainNetwork fun _ => sealedConfig [entryFrom [97], entryTo [97]]

/-- The seconds after the epoch, on a clock that starts again after 65536 of them. -/
def secondAfter (n : Nat) : UInt32 := UInt32.ofNat (n % 65536 + 1)

/-- `echoes_of_cycle` for the mirror and the payload 7, with a round a second. -/
theorem echoes_of_cycle_mirror :
    ∃ run : Nat → Network.State Unit,
      run 0 = mirrorNetwork.start [.message () (entryFrom [97]) ⟨[97], [7], 0⟩] ∧
      (∀ n, mirrorNetwork.Turn (secondAfter (n / 2)) (run n) (run (n + 1))) ∧
      ∀ n, OnItsWay mirrorNetwork [7] (entryTo [97]) (entryTo [97]) (run (2 * n)) := by
  have hrelays : RelaysTo mirrorNetwork () (entryFrom [97]) (entryTo [97]) (entryTo [97]) := by
    have hto : entryTo [97] ∈ (mirrorNetwork.peers ()).bridges :=
      List.mem_cons_of_mem _ List.mem_cons_self
    exact ⟨List.mem_cons_self, rfl, rfl, (), hto, rfl, .inl ⟨_, hto, rfl, rfl⟩, rfl⟩
  have hok : ∀ i, (mirrorNetwork.peers i).Ok := by
    intro i
    exact sealedConfig_ok (List.forall_mem_cons.mpr ⟨entryFrom_ok (List.cons_ne_nil _ _) _,
      List.forall_mem_singleton.mpr (entryTo_ok (List.cons_ne_nil _ _) _)⟩)
  let circle : Fin 1 → LoadedEntry := fun _ => entryTo [97]
  have hcircle : ∀ n, FeedsRaw mirrorNetwork (circle n) (circle (n + 1)) :=
    fun _ => ⟨rfl, (), entryFrom [97], rfl, hrelays⟩
  have hclock : ∀ n, secondAfter n ≠ 0 := by
    intro n h
    have hval : (n % 65536 + 1) % 2 ^ 32 = 0 := congrArg UInt32.toNat h
    omega
  exact echoes_of_cycle sealsRfc8439_rfcSeal opensRfc8439_rfcOpen hok (fun _ => rfl) hcircle rfl
    hrelays (by decide) 0 hclock

end Mpubsub.Theorems
