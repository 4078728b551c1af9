import Mpubsub.Node.Fabric

/-!
# What a fabric delivers

A fabric with one key, on a link that loses, repeats, delays and reorders, and on which
anybody may put packets of his own. What he cannot do is to seal: none of his packets opens
under the key (`Unforged`). Then a call of a callback goes back to a publication that was
made before, with exactly its payload, or to a plaintext packet of the outsider; and behind
`require_encryption` it goes back to a publication of a node with the key
(`deliveries_authentic`).
-/

namespace Mpubsub.Theorems

open Mpubsub.Lib Mpubsub.Wire Mpubsub.Node Mpubsub.Node.MulticastPubSub

variable {κ κ' ι : Type}

/-- The packet is not sealed under the key. -/
def Unforged (key : Key) (raw : Bytes) : Prop :=
  ∀ pkt, decode raw = .ok pkt → pkt.encMode = .AEAD →
    openBody key (raw.take HEADER_LEN) pkt.payload = none

/-- The fabric behind the events. -/
abbrev fabricAfter [DecidableEq ι] (start : ι → MulticastPubSub κ)
    (events : List (Medium.Event ι (Call κ) (Option UInt32))) :
    Medium.State ι (MulticastPubSub κ) Sent :=
  fabric.whole.exec ⟨start, []⟩ events

/-- A sealed datagram does not get through to a node without a key. -/
theorem invocations_of_keyless {p : MulticastPubSub κ'} {r : MulticastPubSub κ}
    (hp : p.encryptionEnabled = true) (hr : r.encryptionEnabled = false) {payload : Bytes}
    (hsize : payload.length ≤ p.effectiveMax) (env : PublishEnv) (topic : Bytes)
    (encoding : Encoding) (clock : Option UInt32) :
    (r.onPacket (p.datagram env topic payload encoding) clock).2 = [] := by
  have hmode : p.encMode = .AEAD := by rw [encMode, hp]; rfl
  rcases r.onPacket_cases (p.datagram env topic payload encoding) clock with h |
    ⟨pkt, hpkt, hnone, -⟩ | ⟨_, _, -, -, hon, -⟩
  · exact h
  · rw [decode_datagram hsize] at hpkt
    cases hpkt
    rw [hmode] at hnone
    cases hnone
  · rw [hr] at hon
    cases hon

/-- A publication's datagram calls nothing, or what the dispatch of its payload calls, at any node
of the fabric. -/
theorem invocations_of_published {key : Key} {p : MulticastPubSub κ'} {r : MulticastPubSub κ}
    (hp : p.encryptionEnabled = true → p.encryptionKeyBytes = key)
    (hr : r.encryptionEnabled = true → r.encryptionKeyBytes = key) {payload : Bytes}
    (hsize : payload.length ≤ p.effectiveMax) (env : PublishEnv) (topic : Bytes)
    (encoding : Encoding) (clock : Option UInt32) :
    (r.onPacket (p.datagram env topic payload encoding) clock).2 = [] ∨
      (r.onPacket (p.datagram env topic payload encoding) clock).2 =
        (deliver (topicCrc32 topic) encoding payload p.encryptionEnabled r.subscriptions).1 := by
  by_cases hkeyless : p.encryptionEnabled = true ∧ r.encryptionEnabled = false
  · exact .inl (invocations_of_keyless hkeyless.1 hkeyless.2 hsize env topic encoding clock)
  · refine onPacket_datagram_cases hsize env topic encoding clock ?_
    intro hon
    have hr' : r.encryptionEnabled = true := by
      rw [← Bool.not_eq_false]
      exact fun hoff => hkeyless ⟨hon, hoff⟩
    rw [hp hon, hr hr']

/-- A packet that is not sealed under the node's key calls only by plaintext. -/
theorem plaintext_of_unforged {key : Key} {r : MulticastPubSub κ}
    (hr : r.encryptionEnabled = true → r.encryptionKeyBytes = key) {raw : Bytes}
    (hraw : Unforged key raw) {clock : Option UInt32} {inv : Invocation κ}
    (hinv : inv ∈ (r.onPacket raw clock).2) :
    ∃ pkt, decode raw = .ok pkt ∧ pkt.encMode = .NONE ∧
      inv ∈ (deliver pkt.topicCrc pkt.encoding pkt.payload false r.subscriptions).1 := by
  rcases r.onPacket_cases raw clock with h | ⟨pkt, hpkt, hmode, h⟩ |
    ⟨pkt, plain, hpkt, hmode, hon, hopen, -⟩
  · rw [h] at hinv
    cases hinv
  · exact ⟨pkt, hpkt, hmode, h ▸ hinv⟩
  · rw [hr hon, hraw pkt hpkt hmode] at hopen
    cases hopen

/-- A dispatched call belongs to a subscription that takes the packet. -/
theorem exists_dispatch_of_mem_deliver {crc : UInt32} {encoding : Encoding} {payload : Bytes}
    {wasEncrypted : Bool} {subs : List (Subscription κ)} {inv : Invocation κ}
    (h : inv ∈ (deliver crc encoding payload wasEncrypted subs).1) :
    ∃ sub ∈ subs, sub.topic = inv.topic ∧ sub.Takes crc wasEncrypted ∧
      inv ∈ sub.dispatch encoding payload := by
  rw [deliver_invocations] at h
  obtain ⟨sub, hsub, hinv⟩ := List.mem_flatMap.mp h
  obtain ⟨hmem, htakes⟩ := List.mem_filter.mp hsub
  exact ⟨sub, hmem, (topic_of_mem_dispatch hinv).symm, of_decide_eq_true htakes, hinv⟩

/-- In every run of a fabric with one key, whatever the link does, and whatever an outsider without
the key sends: each call of a callback is made for a subscription of the node, with the payload
of a publication of the run that was made before and that has the CRC of the subscription's
topic, or with that of a plaintext packet of the outsider. A subscription that requires
encryption is called for publications of nodes with the key only. -/
theorem deliveries_authentic [DecidableEq ι] {key : Key} {start : ι → MulticastPubSub κ}
    (hfresh : ∀ i, Fresh (start i))
    (hkey : ∀ i, (start i).encryptionEnabled = true → (start i).encryptionKeyBytes = key)
    {before : List (Medium.Event ι (Call κ) (Option UInt32))}
    {e : Medium.Event ι (Call κ) (Option UInt32)}
    (houtsider : ∀ i raw clock, e = .call i (.event (.packet raw clock)) → Unforged key raw)
    {i : ι} {output : Output κ} {inv : Invocation κ}
    (hstep : (fabric.step (fabricAfter start before) e).2 = some (i, output))
    (hinv : inv ∈ output.invocations) :
    ∃ sub ∈ ((fabricAfter start before).station i).subscriptions,
      sub.topic = inv.topic ∧ sub.crc = topicCrc32 sub.topic ∧
      ((∃ p : Publication ι, p.Made start before ∧ topicCrc32 p.topic = sub.crc ∧
          (sub.requireEncryption = true → (start p.publisher).encryptionEnabled = true) ∧
          inv ∈ sub.dispatch p.encoding p.payload) ∨
        sub.requireEncryption = false ∧ ∃ raw clock pkt,
          e = .call i (.event (.packet raw clock)) ∧ decode raw = .ok pkt ∧ pkt.encMode = .NONE ∧
          pkt.topicCrc = sub.crc ∧ inv ∈ sub.dispatch pkt.encoding pkt.payload) := by
  have hkeeps := exec_published hfresh before
  have hkey' : ((fabricAfter start before).station i).encryptionEnabled = true →
      ((fabricAfter start before).station i).encryptionKeyBytes = key := by
    intro hon
    have hconfig := (hkeeps.station i).config
    rw [hconfig.encryptionKeyBytes]
    exact hkey i (hconfig.encryptionEnabled ▸ hon)
  have hcrc := (hkeeps.station i).wellFormed.subscriptions.crc_eq
  have hin : ∃ c, fabric.input (fabricAfter start before) e = some (i, c) ∧
      output = (((fabricAfter start before).station i).call c).2 := by
    cases h : fabric.input (fabricAfter start before) e with
    | none =>
      rw [Medium.step_of_input_none h] at hstep
      cases hstep
    | some p =>
      obtain ⟨j, c⟩ := p
      rw [Medium.step_of_input h] at hstep
      cases hstep
      exact ⟨c, rfl, rfl⟩
  obtain ⟨c, hc, rfl⟩ := hin
  generalize hnode : (fabricAfter start before).station i = node at *
  cases e with
  | arrive j n clock =>
    -- A copy of what a publication of the run has put on the link.
    obtain ⟨s, hs, heq⟩ := Option.map_eq_some_iff.mp hc
    cases heq
    obtain ⟨p, hmade, rfl⟩ := hkeeps.sent s (List.mem_of_getElem? hs)
    have hinv : inv ∈ (node.onPacket ((start p.publisher).datagram p.env p.topic p.payload
      p.encoding) clock).2 := hinv
    rcases invocations_of_published (hkey p.publisher) hkey' hmade.size p.env p.topic p.encoding
      clock with h | h
    · rw [h] at hinv
      cases hinv
    · rw [h] at hinv
      obtain ⟨sub, hsub, htopic, htakes, hdispatch⟩ := exists_dispatch_of_mem_deliver hinv
      exact ⟨sub, hsub, htopic, hcrc sub hsub,
        .inl ⟨p, hmade, htakes.1.symm, htakes.2, hdispatch⟩⟩
  | call j c' =>
    cases hc
    cases c with
    | setRetransmitCount count => cases hinv
    | setRetransmitDelayMs delayMs => cases hinv
    | event e =>
      cases e with
      | subscribe topic cb requireEncryption => cases hinv
      | subscribeTyped topic schemaId cb requireEncryption => cases hinv
      | publish env topic payload encoding => cases hinv
      | timeout sendOk n => cases hinv
      | packet raw clock =>
        obtain ⟨pkt, hpkt, hmode, hcalls⟩ :=
          plaintext_of_unforged hkey' (houtsider i raw clock rfl) hinv
        obtain ⟨sub, hsub, htopic, htakes, hdispatch⟩ := exists_dispatch_of_mem_deliver hcalls
        have hopen : sub.requireEncryption = false := by
          rw [← Bool.not_eq_true]
          exact fun h => Bool.false_ne_true (htakes.2 h)
        exact ⟨sub, hsub, htopic, hcrc sub hsub,
          .inr ⟨hopen, raw, clock, pkt, rfl, hpkt, hmode, htakes.1.symm, hdispatch⟩⟩

/-- Two nodes with a key. -/
def sealedPair (_ : Bool) : MulticastPubSub Nat := { socket := true, encryptionEnabled := true }

/-- One of them subscribes, the other one publishes. -/
def sealedPairRun : List (Medium.Event Bool (Call Nat) (Option UInt32)) :=
  [.call false (.event (.subscribe [116] 6 true)), .call true (.event (.publish {} [116] [7] .RAW))]

/-- `deliveries_authentic` when the datagram arrives. -/
theorem deliveries_authentic_sealed :
    ∃ sub ∈ ((fabricAfter sealedPair sealedPairRun).station false).subscriptions,
      sub.topic = [116] ∧ sub.crc = topicCrc32 sub.topic ∧
      ((∃ p : Publication Bool, p.Made sealedPair sealedPairRun ∧ topicCrc32 p.topic = sub.crc ∧
          (sub.requireEncryption = true → (sealedPair p.publisher).encryptionEnabled = true) ∧
          (⟨[116], 6, [7]⟩ : Invocation Nat) ∈ sub.dispatch p.encoding p.payload) ∨
        sub.requireEncryption = false ∧ ∃ raw clock pkt,
          (.arrive false 0 none : Medium.Event Bool (Call Nat) (Option UInt32)) =
            .call false (.event (.packet raw clock)) ∧ decode raw = .ok pkt ∧ pkt.encMode = .NONE ∧
          pkt.topicCrc = sub.crc ∧
          (⟨[116], 6, [7]⟩ : Invocation Nat) ∈ sub.dispatch pkt.encoding pkt.payload) := by
  have hcalls : ((fabric.step (fabricAfter sealedPair sealedPairRun) (.arrive false 0 none)).2 =
      some (false, { invocations := [⟨[116], 6, [7]⟩] })) := by decide +kernel
  exact @deliveries_authentic Nat Bool _ (Vector.replicate 32 0) _
    (fun _ => ⟨rfl, rfl, rfl, 0, rfl⟩) (fun _ _ => rfl) _ _ (fun i raw clock h => by cases h) _ _ _
    hcalls (List.mem_singleton_self _)

end Mpubsub.Theorems
