import Mpubsub.Node.Run

/-!
# `require_encryption` is never bypassed

The flag is a property of the topic's one record: a call that passes it sets
it, no later call clears it (`Guarded`), and the dispatch loop skips a flagged
record for plaintext. So a callback of a guarded topic is only called for a
datagram that opened under the node's key.
-/

namespace Mpubsub.Theorems

open Mpubsub.Lib Mpubsub.Wire Mpubsub.Node Mpubsub.Node.MulticastPubSub

variable {κ : Type}

/-- A `subscribe` or `subscribe_typed` call for `topic` with
`require_encryption = true`. -/
inductive RequiresEncryption (topic : Bytes) : Event κ → Prop where
  | subscribe (cb : κ) : RequiresEncryption topic (.subscribe topic cb true)
  | subscribeTyped (schemaId : UInt16) (cb : κ) :
    RequiresEncryption topic (.subscribeTyped topic schemaId cb true)

/-- The topic has a record with the flag set. -/
def Guarded (topic : Bytes) (node : MulticastPubSub κ) : Prop :=
  ∃ sub ∈ node.subscriptions, sub.topic = topic ∧ sub.requireEncryption = true

/-- Updating the records keeps a guarded topic guarded. -/
theorem guarded_update {topic : Bytes} {subs : List (Subscription κ)} {scope : Scope}
    {update : Subscription κ → Subscription κ} (hadds : AddsCallback update) (t : Bytes)
    (req : Bool) (h : ∃ sub ∈ subs, sub.topic = topic ∧ sub.requireEncryption = true) :
    ∃ sub ∈ updateSubscription t req scope update subs,
      sub.topic = topic ∧ sub.requireEncryption = true := by
  obtain ⟨sub, hsub, htopic, hreq⟩ := h
  rcases updateSubscription_cases t req scope update subs with
    ⟨before, old, after, rfl, -, heq⟩ | ⟨-, heq⟩
  · rw [heq]
    rcases List.mem_append.mp hsub with hin | hin
    · exact ⟨sub, List.mem_append_left _ hin, htopic, hreq⟩
    rcases List.mem_cons.mp hin with rfl | hin
    · refine ⟨_, List.mem_append_right _ List.mem_cons_self, ?_, ?_⟩
      · rw [hadds.topic]
        split
        · exact htopic
        · exact htopic
      · rw [hadds.requireEncryption]
        split
        · rfl
        · exact hreq
    · exact ⟨sub, by simp [hin], htopic, hreq⟩
  · rw [heq]
    exact ⟨sub, List.mem_append_left _ hsub, htopic, hreq⟩

/-- A call that asks for encryption makes the topic guarded. -/
theorem guarded_of_update {topic : Bytes} {scope : Scope}
    {update : Subscription κ → Subscription κ} (hadds : AddsCallback update)
    (subs : List (Subscription κ)) :
    ∃ sub ∈ updateSubscription topic true scope update subs,
      sub.topic = topic ∧ sub.requireEncryption = true := by
  rcases updateSubscription_cases topic true scope update subs with
    ⟨before, old, after, rfl, htopic, heq⟩ | ⟨-, heq⟩
  · rw [heq]
    refine ⟨_, List.mem_append_right _ List.mem_cons_self, ?_, ?_⟩
    · rw [hadds.topic]
      exact htopic
    · rw [hadds.requireEncryption]
      rfl
  · rw [heq]
    refine ⟨_, List.mem_append_right _ List.mem_cons_self, ?_, ?_⟩
    · rw [hadds.topic]
    · rw [hadds.requireEncryption]

/-- No call takes the flag away. -/
theorem step_guarded (topic : Bytes) (node : MulticastPubSub κ) (e : Event κ)
    (h : Guarded topic node) : Guarded topic (node.step e).1 := by
  cases e with
  | subscribe t cb req => exact guarded_update (addsCallback_raw cb) t req h
  | subscribeTyped t sid cb req => exact guarded_update (addsCallback_typed ⟨sid, cb⟩) t req h
  | publish env t payload enc =>
    obtain ⟨_, _, _, heq⟩ := node.publish_frame env t payload enc
    show Guarded topic (node.publish env t payload enc).1
    rw [heq]
    exact h
  | packet raw clock =>
    obtain ⟨_, _, _, _, heq, -⟩ := node.onPacket_frame raw clock
    show Guarded topic (node.onPacket raw clock).1
    rw [heq]
    exact h
  | timeout sendOk i =>
    obtain ⟨_, _, heq⟩ := node.fireTimeout_frame sendOk i
    show Guarded topic (node.fireTimeout sendOk i).1
    rw [heq]
    exact h

theorem guarded_of_requires {topic : Bytes} {e : Event κ} (he : RequiresEncryption topic e)
    (node : MulticastPubSub κ) : Guarded topic (node.step e).1 := by
  cases he with
  | subscribe cb => exact guarded_of_update (addsCallback_raw cb) node.subscriptions
  | subscribeTyped sid cb => exact guarded_of_update (addsCallback_typed ⟨sid, cb⟩) node.subscriptions

/-- A callback of a guarded topic is called for authenticated datagrams only. -/
theorem authentic_of_invocation {topic : Bytes} {node : MulticastPubSub κ}
    (hok : SubscriptionsOk node.scope node.subscriptions) (hguarded : Guarded topic node)
    {e : Event κ} {inv : Invocation κ} (hinv : inv ∈ (node.step e).2.invocations)
    (htopic : inv.topic = topic) :
    ∃ raw clock pkt plain, e = .packet raw clock ∧ decode raw = .ok pkt ∧
      pkt.encMode = .AEAD ∧ node.encryptionEnabled = true ∧
      openBody node.encryptionKeyBytes (raw.take HEADER_LEN) pkt.payload = some plain := by
  cases e with
  | packet raw clock =>
    have hinv : inv ∈ (node.onPacket raw clock).2 := hinv
    rcases node.onPacket_cases raw clock with h | ⟨pkt, -, -, h⟩ |
      ⟨pkt, plain, hdecode, hmode, hkey, hopen, -⟩
    · rw [h] at hinv
      cases hinv
    · -- A plaintext packet is not taken by the flagged record.
      rw [h] at hinv
      obtain ⟨sub, hsub, htakes, hsame⟩ := exists_of_mem_deliver hinv
      obtain ⟨flagged, hflagged, hft, hreq⟩ := hguarded
      have hone := filter_topic_eq hok.nodup hflagged
      have hmem : sub ∈ node.subscriptions.filter fun s => s.topic = flagged.topic :=
        List.mem_filter.mpr ⟨hsub, by rw [hft, ← htopic, hsame]; simp⟩
      rw [hone, List.mem_singleton] at hmem
      subst hmem
      exact absurd (htakes.2 hreq) (by decide)
    · exact ⟨raw, clock, pkt, plain, rfl, hdecode, hmode, hkey, hopen⟩
  | subscribe => cases hinv
  | subscribeTyped => cases hinv
  | publish => cases hinv
  | timeout => cases hinv

/-- Once a call has asked for encryption on a topic, the topic's one record keeps
the flag, and a callback of the topic is only ever called while a datagram in
AEAD mode is handled that opened under the node's key; on a node without a key
none is called. -/
theorem require_encryption_holds {start : MulticastPubSub κ} (hstart : Fresh start)
    {topic : Bytes} {call : Event κ} (hcall : RequiresEncryption topic call)
    (before after : List (Event κ)) :
    let node := machine.exec start (before ++ call :: after)
    (∃ sub, node.subscriptions.filter (fun s => s.topic = topic) = [sub] ∧
      sub.requireEncryption = true) ∧
    (∀ (e : Event κ) (inv : Invocation κ), inv ∈ (node.step e).2.invocations →
      inv.topic = topic →
      ∃ raw clock pkt plain, e = .packet raw clock ∧ decode raw = .ok pkt ∧
        pkt.encMode = .AEAD ∧ start.encryptionEnabled = true ∧
        openBody start.encryptionKeyBytes (raw.take HEADER_LEN) pkt.payload = some plain) ∧
    (start.encryptionEnabled = false → ∀ (e : Event κ) (inv : Invocation κ),
      inv ∈ (node.step e).2.invocations → inv.topic ≠ topic) := by
  intro node
  have hnode : node = machine.exec ((machine.exec start before).step call).1 after :=
    Machine.exec_append _ _ _ _
  have hreach : Reachable node := ⟨start, _, hstart, rfl⟩
  have hguarded : Guarded topic node := by
    rw [hnode]
    exact Machine.exec_invariant machine (step_guarded topic)
      (guarded_of_requires hcall _) after
  have hok := hreach.wellFormed.subscriptions
  have hconfig := exec_sameConfig start (before ++ call :: after)
  have hauth : ∀ (e : Event κ) (inv : Invocation κ), inv ∈ (node.step e).2.invocations →
      inv.topic = topic →
      ∃ raw clock pkt plain, e = .packet raw clock ∧ decode raw = .ok pkt ∧
        pkt.encMode = .AEAD ∧ start.encryptionEnabled = true ∧
        openBody start.encryptionKeyBytes (raw.take HEADER_LEN) pkt.payload = some plain := by
    intro e inv hinv htopic
    rw [← hconfig.encryptionEnabled, ← hconfig.encryptionKeyBytes]
    exact authentic_of_invocation hok hguarded hinv htopic
  refine ⟨?_, hauth, ?_⟩
  · obtain ⟨sub, hsub, rfl, hreq⟩ := hguarded
    exact ⟨sub, filter_topic_eq hok.nodup hsub, hreq⟩
  · intro hkey e inv hinv htopic
    obtain ⟨_, _, _, _, -, -, -, hkey', -⟩ := hauth e inv hinv htopic
    rw [hkey] at hkey'
    cases hkey'

/-- `require_encryption_holds` for a topic that is subscribed to without the flag
first, then with it, then without it again, on a node without a key. -/
theorem require_encryption_holds_late_flag :
    let start : MulticastPubSub Nat := { socket := true }
    let node := machine.exec start
      [.subscribe [116] 1 false, .subscribeTyped [116] 7 2 true, .subscribe [116] 3 false]
    ∀ (e : Event Nat) (inv : Invocation Nat), inv ∈ (node.step e).2.invocations →
      inv.topic ≠ [116] :=
  (@require_encryption_holds Nat { socket := true } ⟨rfl, rfl, rfl, 0, rfl⟩ [116] _
    (.subscribeTyped 7 2) [.subscribe [116] 1 false] [.subscribe [116] 3 false]).2.2 rfl

end Mpubsub.Theorems
