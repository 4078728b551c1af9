import Mpubsub.Node.Delivery

/-!
# Topic isolation

A node joins the groups of its topics on one socket, and dispatches by CRC
alone. A datagram on `B` reaches it when `B`'s group is joined, and then calls
every record that takes `B`'s CRC, whatever its group. So isolation holds for
`B` exactly when its group is not joined, or no other record takes packets with
its CRC (`isolated_iff`): the address hash takes no part in the decision.
-/

namespace Mpubsub.Theorems

open Mpubsub.Lib Mpubsub.Wire Mpubsub.Node Mpubsub.Node.MulticastPubSub

variable {κ : Type}

/-- A datagram published on `topic`, in the clear or under the node's key, that reaches
the node's socket calls only callbacks of `topic`. -/
def Isolated (n : MulticastPubSub κ) (topic : Bytes) : Prop :=
  ∀ (p : MulticastPubSub κ) (env : PublishEnv) (payload : Bytes) (encoding : Encoding)
    (sent : Sent) (clock : Option UInt32),
    (p.encryptionEnabled = true →
      n.encryptionEnabled = true ∧ n.encryptionKeyBytes = p.encryptionKeyBytes) →
    sent ∈ (p.publish env topic payload encoding).2.1 → sent.group ∈ n.joinedGroups →
    ∀ inv ∈ (n.onPacket sent.datagram clock).2, inv.topic = topic

/-- Another subscribed topic maps to the group of `topic`. -/
def SharesGroup (n : MulticastPubSub κ) (topic : Bytes) : Prop :=
  ∃ sub ∈ n.subscriptions, sub.topic ≠ topic ∧ sub.group = topicToGroup topic n.scope

/-- Another subscribed topic has the CRC of `topic` and takes some of the packets of its
publishers: it takes plaintext, or the node has a key to seal under. -/
def SharesCrc (n : MulticastPubSub κ) (topic : Bytes) : Prop :=
  ∃ sub ∈ n.subscriptions, sub.topic ≠ topic ∧ topicCrc32 sub.topic = topicCrc32 topic ∧
    (sub.requireEncryption = false ∨ n.encryptionEnabled = true)

/-- The ASCII texts "plumless" and "buckeroo" have one CRC and two groups. -/
def plumless : Bytes := [112, 108, 117, 109, 108, 101, 115, 115]

def buckeroo : Bytes := [98, 117, 99, 107, 101, 114, 111, 111]

/-- A node subscribed to "plumless" and "buckeroo" calls the callback of one for a
datagram of the other. -/
theorem crc_collision_crosses_topics :
    ¬∀ (n : MulticastPubSub Nat) (topic : Bytes), Reachable n →
      SharesGroup n topic ∨ Isolated n topic := by
  intro h
  have hgroups : topicToGroup plumless .LINK_LOCAL ≠ topicToGroup buckeroo .LINK_LOCAL := by
    decide +kernel
  have hcrc : topicCrc32 plumless = topicCrc32 buckeroo := by decide +kernel
  obtain ⟨n, hn⟩ : ∃ n : MulticastPubSub Nat, n = machine.exec { socket := true }
    [.subscribe plumless 1 false, .subscribe buckeroo 2 false] := ⟨_, rfl⟩
  have hsubs : n.subscriptions =
      [⟨plumless, topicCrc32 plumless, topicToGroup plumless .LINK_LOCAL, [1], [], false⟩,
        ⟨buckeroo, topicCrc32 buckeroo, topicToGroup buckeroo .LINK_LOCAL, [2], [], false⟩] := by
    rw [hn]
    rfl
  have hscope : n.scope = .LINK_LOCAL := by rw [hn]; rfl
  have hreach : Reachable n := ⟨_, _, ⟨rfl, rfl, rfl, 0, rfl⟩, hn⟩
  rcases h n buckeroo hreach with ⟨sub, hsub, hne, hgroup⟩ | hiso
  · rw [hsubs] at hsub
    rw [hscope] at hgroup
    rcases List.mem_pair.mp hsub with rfl | rfl
    · exact hgroups hgroup
    · exact hne rfl
  · obtain ⟨p, hp⟩ : ∃ p : MulticastPubSub Nat, p = { socket := true } := ⟨_, rfl⟩
    have hsize : ([] : Bytes).length ≤ p.effectiveMax := Nat.zero_le _
    -- The publisher has no key, so the conditions on keys are void.
    have hoff {P : Prop} : p.encryptionEnabled = true → P := by
      rw [hp]
      exact nofun
    have hsent := publish_sends (by rw [hp]) hsize {} buckeroo .RAW
    have hcalls := onPacket_datagram hsize {} buckeroo .RAW none (r := n) hoff hoff
    have hinv := hiso p {} [] .RAW _ none hoff
      (by rw [hsent]; exact List.mem_singleton_self _)
      (by rw [joinedGroups, hsubs, hp]; simp)
      ⟨plumless, 1, []⟩
      (by rw [hcalls, hsubs, deliver_invocations]; simp [Subscription.Takes, hcrc,
            Subscription.dispatch])
    exact absurd hinv (by decide)

/-- A record has a callback that some payload calls. -/
theorem exists_dispatch {sub : Subscription κ}
    (h : sub.rawCallbacks ≠ [] ∨ sub.typedCallbacks ≠ []) :
    ∃ (encoding : Encoding) (payload : Bytes), payload.length ≤ 2 ∧
      ∃ inv, inv ∈ sub.dispatch encoding payload := by
  rcases h with h | h
  · obtain ⟨cb, hcb⟩ := List.exists_mem_of_ne_nil _ h
    exact ⟨.RAW, [], by simp, _, List.mem_map_of_mem hcb⟩
  · obtain ⟨tc, htc⟩ := List.exists_mem_of_ne_nil _ h
    refine ⟨.PROTOBUF, storeU16le tc.schemaId, Nat.le_refl _, ⟨sub.topic, tc.callback, []⟩, ?_⟩
    simp only [Subscription.dispatch, storeU16le]
    simp only [List.length_cons, List.length_nil, Nat.lt_irrefl, if_false, List.mem_map,
      List.mem_filter]
    exact ⟨tc, ⟨htc, by simp⟩, rfl⟩

/-- If isolation holds although the group is joined, no other topic shares the CRC. -/
theorem not_sharesCrc_of_isolated {n : MulticastPubSub κ} (hn : WellFormed n) {topic : Bytes}
    (hjoined : topicToGroup topic n.scope ∈ n.joinedGroups) (hiso : Isolated n topic) :
    ¬SharesCrc n topic := by
  rintro ⟨sub, hsub, hne, hcrc, htake⟩
  obtain ⟨encoding, payload, hlen, inv, hinv⟩ :=
    exists_dispatch (hn.subscriptions.callbacks sub hsub)
  obtain ⟨nonce, hnonce⟩ := Mpubsub.Replay.ReplayGuardT.exists_accepts hn.replayGuard
    (show (1 : UInt32) ≠ 0 by decide) (by decide)
  -- A publisher that seals exactly when the record asks for it.
  obtain ⟨p, hp⟩ : ∃ p : MulticastPubSub κ, p =
      { scope := n.scope, socket := true, encryptionEnabled := sub.requireEncryption
        encryptionKeyBytes := n.encryptionKeyBytes } := ⟨_, rfl⟩
  have hreq : p.encryptionEnabled = sub.requireEncryption := by rw [hp]
  have hkey : p.encryptionEnabled = true →
      n.encryptionEnabled = true ∧ n.encryptionKeyBytes = p.encryptionKeyBytes := by
    intro hon
    rw [hreq] at hon
    refine ⟨htake.resolve_left (by rw [hon]; decide), by rw [hp]⟩
  have hsize : payload.length ≤ p.effectiveMax := by
    refine Nat.le_trans hlen ?_
    unfold effectiveMax
    split <;> decide
  obtain ⟨env, henv⟩ : ∃ env : PublishEnv, env = { random0 := nonce, clock := some 1 } := ⟨_, rfl⟩
  have hcalls := onPacket_datagram hsize env topic encoding (some 1) hkey fun _ => by
    rw [henv]
    unfold replayCheck
    split
    · exact hnonce
    · rfl
  have htopic := hiso p env payload encoding ⟨p.datagram env topic payload encoding,
    topicToGroup topic p.scope⟩ (some 1) hkey
    (by rw [publish_sends (by rw [hp]) hsize]; exact List.mem_singleton_self _)
    (by rw [hp]; exact hjoined) inv
    (by
      rw [hcalls, deliver_invocations]
      refine List.mem_flatMap.mpr ⟨sub, List.mem_filter.mpr ⟨hsub, ?_⟩, hinv⟩
      rw [decide_eq_true_eq]
      exact ⟨by rw [hn.subscriptions.crc_eq sub hsub, hcrc], fun h => by rw [hreq, h]⟩)
  exact hne ((topic_of_mem_dispatch hinv).symm.trans htopic)

/-- If no other topic shares the CRC, isolation holds. -/
theorem isolated_of_not_sharesCrc {n : MulticastPubSub κ} (hn : WellFormed n) {topic : Bytes}
    (hcrc : ¬SharesCrc n topic) : Isolated n topic := by
  intro p env payload encoding sent clock hkey hsent _ inv hinv
  obtain ⟨hsize, rfl⟩ := sent_of_publish hsent
  rcases onPacket_datagram_cases hsize env topic encoding clock fun h => (hkey h).2 with h | h
  · rw [h] at hinv
    cases hinv
  rw [h] at hinv
  obtain ⟨sub, hsub, htakes, htopic⟩ := exists_of_mem_deliver hinv
  by_contra hne
  rw [htopic] at hne
  refine hcrc ⟨sub, hsub, hne, by rw [← hn.subscriptions.crc_eq sub hsub, htakes.1], ?_⟩
  cases hreq : sub.requireEncryption with
  | false => exact .inl rfl
  | true => exact .inr (hkey (htakes.2 hreq)).1

/-- Isolation up to shared groups holds exactly for the topics whose group the node has not
joined, those that share it, and those whose CRC no other subscribed topic that
takes their packets shares. -/
theorem isolated_iff {n : MulticastPubSub κ} (hreach : Reachable n) (topic : Bytes) :
    (SharesGroup n topic ∨ Isolated n topic) ↔
      topicToGroup topic n.scope ∉ n.joinedGroups ∨ SharesGroup n topic ∨
        ¬SharesCrc n topic := by
  have hn := hreach.wellFormed
  constructor
  · rintro (h | hiso)
    · exact .inr (.inl h)
    · by_cases hjoined : topicToGroup topic n.scope ∈ n.joinedGroups
      · exact .inr (.inr (not_sharesCrc_of_isolated hn hjoined hiso))
      · exact .inl hjoined
  · rintro (hout | h | hcrc)
    · right
      intro p env payload encoding sent clock _ hsent hgroup
      obtain ⟨-, rfl⟩ := sent_of_publish hsent
      obtain ⟨sub, hsub, heq⟩ := List.mem_map.mp hgroup
      rw [hn.subscriptions.group_eq sub hsub] at heq
      have hscope := scope_eq_of_topicToGroup_eq heq
      refine absurd ?_ hout
      rw [hscope]
      exact hgroup
    · exact .inl h
    · exact .inr (isolated_of_not_sharesCrc hn hcrc)

/-- A node with the one subscription "t" is isolated on "t". -/
theorem isolated_single_subscription :
    ∃ n : MulticastPubSub Nat, Reachable n ∧ topicToGroup [116] n.scope ∈ n.joinedGroups ∧
      (SharesGroup n [116] ∨ Isolated n [116]) := by
  obtain ⟨n, hn⟩ : ∃ n : MulticastPubSub Nat, n = machine.exec { socket := true }
    [.subscribe [116] 1 false] := ⟨_, rfl⟩
  have hsubs : n.subscriptions = [⟨[116], topicCrc32 [116], topicToGroup [116] .LINK_LOCAL,
      [1], [], false⟩] := by
    rw [hn]
    rfl
  have hreach : Reachable n := ⟨_, _, ⟨rfl, rfl, rfl, 0, rfl⟩, hn⟩
  refine ⟨n, hreach, ?_, (isolated_iff hreach [116]).2 (.inr (.inr ?_))⟩
  · rw [joinedGroups, hsubs, hn]
    exact List.mem_singleton_self _
  · rintro ⟨sub, hsub, hne, -⟩
    rw [hsubs] at hsub
    rw [List.mem_singleton.mp hsub] at hne
    exact hne rfl

end Mpubsub.Theorems
