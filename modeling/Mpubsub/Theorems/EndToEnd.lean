import Mpubsub.Node.Delivery

/-!
# End-to-end delivery

`publish` refuses by size alone; what it emits otherwise fits a datagram, and a
receiver calls for it exactly the matching callbacks of the topic, in the order
in which they were registered, with the published bytes.
-/

namespace Mpubsub.Theorems

open Mpubsub.Lib Mpubsub.Wire Mpubsub.Node Mpubsub.Node.MulticastPubSub

variable {κ κ' : Type}

/-- The calls a payload on `topic` should lead to at a node with these subscriptions: for
RAW every raw callback with the payload, for PROTOBUF every typed callback whose
schema id is the first two bytes, little-endian, with the rest. -/
def expectedCalls (subs : List (Subscription κ)) (topic : Bytes) :
    Encoding → Bytes → List (Invocation κ)
  | .RAW, payload =>
    ((subs.find? fun sub => sub.topic = topic).elim [] (·.rawCallbacks)).map
      fun cb => ⟨topic, cb, payload⟩
  | .PROTOBUF, b0 :: b1 :: body =>
    (((subs.find? fun sub => sub.topic = topic).elim [] (·.typedCallbacks)).filter
      fun tc => tc.schemaId.toNat = b0.toNat + 256 * b1.toNat).map
        fun tc => ⟨topic, tc.callback, body⟩
  | .PROTOBUF, _ => []

/-- The dispatch of the topic's record makes the expected calls. -/
theorem dispatch_eq_expected (subs : List (Subscription κ)) (topic : Bytes) (encoding : Encoding)
    (payload : Bytes) :
    (match subs.find? fun sub => sub.topic = topic with
      | none => []
      | some sub => sub.dispatch encoding payload) = expectedCalls subs topic encoding payload := by
  cases hfind : subs.find? fun sub => sub.topic = topic with
  | none =>
    cases encoding with
    | RAW => simp [expectedCalls, hfind]
    | PROTOBUF =>
      match payload with
      | [] => rfl
      | [_] => rfl
      | _ :: _ :: _ => simp [expectedCalls, hfind]
  | some sub =>
    have htopic : sub.topic = topic := by simpa using List.find?_some hfind
    subst htopic
    cases encoding with
    | RAW => simp [expectedCalls, hfind, Subscription.dispatch]
    | PROTOBUF =>
      match payload with
      | [] => rfl
      | [_] => rfl
      | b0 :: b1 :: body =>
        simp only [expectedCalls, hfind, Subscription.dispatch, List.length_cons,
          show ¬body.length + 1 + 1 < 2 by omega, if_false, Option.elim]
        apply congrArg (List.map _)
        apply List.filter_congr
        intro tc _
        rw [List.getD_cons_zero, List.getD_cons_succ, List.getD_cons_zero, Bool.eq_iff_iff,
          beq_iff_eq, decide_eq_true_iff, ← toNat_loadU16le, UInt16.toNat_inj]

/-- A PROTOBUF payload without room for a schema id is dropped by every record. -/
theorem deliver_short (subs : List (Subscription κ)) (crc : UInt32) {payload : Bytes}
    (hshort : payload.length < 2) (wasEncrypted : Bool) :
    (deliver crc .PROTOBUF payload wasEncrypted subs).1 = [] := by
  rw [deliver_invocations, List.flatMap_eq_nil_iff]
  intro sub _
  exact if_pos hshort

/-- `publish` refuses exactly the payloads over 1220 bytes (1184 with a key). For the
others it emits one datagram of at most 1232 bytes, and a receiver, with the
same key if there is one, whose guard takes the packet and which takes the topic
in this mode, makes exactly the expected calls. -/
theorem publish_delivers {p : MulticastPubSub κ'} (hsocket : p.socket = true)
    (env : PublishEnv) (topic payload : Bytes) (encoding : Encoding) :
    let limit := if p.encryptionEnabled then 1184 else 1220
    (limit < payload.length → p.publish env topic payload encoding = (p, [], false)) ∧
    (payload.length ≤ limit → ∃ datagram,
      (p.publish env topic payload encoding).2 =
        ([⟨datagram, topicToGroup topic p.scope⟩], env.sendOk) ∧
      datagram.length ≤ 1232 ∧
      ∀ (r : MulticastPubSub κ) (clock : Option UInt32), Reachable r →
        (p.encryptionEnabled = true →
          r.encryptionEnabled = true ∧ r.encryptionKeyBytes = p.encryptionKeyBytes) →
        (p.encryptionEnabled = true →
          (replayCheck r.replayGuard clock (replayTimestamp env.clock) env.random0).2 = true) →
        (∀ sub ∈ r.subscriptions, sub.topic = topic → sub.requireEncryption = true →
          p.encryptionEnabled = true) →
        (r.onPacket datagram clock).2.filter (fun inv => inv.topic = topic) =
            expectedCalls r.subscriptions topic encoding payload ∧
          (encoding = .PROTOBUF → payload.length < 2 → (r.onPacket datagram clock).2 = [])) := by
  intro limit
  have hlimit : limit = p.effectiveMax := rfl
  rw [hlimit]
  constructor
  · intro hover
    exact publish_refuses (.inr hover) env topic encoding
  · intro hsize
    refine ⟨p.datagram env topic payload encoding, publish_sends hsocket hsize ..,
      length_datagram_le hsize .., ?_⟩
    intro r clock hreach hkey hreplay hreq
    have hok := hreach.wellFormed.subscriptions
    have hcalls := onPacket_datagram hsize env topic encoding clock hkey hreplay
    have htakes : ∀ sub ∈ r.subscriptions, sub.topic = topic →
        sub.Takes (topicCrc32 topic) p.encryptionEnabled := by
      intro sub hsub htopic
      exact ⟨by rw [hok.crc_eq sub hsub, htopic], hreq sub hsub htopic⟩
    rw [hcalls]
    constructor
    · exact (filter_deliver hok.nodup htakes).trans (dispatch_eq_expected ..)
    · rintro rfl hshort
      exact deliver_short _ _ hshort _

/-- `publish_delivers` for a sealed message and a receiver with a typed and a raw
callback on the topic. -/
theorem publish_delivers_sealed :
    let p : MulticastPubSub Nat := { socket := true, encryptionEnabled := true }
    let r : MulticastPubSub Nat := machine.exec { encryptionEnabled := true }
      [.subscribeTyped [116] 0x0201 5 true, .subscribe [116] 6 false]
    ∃ datagram,
      (p.publish { random0 := 7, clock := some 100 } [116] [1, 2, 3] .PROTOBUF).2 =
        ([⟨datagram, topicToGroup [116] .LINK_LOCAL⟩], true) ∧
      (r.onPacket datagram none).2.filter (fun inv => inv.topic = [116]) =
        [⟨[116], 5, [3]⟩] := by
  intro p r
  obtain ⟨datagram, hsend, -, hrecv⟩ := (@publish_delivers Nat Nat p rfl
    { random0 := 7, clock := some 100 } [116] [1, 2, 3] .PROTOBUF).2 (by decide)
  have hreach : Reachable r := ⟨_, _, ⟨rfl, rfl, rfl, 0, rfl⟩, rfl⟩
  exact ⟨datagram, hsend, (hrecv r none hreach (fun _ => ⟨rfl, rfl⟩) (fun _ => rfl)
    fun _ _ _ _ => rfl).1⟩

end Mpubsub.Theorems
