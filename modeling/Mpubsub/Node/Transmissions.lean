import Mpubsub.Node.Delivery
import Mpubsub.Node.Retransmit

/-!
# Counting transmissions

What a publish owes to the socket: its datagram once if the first send fails or a chain takes over,
and `retransmit_count_` times otherwise. A resend waits as a timeout without an id, which nothing
but its own firing takes away (`ResendsUnnamed`), so a call hands to the socket what it owes less
what it leaves pending (`call_balance`).
-/

namespace Mpubsub.Node

open Mpubsub.Lib Mpubsub.Wire

variable {κ : Type}

/-- The resend that a timeout will make, if it is one. -/
def Timeout.resend? (t : Timeout) : Option Sent :=
  match t.fn with
  | .resend datagram group => some ⟨datagram, group⟩
  | .indefinite _ => none

theorem Timeout.job?_of_resend? {t : Timeout} {sent : Sent} (h : t.resend? = some sent) :
    t.job? = none := by
  unfold Timeout.resend? at h
  unfold Timeout.job?
  cases hfn : t.fn with
  | resend datagram group => rfl
  | indefinite job =>
    rw [hfn] at h
    cases h

/-- Whether the call's send succeeds, if it makes one. -/
def Call.sendOk : Call κ → Bool
  | .event (.publish env _ _ _) => env.sendOk
  | .event (.timeout sendOk _) => sendOk
  | _ => false

namespace MulticastPubSub

/-- The pending resends of a datagram. -/
def pendingResends (sent : Sent) (node : MulticastPubSub κ) : Nat :=
  node.timeouts.countP fun t => t.resend? = some sent

/-- How often a call hands a datagram to the socket. -/
def attempts (sent : Sent) (node : MulticastPubSub κ) (c : Call κ) : Nat :=
  (node.call c).2.sent.count sent

/-- How many sends a call makes that succeed. -/
def successes (node : MulticastPubSub κ) (c : Call κ) : Nat :=
  if c.sendOk then (node.call c).2.sent.length else 0

/-- How often a publish whose first send has succeeded is sent in all, but for its chain. -/
def transmissions (node : MulticastPubSub κ) : Nat :=
  if node.retransmitCount = -1 then 1 else max 1 node.retransmitCount.toInt.toNat

/-- How often a call has a datagram sent, now or later: a publish that is not refused its own
datagram, and a firing link the datagram of its chain. -/
def dues (sent : Sent) (node : MulticastPubSub κ) : Call κ → Nat
  | .event (.publish env topic payload encoding) =>
    if payload.length ≤ node.effectiveMax ∧
        (⟨node.datagram env topic payload encoding, topicToGroup topic node.scope⟩ : Sent) = sent then
      if env.sendOk then node.transmissions else 1
    else 0
  | .event (.timeout _ i) =>
    if ((node.timeouts[i]?.bind Timeout.job?).map IndefiniteJob.sent) = some sent then 1 else 0
  | _ => 0

/-- Resends have no id, so no timeout that is set or cancelled by its id is one. -/
def ResendsUnnamed (node : MulticastPubSub κ) : Prop :=
  ∀ t ∈ node.timeouts, t.resend?.isSome = true → t.id = none

/-- What a step of the accounts needs to know of a node. -/
structure Counting (node : MulticastPubSub κ) : Prop where
  socket : node.socket = true
  unnamed : ResendsUnnamed node

/-! ## Resends stay -/

theorem countP_cancel (ts : List Timeout) (h : ∀ t ∈ ts, t.resend?.isSome = true → t.id = none)
    (id : UInt32) (sent : Sent) :
    (Timers.cancel Timeout.id ts id).countP (fun t => t.resend? = some sent) =
      ts.countP fun t => t.resend? = some sent := by
  rw [Timers.cancel, List.countP_filter]
  refine List.countP_congr fun t ht => ?_
  constructor
  · intro hboth
    exact (Bool.and_eq_true_iff.mp hboth).1
  · intro hresend
    have hnone : t.id = none := h t ht (by rw [of_decide_eq_true hresend]; rfl)
    rw [hresend, hnone]
    rfl

/-- The timeouts of a finite loop. -/
def resends (node : MulticastPubSub κ) (sent : Sent) : List Timeout :=
  (List.range (node.retransmitCount.toInt.toNat - 1)).map fun i =>
    ⟨none, node.retransmitDelayMs * UInt32.ofNat (i + 1), .resend sent.datagram sent.group⟩

/-- The timeouts after an accepted publish: of those before, the one in the topic's slot may have
gone, and the resends have come, or the first link of a chain. -/
theorem timeouts_scheduleRetransmits (node : MulticastPubSub κ) (topic : Bytes) (sent : Sent) :
    ∃ kept, (kept = node.timeouts ∨
        kept = Timers.cancel Timeout.id node.timeouts (topicCrc32 topic)) ∧
      (node.scheduleRetransmits topic sent.datagram sent.group).timeouts =
        kept ++ if node.retransmitCount = -1 then
            [⟨some (topicCrc32 topic), node.retransmitDelayMs, .indefinite (node.job topic sent)⟩]
          else node.resends sent := by
  by_cases hcount : node.retransmitCount = -1
  · rw [scheduleRetransmits_indefinite hcount, if_pos hcount]
    exact ⟨_, .inr rfl, rfl⟩
  · unfold scheduleRetransmits
    rw [cancelIndefiniteRetransmit_eq, if_neg hcount]
    simp only [if_neg hcount, foldl_setTimeout]
    refine ⟨_, ?_, rfl⟩
    split
    · exact .inr rfl
    · exact .inl rfl

theorem countP_resends (node : MulticastPubSub κ) (own sent : Sent) :
    (node.resends own).countP (fun t => t.resend? = some sent) =
      if own = sent then node.retransmitCount.toInt.toNat - 1 else 0 := by
  rw [resends, List.countP_map]
  by_cases hsame : own = sent
  · rw [if_pos hsame, List.countP_eq_length.mpr, List.length_range]
    intro i _
    simp [Timeout.resend?, hsame]
  · rw [if_neg hsame, List.countP_eq_zero]
    intro i _ heq
    exact hsame (Option.some.inj (of_decide_eq_true heq))

/-- The resends that an accepted publish leaves pending. -/
theorem pendingResends_scheduleRetransmits {node : MulticastPubSub κ} (h : node.ResendsUnnamed)
    (topic : Bytes) (own sent : Sent) :
    (node.scheduleRetransmits topic own.datagram own.group).pendingResends sent =
      node.pendingResends sent + if own = sent then node.transmissions - 1 else 0 := by
  obtain ⟨kept, hkept, htimeouts⟩ := node.timeouts_scheduleRetransmits topic own
  have hsame : kept.countP (fun t => t.resend? = some sent) = node.pendingResends sent := by
    rcases hkept with rfl | rfl
    · rfl
    · exact countP_cancel _ h _ sent
  rw [pendingResends, htimeouts, List.countP_append, hsame, transmissions]
  congr 1
  by_cases hcount : node.retransmitCount = -1
  · simp [hcount, Timeout.resend?]
  · rw [if_neg hcount, if_neg hcount, countP_resends]
    split
    · omega
    · rfl

/-- The resends without a timeout that has gone. -/
theorem countP_eraseIdx {ts : List Timeout} {i : Nat} {t : Timeout} (ht : ts[i]? = some t)
    (sent : Sent) :
    ts.countP (fun t => t.resend? = some sent) =
      (ts.eraseIdx i).countP (fun t => t.resend? = some sent) +
        if t.resend? = some sent then 1 else 0 := by
  obtain ⟨hi, rfl⟩ := List.getElem?_eq_some_iff.mp ht
  rw [← (List.getElem_cons_eraseIdx_perm hi).countP_eq, List.countP_cons]
  simp

/-! ## One call -/

theorem resend?_isSome {t : Timeout} (h : t.resend?.isSome = true) : t.job? = none := by
  obtain ⟨sent, hsent⟩ := Option.isSome_iff_exists.mp h
  exact Timeout.job?_of_resend? hsent

/-- No call names a resend. -/
theorem ResendsUnnamed.call {node : MulticastPubSub κ} (h : node.ResendsUnnamed) (c : Call κ) :
    (node.call c).1.ResendsUnnamed := by
  intro t ht hresend
  have hlink : t.job? = none := resend?_isSome hresend
  cases node.call_schedules c with
  | idle _ _ htimeouts => exact h t (htimeouts ▸ ht) hresend
  | fired i _ _ _ _ _ htimeouts =>
    rw [htimeouts] at ht
    exact h t (List.mem_of_mem_eraseIdx ht) hresend
  | indefinite topic sent _ _ _ htimeouts =>
    rw [htimeouts] at ht
    rcases List.mem_append.mp ht with hold | hnew
    · exact h t (Timers.mem_cancel.mp hold).1 hresend
    · rw [List.mem_singleton.mp hnew] at hlink
      cases hlink
  | finite topic sent resends _ _ hresends _ htimeouts =>
    rw [htimeouts] at ht
    rcases List.mem_append.mp ht with hold | hnew
    · split at hold
      · exact h t (Timers.mem_cancel.mp hold).1 hresend
      · exact h t hold hresend
    · exact (hresends t hnew).1
  | rearmed i _ job next _ _ _ _ _ htimeouts =>
    rw [htimeouts] at ht
    rcases List.mem_append.mp ht with hold | hnew
    · exact h t (List.mem_of_mem_eraseIdx (Timers.mem_cancel.mp hold).1) hresend
    · rw [List.mem_singleton.mp hnew] at hlink
      cases hlink

theorem socket_call (node : MulticastPubSub κ) (c : Call κ) :
    (node.call c).1.socket = node.socket := by
  cases c with
  | setRetransmitCount count => rfl
  | setRetransmitDelayMs delayMs => rfl
  | event e =>
    cases e with
    | subscribe topic cb requireEncryption => rfl
    | subscribeTyped topic schemaId cb requireEncryption => rfl
    | packet raw clock =>
      obtain ⟨_, _, _, _, h, -⟩ := node.onPacket_frame raw clock
      show (node.onPacket raw clock).1.socket = _
      rw [h]
    | publish env topic payload encoding =>
      obtain ⟨_, _, _, h⟩ := node.publish_frame env topic payload encoding
      show (node.publish env topic payload encoding).1.socket = _
      rw [h]
    | timeout sendOk i =>
      obtain ⟨_, _, h⟩ := node.fireTimeout_frame sendOk i
      show (node.fireTimeout sendOk i).1.socket = _
      rw [h]

theorem Counting.call {node : MulticastPubSub κ} (h : node.Counting) (c : Call κ) :
    (node.call c).1.Counting :=
  ⟨(node.socket_call c).trans h.socket, h.unnamed.call c⟩

theorem publish_balance {node : MulticastPubSub κ} (h : node.Counting) (sent : Sent)
    (env : PublishEnv) (topic payload : Bytes) (encoding : Encoding) :
    (node.publish env topic payload encoding).2.1.count sent +
        (node.publish env topic payload encoding).1.pendingResends sent =
      node.pendingResends sent +
        node.dues sent (.event (.publish env topic payload encoding)) := by
  by_cases hsize : payload.length ≤ node.effectiveMax
  · obtain ⟨own, hown⟩ : ∃ own : Sent, own =
      ⟨node.datagram env topic payload encoding, topicToGroup topic node.scope⟩ := ⟨_, rfl⟩
    rw [publish_sends h.socket hsize, dues, ← hown]
    simp only [hsize, true_and, List.count_singleton, beq_iff_eq]
    by_cases hok : env.sendOk = true
    · obtain ⟨counted, htimers⟩ := publish_timers ⟨h.socket, hsize, hok⟩ topic encoding
      have hpending := @pendingResends_scheduleRetransmits κ { node with packetsSent := counted }
        h.unnamed topic own sent
      rw [hown] at hpending
      rw [htimers, hpending, ← hown]
      have hpos : 1 ≤ node.transmissions := by
        unfold transmissions
        split <;> omega
      show _ + (node.pendingResends sent + if own = sent then node.transmissions - 1 else 0) = _
      simp only [hok, if_true]
      split <;> omega
    · have hrefused : ¬node.Accepted env payload := fun haccepted => hok haccepted.2.2
      have htimeouts := (publish_timers_of_not_accepted hrefused topic encoding).2
      rw [pendingResends, htimeouts, if_neg hok]
      exact Nat.add_comm _ _
  · rw [publish_refuses (.inr (Nat.lt_of_not_le hsize)), dues,
      if_neg (fun hboth => hsize hboth.1)]
    exact Nat.add_comm _ _

theorem timeout_balance {node : MulticastPubSub κ} (h : node.Counting) (sent : Sent)
    (sendOk : Bool) (i : Nat) :
    (node.fireTimeout sendOk i).2.count sent + (node.fireTimeout sendOk i).1.pendingResends sent =
      node.pendingResends sent + node.dues sent (.event (.timeout sendOk i)) := by
  -- On an open socket every send is an attempt.
  have hsend {fired : MulticastPubSub κ} (hopen : fired.socket = true) (datagram : Bytes)
      (group : GroupAddr) :
      (fired.sendDatagram sendOk datagram group).2.1 = [⟨datagram, group⟩] := by
    unfold sendDatagram
    cases sendOk <;> simp [hopen]
  unfold fireTimeout dues
  cases ht : node.timeouts[i]? with
  | none => simp [ht]
  | some t =>
    have hcount := countP_eraseIdx ht sent
    obtain ⟨fired, hfired⟩ : ∃ fired, fired =
      { node with timeouts := node.timeouts.eraseIdx i } := ⟨_, rfl⟩
    have hopen : fired.socket = true := by rw [hfired]; exact h.socket
    have htimeouts : fired.timeouts = node.timeouts.eraseIdx i := by rw [hfired]
    have hunnamed : fired.ResendsUnnamed := by
      intro t ht
      rw [htimeouts] at ht
      exact h.unnamed t (List.mem_of_mem_eraseIdx ht)
    simp only [← hfired]
    cases hfn : t.fn with
    | resend datagram group =>
      have hresend : t.resend? = some ⟨datagram, group⟩ := by rw [Timeout.resend?, hfn]
      have hlink : t.job? = none := by rw [Timeout.job?, hfn]
      rw [hresend] at hcount
      simp only [hsend hopen, pendingResends, (fired.sendDatagram_timers _ _ _).2, htimeouts, hcount,
        ht, Option.bind_some, hlink, Option.map_none, reduceCtorEq, if_false, Option.some.injEq,
        List.count_singleton, beq_iff_eq]
      omega
    | indefinite job =>
      have hresend : t.resend? = none := by rw [Timeout.resend?, hfn]
      have hlink : t.job? = some job := by rw [Timeout.job?, hfn]
      have hsent : job.sent = ⟨job.datagram, job.group⟩ := rfl
      rw [hresend] at hcount
      simp only [ht, Option.bind_some, hlink, Option.map_some, Option.some.injEq]
      have hpending : (fired.sendDatagram sendOk job.datagram job.group).1.pendingResends sent =
          node.pendingResends sent := by
        simp only [pendingResends, (fired.sendDatagram_timers _ _ _).2, htimeouts, hcount]
        simp
      cases (fired.sendDatagram sendOk job.datagram job.group).1.indefiniteJobs.lookup job.topic with
      | none =>
        simp only [hsend hopen, hpending, List.count_singleton, beq_iff_eq, hsent]
        exact Nat.add_comm _ _
      | some next =>
        have hrearmed : ((fired.sendDatagram sendOk job.datagram job.group).1.setTimeoutId job.rtId
            job.delay (.indefinite next)).pendingResends sent = node.pendingResends sent := by
          rw [← hpending]
          unfold pendingResends setTimeoutId
          rw [List.countP_append]
          have hcancel := countP_cancel (fired.sendDatagram sendOk job.datagram
            job.group).1.timeouts (by rw [(fired.sendDatagram_timers _ _ _).2]; exact hunnamed)
            job.rtId sent
          rw [Timers.cancel] at hcancel
          simp only [hcancel]
          simp [Timeout.resend?]
        simp only [hsend hopen, hrearmed, List.count_singleton, beq_iff_eq, hsent]
        exact Nat.add_comm _ _

/-- **One call** hands to the socket what it owes less what it leaves pending. -/
theorem call_balance {node : MulticastPubSub κ} (h : node.Counting) (sent : Sent) (c : Call κ) :
    node.attempts sent c + (node.call c).1.pendingResends sent =
      node.pendingResends sent + node.dues sent c := by
  cases c with
  | setRetransmitCount count => exact Nat.add_comm _ _
  | setRetransmitDelayMs delayMs => exact Nat.add_comm _ _
  | event e =>
    cases e with
    | subscribe topic cb requireEncryption => exact Nat.add_comm _ _
    | subscribeTyped topic schemaId cb requireEncryption => exact Nat.add_comm _ _
    | packet raw clock =>
      obtain ⟨_, _, _, _, hframe, -⟩ := node.onPacket_frame raw clock
      show [].count sent + (node.onPacket raw clock).1.pendingResends sent = _
      rw [hframe]
      exact Nat.add_comm _ _
    | publish env topic payload encoding => exact publish_balance h sent env topic payload encoding
    | timeout sendOk i => exact timeout_balance h sent sendOk i

/-- A send counts where it succeeds. -/
theorem packetsSent_sendDatagram (node : MulticastPubSub κ) (sendOk : Bool) (datagram : Bytes)
    (group : GroupAddr) :
    (node.sendDatagram sendOk datagram group).1.packetsSent = node.packetsSent +
      UInt32.ofNat (if sendOk then (node.sendDatagram sendOk datagram group).2.1.length else 0) := by
  unfold sendDatagram
  cases node.socket <;> cases sendOk <;> simp

/-- The counter goes up by the sends that succeed. -/
theorem packetsSent_call (node : MulticastPubSub κ) (c : Call κ) :
    (node.call c).1.packetsSent = node.packetsSent + UInt32.ofNat (node.successes c) := by
  have hzero : node.packetsSent = node.packetsSent + UInt32.ofNat 0 := (UInt32.add_zero _).symm
  cases c with
  | setRetransmitCount count => exact hzero
  | setRetransmitDelayMs delayMs => exact hzero
  | event e =>
    cases e with
    | subscribe topic cb requireEncryption => exact hzero
    | subscribeTyped topic schemaId cb requireEncryption => exact hzero
    | packet raw clock =>
      obtain ⟨_, _, _, _, hframe, -⟩ := node.onPacket_frame raw clock
      show (node.onPacket raw clock).1.packetsSent = _
      rw [hframe]
      exact hzero
    | publish env topic payload encoding =>
      have hsend := packetsSent_sendDatagram node env.sendOk
        (node.datagram env topic payload encoding) (topicToGroup topic node.scope)
      show (node.publish env topic payload encoding).1.packetsSent = node.packetsSent +
        UInt32.ofNat (if env.sendOk then (node.publish env topic payload encoding).2.1.length else 0)
      unfold publish
      split
      · simp
      split
      · simp
      simp only
      split
      · exact hsend
      · obtain ⟨_, _, hframe⟩ := scheduleRetransmits_frame (node.sendDatagram env.sendOk
          (node.datagram env topic payload encoding) (topicToGroup topic node.scope)).1 topic
          (node.datagram env topic payload encoding) (topicToGroup topic node.scope)
        rw [hframe]
        exact hsend
    | timeout sendOk i =>
      show (node.fireTimeout sendOk i).1.packetsSent = node.packetsSent +
        UInt32.ofNat (if sendOk then (node.fireTimeout sendOk i).2.length else 0)
      unfold fireTimeout
      split
      · simp
      simp only
      split
      · exact packetsSent_sendDatagram { node with timeouts := node.timeouts.eraseIdx i } ..
      · split
        · exact packetsSent_sendDatagram { node with timeouts := node.timeouts.eraseIdx i } ..
        · exact packetsSent_sendDatagram { node with timeouts := node.timeouts.eraseIdx i } ..

end MulticastPubSub

end Mpubsub.Node
