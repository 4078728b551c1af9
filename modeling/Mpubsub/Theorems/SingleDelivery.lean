import Mpubsub.Lib.ExactlyOnce
import Mpubsub.Theorems.AuthenticDelivery
import Mpubsub.Theorems.ReplayWindow

/-!
# A sealed publication is delivered once

A publication goes out once and is retransmitted as often as its chain goes on, and the link
repeats, delays and reorders the copies. A receiver with replay protection takes exactly one of
the copies that reach it within the window, and hands it to the callbacks; all others call
nothing (`delivered_once`). The nonces of the publications are distinct in their low 32 bits,
the receiver's clock is synced and does not go back, and less than 64 other packets are
accepted while copies come in.
-/

namespace Mpubsub.Theorems

open Mpubsub.Lib Mpubsub.Wire Mpubsub.Node Mpubsub.Node.MulticastPubSub
open Mpubsub.Replay (ReplayGuardT)

variable {κ ι : Type}

/-! ## The guard of a receiver -/

/-- The clock of the receiver is synced where it opens a packet, and does not go back. -/
structure Synced (r : MulticastPubSub κ) (calls : List (Call κ)) : Prop where
  valid : ∀ q ∈ calls.filterMap r.question, q.nowValid = true
  clocked : Mpubsub.Replay.Clocked (calls.filterMap r.question)

theorem Synced.sublist {r : MulticastPubSub κ} {calls calls' : List (Call κ)}
    (h : Synced r calls') (hsub : calls.Sublist calls') : Synced r calls :=
  have hsub' := hsub.filterMap r.question
  ⟨fun q hq => h.valid q (hsub'.subset hq), h.clocked.sublist hsub'⟩

/-- The packets that the guard accepts in `span`, after `before`. -/
def acceptedSince (r : MulticastPubSub κ) (before span : List (Call κ)) :
    List Mpubsub.Replay.Call :=
  (ReplayGuardT.machine REPLAY_CAPACITY).kept
    ((ReplayGuardT.machine REPLAY_CAPACITY).exec r.replayGuard (before.filterMap r.question))
    (span.filterMap r.question)

/-- What a call offers to the log: nothing if the sender had no clock. -/
def offerOf (r : MulticastPubSub κ) (c : Call κ) : Option (Nat × (UInt32 × Nat)) :=
  (r.question c).bind fun q => if q.timestamp = 0 then none else some (q.now.toNat, q.item)

theorem filterMap_offerOf (r : MulticastPubSub κ) (calls : List (Call κ)) :
    calls.filterMap (offerOf r) = Mpubsub.Replay.offers (calls.filterMap r.question) := by
  unfold Mpubsub.Replay.offers
  induction calls with
  | nil => rfl
  | cons c calls ih =>
    cases hq : r.question c with
    | none =>
      have hoffer : offerOf r c = none := by rw [offerOf, hq]; rfl
      rw [List.filterMap_cons_none hoffer, List.filterMap_cons_none hq, ih]
    | some q =>
      rw [List.filterMap_cons_some hq]
      by_cases hts : q.timestamp = 0
      · have hoffer : offerOf r c = none := by
          rw [offerOf, hq]
          exact if_pos hts
        rw [List.filterMap_cons_none hoffer, List.filter_cons_of_neg (by simp [hts]), ih]
      · have hoffer : offerOf r c = some (q.now.toNat, q.item) := by
          rw [offerOf, hq]
          exact if_neg hts
        rw [List.filterMap_cons_some hoffer, List.filter_cons_of_pos (by simp [hts]),
          List.map_cons, ih]

section Receiver

variable {r : MulticastPubSub κ} {window : UInt32} (hwindow : window ≠ 0)
  (hguard : r.replayGuard = ReplayGuardT.init REPLAY_CAPACITY window)
include hwindow hguard

/-- What the guard accepts in a part of the run is what the log admits there. -/
theorem item_acceptedSince {before span : List (Call κ)} (hsynced : Synced r (before ++ span)) :
    (acceptedSince r before span).map Mpubsub.Replay.Call.item =
      DedupLog.admittedSince window.toNat REPLAY_CAPACITY (before.filterMap (offerOf r))
        (span.filterMap (offerOf r)) := by
  have hboth := (run_eq_log (K := REPLAY_CAPACITY) hwindow hsynced.valid).1
  have hbefore := (run_eq_log (K := REPLAY_CAPACITY) hwindow
    (hsynced.sublist (List.sublist_append_left before span)).valid).1
  rw [← filterMap_offerOf] at hboth hbefore
  rw [List.filterMap_append, List.filterMap_append, DedupLog.admitted_append, ← hbefore, accepted,
    Machine.kept_append, List.map_append] at hboth
  rw [acceptedSince, hguard]
  exact List.append_cancel_left hboth

section Packet

variable {d payload : Bytes} {crc ts nonce : UInt32} {encoding : Encoding}
  (hreceive : r.receive d = some ⟨crc, encoding, payload, some (ts, nonce)⟩)
include hreceive

omit hwindow hguard in
theorem question_packet (clock : Option UInt32) :
    r.question (.event (.packet d clock)) = some ⟨clock.getD 0, clock.isSome, ts, nonce⟩ := by
  show Option.map _ ((r.receive d).bind Received.replay) = _
  rw [hreceive]
  rfl

omit hwindow hguard in
theorem offerOf_packet (hts : ts ≠ 0) (clock : Option UInt32) :
    offerOf r (.event (.packet d clock)) =
      some ((clock.getD 0).toNat, Mpubsub.Replay.item (ts, nonce)) := by
  rw [offerOf, question_packet hreceive]
  exact if_neg hts

/-- A packet is dispatched where the log admits it, and calls nothing elsewhere. -/
theorem invocations_packet (hts : ts ≠ 0) {calls : List (Call κ)} {clock : Option UInt32}
    (hsynced : Synced r (calls ++ [.event (.packet d clock)])) :
    ((publisher.exec r calls).call (.event (.packet d clock))).2.invocations =
      if DedupLog.answer (offerOf r) window.toNat REPLAY_CAPACITY
          (Mpubsub.Replay.item (ts, nonce)) calls (clock.getD 0).toNat then
        (deliver crc encoding payload true (publisher.exec r calls).subscriptions).1
      else [] := by
  have hon : r.replayGuard.enabled = true := by
    rw [hguard]
    exact bne_iff_ne.mpr hwindow
  have hrange : r.replayGuard.InRange := by
    rw [hguard]
    exact ReplayGuardT.init_inRange window
  have hrun : (publisher.exec r calls).replayGuard =
      guardAfter REPLAY_CAPACITY window (calls.filterMap r.question) := by
    rw [replayGuard_exec hrange hon, hguard]
    rfl
  have hsame : SameConfig (publisher.exec r calls) r :=
    Machine.exec_invariant publisher (I := fun node => SameConfig node r)
      (fun node c h => (call_sameConfig node c).trans h) ⟨rfl, rfl, rfl⟩ calls
  have hquestion := question_packet hreceive clock
  have hvalid := hsynced.valid
  rw [List.filterMap_append, List.filterMap_cons_some hquestion] at hvalid
  have hanswer := answer_eq_offer (K := REPLAY_CAPACITY) hwindow hvalid hts
  have hon' : (publisher.exec r calls).replayGuard.enabled = true := by
    rw [hrun, ReplayGuardT.enabled, guardAfter,
      (ReplayGuardT.run_refines REPLAY_CAPACITY window _).2.window_eq]
    exact bne_iff_ne.mpr hwindow
  obtain ⟨-, crc', encoding', payload', hreceive', hcalls⟩ :=
    call_of_question hon' (hsame.question ▸ hquestion)
  rw [hsame.receive, hreceive] at hreceive'
  cases hreceive'
  rw [hcalls, hrun, hanswer, ← filterMap_offerOf]
  rfl

/-- Of the copies of a packet that come in, exactly one is dispatched. -/
theorem taken_once (hts : ts ≠ 0) {before span after : List (Call κ)}
    (hsynced : Synced r (before ++ span ++ after))
    (hunique : ∀ c ∈ before ++ span ++ after, ∀ q, r.question c = some q → q.nonce = nonce →
      ∃ clock, c = .event (.packet d clock))
    (hbefore : ∀ now, .event (.packet d (some now)) ∈ before →
      ¬DedupLog.Fresh window.toNat now.toNat ts.toNat)
    (hspan : ∃ now, .event (.packet d (some now)) ∈ span ∧
      DedupLog.Fresh window.toNat now.toNat ts.toNat)
    (hafter : ∀ now, .event (.packet d (some now)) ∈ after →
      ¬DedupLog.Fresh window.toNat now.toNat ts.toNat)
    (hfew : (((acceptedSince r before span).map Mpubsub.Replay.Call.packet).toFinset.erase
      (ts, nonce)).card < REPLAY_CAPACITY) :
    ∃ ys clock zs, before ++ span ++ after = ys ++ .event (.packet d clock) :: zs ∧
      ((publisher.exec r ys).call (.event (.packet d clock))).2.invocations =
        (deliver crc encoding payload true (publisher.exec r ys).subscriptions).1 ∧
      ∀ ys' clock' zs', before ++ span ++ after = ys' ++ .event (.packet d clock') :: zs' →
        ys'.length ≠ ys.length →
        ((publisher.exec r ys').call (.event (.packet d clock'))).2.invocations = [] := by
  -- A call that bears the nonce is a copy, and the clock is synced when it is opened.
  have hcopy : ∀ c ∈ before ++ span ++ after, ∀ o, offerOf r c = some o → o.2.1 = nonce →
      ∃ now, c = .event (.packet d (some now)) ∧
        o = (now.toNat, Mpubsub.Replay.item (ts, nonce)) := by
    intro c hc o ho hnonce
    obtain ⟨q, hq, hoffer⟩ := Option.bind_eq_some_iff.mp ho
    split at hoffer
    · cases hoffer
    cases hoffer
    obtain ⟨clock, rfl⟩ := hunique c hc q hq hnonce
    have hvalid := hsynced.valid q (List.mem_filterMap.mpr ⟨_, hc, hq⟩)
    rw [question_packet hreceive] at hq
    cases hq
    obtain ⟨now, rfl⟩ := Option.isSome_iff_exists.mp hvalid
    exact ⟨now, rfl, rfl⟩
  have hstale : ∀ part : List (Call κ), (∀ c ∈ part, c ∈ before ++ span ++ after) →
      (∀ now, .event (.packet d (some now)) ∈ part →
        ¬DedupLog.Fresh window.toNat now.toNat ts.toNat) →
      ∀ c ∈ part, ¬DedupLog.InTime (offerOf r) window.toNat
        (Mpubsub.Replay.item (ts, nonce)) c := by
    rintro part hpart hold c hc ⟨when, hoffer, hfresh⟩
    obtain ⟨now, rfl, heq⟩ := hcopy c (hpart c hc) _ hoffer rfl
    cases heq
    exact hold now hc hfresh
  have hclock := hsynced.clocked.offers
  rw [← filterMap_offerOf] at hclock
  have hfew' : ((DedupLog.admittedSince window.toNat REPLAY_CAPACITY
      (before.filterMap (offerOf r)) (span.filterMap (offerOf r))).toFinset.erase
        (Mpubsub.Replay.item (ts, nonce))).card < REPLAY_CAPACITY := by
    rw [← item_acceptedSince hwindow hguard
      (hsynced.sublist (List.sublist_append_left (before ++ span) after))]
    have hcard := card_others_item (acceptedSince r before span) ⟨0, true, ts, nonce⟩
    exact lt_of_eq_of_lt hcard hfew
  obtain ⟨ys, c, zs, when, hsplit, hoffer, hadmitted, hothers⟩ :=
    DedupLog.exists_unique_admission (by decide) hclock
      (fun c hc o ho hnonce => by
        obtain ⟨now, -, rfl⟩ := hcopy c hc o ho hnonce
        rfl)
      (hstale before (fun c hc => by simp [hc]) hbefore)
      (by
        obtain ⟨now, hmem, hfresh⟩ := hspan
        exact ⟨_, hmem, now.toNat, offerOf_packet hreceive hts _, hfresh⟩)
      (hstale after (fun c hc => by simp [hc]) hafter) hfew'
  have hat : ∀ ys' clock' zs', before ++ span ++ after =
      ys' ++ .event (.packet d clock') :: zs' →
      Synced r (ys' ++ [.event (.packet d clock')]) := by
    intro ys' clock' zs' heq
    refine hsynced.sublist ?_
    rw [heq]
    exact List.Sublist.append_left (by simp) _
  obtain ⟨now, rfl, heq⟩ := hcopy c (by simp [hsplit]) _ hoffer rfl
  cases heq
  refine ⟨ys, some now, zs, hsplit, ?_, ?_⟩
  · rw [invocations_packet hwindow hguard hreceive hts (hat ys _ zs hsplit)]
    exact if_pos hadmitted
  · intro ys' clock' zs' hsplit' hne
    rw [invocations_packet hwindow hguard hreceive hts (hat ys' _ zs' hsplit'),
      hothers ys' _ zs' _ hsplit' (offerOf_packet hreceive hts clock') hne]
    rfl

end Packet

end Receiver

/-! ## On the link -/

/-- A packet that the key does not open puts no question to the guard. -/
theorem question_of_unforged {key : Key} {r : MulticastPubSub κ}
    (hr : r.encryptionEnabled = true → r.encryptionKeyBytes = key) {raw : Bytes}
    (hraw : Unforged key raw) (clock : Option UInt32) :
    r.question (.event (.packet raw clock)) = none := by
  have hreceive : (r.receive raw).bind Received.replay = none := by
    unfold MulticastPubSub.receive
    cases hpkt : decode raw with
    | error e => rfl
    | ok pkt =>
      cases hmode : pkt.encMode with
      | NONE =>
        simp only [hmode]
        rfl
      | AEAD =>
        simp only [hmode]
        by_cases hon : r.encryptionEnabled = true
        · rw [hr hon, hraw pkt hpkt hmode]
          split
          · rfl
          split
          · rfl
          · rfl
        · rw [Bool.not_eq_true] at hon
          rw [hon]
          rfl
  exact Option.map_eq_none_iff.mpr hreceive

section Fabric

variable [DecidableEq ι]

/-- The event behind `events` hands a copy of the publication to the node `i`. -/
def CopyAt (start : ι → MulticastPubSub κ) (p : Publication ι) (i : ι)
    (events : List (Medium.Event ι (Call κ) (Option UInt32)))
    (e : Medium.Event ι (Call κ) (Option UInt32)) : Prop :=
  ∃ clock, fabric.input (fabricAfter start events) e =
    some (i, .event (.packet (p.sent start).datagram clock))

/-- The callbacks that the event behind `events` calls. -/
def invocationsAt (start : ι → MulticastPubSub κ)
    (events : List (Medium.Event ι (Call κ) (Option UInt32)))
    (e : Medium.Event ι (Call κ) (Option UInt32)) : List (Invocation κ) :=
  (fabric.step (fabricAfter start events) e).2.elim [] fun output => output.2.invocations

/-- In what the node has taken in, there is a copy of the publication within the window. -/
def TakesInTime (start : ι → MulticastPubSub κ) (p : Publication ι) (window : UInt32)
    (calls : List (Call κ)) : Prop :=
  ∃ now, .event (.packet (p.sent start).datagram (some now)) ∈ calls ∧
    DedupLog.Fresh window.toNat now.toNat (replayTimestamp p.env.clock).toNat

theorem invocationsAt_of_input {start : ι → MulticastPubSub κ}
    {events : List (Medium.Event ι (Call κ) (Option UInt32))}
    {e : Medium.Event ι (Call κ) (Option UInt32)} {i : ι} {c : Call κ}
    (h : fabric.input (fabricAfter start events) e = some (i, c)) :
    invocationsAt start events e =
      ((publisher.exec (start i) (fabric.inputs i ⟨start, []⟩ events)).call c).2.invocations := by
  rw [invocationsAt, Medium.step_of_input h, fabricAfter, Medium.station_exec]
  rfl

/-- **Exactly once.** A sealed publication of the run, with a timestamp, and with a nonce of its
own. The node `i` has the key and replay protection with a `window`, and its clock is synced and
does not go back. Its copies reach `i` within the window in the part `span` of the run only,
at least once there, and the guard accepts less than 64 other packets in `span`. Then one of the
events that bring a copy dispatches the payload to the subscriptions of the topic, and every
other one calls nothing. -/
theorem delivered_once {key : Key} {start : ι → MulticastPubSub κ} (hfresh : ∀ i, Fresh (start i))
    (hkey : ∀ i, (start i).encryptionEnabled = true → (start i).encryptionKeyBytes = key)
    {before span after : List (Medium.Event ι (Call κ) (Option UInt32))} {i : ι}
    (houtsider : ∀ raw clock,
      .call i (.event (.packet raw clock)) ∈ before ++ span ++ after → Unforged key raw)
    {p : Publication ι} (hmade : p.Made start (before ++ span ++ after))
    (hp : (start p.publisher).encryptionEnabled = true) (hts : replayTimestamp p.env.clock ≠ 0)
    (hnonce : ∀ p' : Publication ι, p'.Made start (before ++ span ++ after) →
      (start p'.publisher).encryptionEnabled = true → p'.env.random0 = p.env.random0 → p' = p)
    (hi : (start i).encryptionEnabled = true) {window : UInt32} (hwindow : window ≠ 0)
    (hguard : (start i).replayGuard = ReplayGuardT.init REPLAY_CAPACITY window)
    (hsynced : Synced (start i) (fabric.inputs i ⟨start, []⟩ (before ++ span ++ after)))
    (hbefore : ¬TakesInTime start p window (fabric.inputs i ⟨start, []⟩ before))
    (hspan : TakesInTime start p window (fabric.inputs i (fabricAfter start before) span))
    (hafter : ¬TakesInTime start p window
      (fabric.inputs i (fabricAfter start (before ++ span)) after))
    (hfew : (((acceptedSince (start i) (fabric.inputs i ⟨start, []⟩ before)
      (fabric.inputs i (fabricAfter start before) span)).map
        Mpubsub.Replay.Call.packet).toFinset.erase
          (replayTimestamp p.env.clock, p.env.random0)).card < REPLAY_CAPACITY) :
    ∃ es e fs, before ++ span ++ after = es ++ e :: fs ∧ CopyAt start p i es e ∧
      invocationsAt start es e = (deliver (topicCrc32 p.topic) p.encoding p.payload true
        ((fabricAfter start es).station i).subscriptions).1 ∧
      ∀ es' e' fs', before ++ span ++ after = es' ++ e' :: fs' → CopyAt start p i es' e' →
        es'.length ≠ es.length → invocationsAt start es' e' = [] := by
  have hreceive : (start i).receive (p.sent start).datagram =
      some ⟨topicCrc32 p.topic, p.encoding, p.payload,
        some (replayTimestamp p.env.clock, p.env.random0)⟩ := by
    have h := receive_datagram (r := start i) hmade.size p.env p.topic p.encoding
      fun hon => ⟨hi, (hkey i hi).trans (hkey p.publisher hon).symm⟩
    rwa [if_pos hp] at h
  have hparts : fabric.inputs i ⟨start, []⟩ (before ++ span ++ after) =
      fabric.inputs i ⟨start, []⟩ before ++ fabric.inputs i (fabricAfter start before) span ++
        fabric.inputs i (fabricAfter start (before ++ span)) after := by
    rw [Medium.inputs_append, Medium.inputs_append]
  have hunique : ∀ c ∈ fabric.inputs i ⟨start, []⟩ (before ++ span ++ after), ∀ q,
      (start i).question c = some q → q.nonce = p.env.random0 →
      ∃ clock, c = .event (.packet (p.sent start).datagram clock) := by
    intro c hc q hq hsame
    rcases inputs_published hfresh _ hc with hcall | ⟨p', hmade', clock, rfl⟩
    · -- The outsider cannot seal.
      unfold MulticastPubSub.question at hq
      split at hq
      · rename_i raw clock
        have hnone := question_of_unforged (hkey i) (houtsider raw clock hcall) clock
        exact absurd (hnone.symm.trans hq) (by simp)
      · cases hq
    · have hreceive' := receive_datagram (p := start p'.publisher) (r := start i) hmade'.size
        p'.env p'.topic p'.encoding
        fun hon => ⟨hi, (hkey i hi).trans (hkey p'.publisher hon).symm⟩
      by_cases hon : (start p'.publisher).encryptionEnabled = true
      · rw [if_pos hon] at hreceive'
        have hquestion := question_packet (d := (p'.sent start).datagram) hreceive' clock
        rw [hq] at hquestion
        cases hquestion
        exact ⟨clock, by rw [hnonce p' hmade' hon hsame]⟩
      · rw [if_neg hon] at hreceive'
        obtain ⟨fresh, hreplay, -⟩ := Option.map_eq_some_iff.mp hq
        obtain ⟨received, hreceived, heq⟩ := Option.bind_eq_some_iff.mp hreplay
        have hreceived : (start i).receive ((start p'.publisher).datagram p'.env p'.topic
          p'.payload p'.encoding) = some received := hreceived
        rw [hreceive'] at hreceived
        cases hreceived
        cases heq
  rw [hparts] at hsynced hunique
  obtain ⟨ys, clock, zs, hsplit, hdelivered, hothers⟩ := taken_once hwindow hguard hreceive hts
    hsynced hunique (fun now hmem hin => hbefore ⟨now, hmem, hin⟩) hspan
    (fun now hmem hin => hafter ⟨now, hmem, hin⟩) hfew
  rw [← hparts] at hsplit
  obtain ⟨es, e, fs, hevents, rfl, hin⟩ := Medium.exists_event_of_inputs hsplit
  refine ⟨es, e, fs, hevents, ⟨clock, hin⟩, ?_, ?_⟩
  · rw [invocationsAt_of_input hin, hdelivered, fabricAfter, Medium.station_exec]
    rfl
  · rintro es' e' fs' hevents' ⟨clock', hin'⟩ hne
    rw [invocationsAt_of_input hin']
    have hplace := Medium.inputs_at hin' fs'
    rw [← hevents', hparts] at hplace
    exact hothers _ clock' _ hplace
      (Medium.length_inputs_ne (hevents.symm.trans hevents') hin hin' hne)

end Fabric

/-! ## An example -/

/-- Two nodes with a key and a window of a minute. -/
def guardedPair (_ : Bool) : MulticastPubSub Nat :=
  { socket := true, encryptionEnabled := true,
    replayGuard := ReplayGuardT.init REPLAY_CAPACITY 60 }

/-- A publication of the second one. -/
def stamped : Publication Bool := ⟨true, { random0 := 5, clock := some 1000 }, [116], [7], .RAW⟩

/-- The first one subscribes, the second one publishes. -/
def stampedRun : List (Medium.Event Bool (Call Nat) (Option UInt32)) :=
  [.call false (.event (.subscribe [116] 6 true)), stamped.event]

/-- The datagram arrives at these times. -/
def stampedCopies (clocks : List (Option UInt32)) :
    List (Medium.Event Bool (Call Nat) (Option UInt32)) :=
  clocks.map fun clock => .arrive false 0 clock

theorem inputs_stampedCopies {s : Medium.State Bool (MulticastPubSub Nat) Sent}
    (hs : s.sent = [stamped.sent guardedPair]) (clocks : List (Option UInt32)) :
    fabric.inputs false s (stampedCopies clocks) =
        clocks.map (fun clock => .event (.packet (stamped.sent guardedPair).datagram clock)) ∧
      (fabric.whole.exec s (stampedCopies clocks)).sent = [stamped.sent guardedPair] := by
  induction clocks generalizing s with
  | nil => exact ⟨rfl, hs⟩
  | cons clock clocks ih =>
    have hin : fabric.input s (.arrive false 0 clock) =
        some (false, .event (.packet (stamped.sent guardedPair).datagram clock)) := by
      show s.sent[0]?.map _ = _
      rw [hs]
      rfl
    have hsent : (fabric.step s (.arrive false 0 clock)).1.sent =
        [stamped.sent guardedPair] := by
      rw [Medium.step_of_input hin]
      show s.sent ++ [] = _
      rw [hs]
      rfl
    obtain ⟨hinputs, hlast⟩ := ih hsent
    refine ⟨?_, hlast⟩
    show fabric.inputs false s (.arrive false 0 clock :: stampedCopies clocks) = _
    rw [Medium.inputs_of_input hin, if_pos rfl, hinputs]
    rfl

theorem questions_stampedCopies (clocks : List (Option UInt32)) :
    (clocks.map fun clock =>
      (.event (.packet (stamped.sent guardedPair).datagram clock) : Call Nat)).filterMap
        (guardedPair false).question =
      clocks.map fun clock => ⟨clock.getD 0, clock.isSome, 1000, 5⟩ := by
  have hsize : stamped.payload.length ≤ (guardedPair true).effectiveMax := by decide
  have hreceive := receive_datagram (r := guardedPair false) hsize stamped.env [116] .RAW
    fun _ => ⟨rfl, rfl⟩
  have hquestion : ∀ clock, (guardedPair false).question
      (.event (.packet (stamped.sent guardedPair).datagram clock)) =
      some ⟨clock.getD 0, clock.isSome, 1000, 5⟩ := question_packet hreceive
  induction clocks with
  | nil => rfl
  | cons clock clocks ih =>
    rw [List.map_cons, List.filterMap_cons_some (hquestion clock), ih]
    rfl

/-- `delivered_once` for three copies, the last one of them out of the window. -/
theorem delivered_once_stamped :
    ∃ es e fs, stampedRun ++ stampedCopies [some 1001, some 1002] ++ stampedCopies [some 2000] =
        es ++ e :: fs ∧ CopyAt guardedPair stamped false es e ∧
      invocationsAt guardedPair es e = (deliver (topicCrc32 [116]) .RAW [7] true
        ((fabricAfter guardedPair es).station false).subscriptions).1 ∧
      ∀ es' e' fs', stampedRun ++ stampedCopies [some 1001, some 1002] ++
          stampedCopies [some 2000] = es' ++ e' :: fs' → CopyAt guardedPair stamped false es' e' →
        es'.length ≠ es.length → invocationsAt guardedPair es' e' = [] := by
  have hsent : (fabricAfter guardedPair stampedRun).sent = [stamped.sent guardedPair] := rfl
  have hbefore : fabric.inputs false ⟨guardedPair, []⟩ stampedRun =
    [.event (.subscribe [116] 6 true)] := rfl
  obtain ⟨hspan, hsent'⟩ := inputs_stampedCopies hsent [some 1001, some 1002]
  rw [fabricAfter, ← Machine.exec_append] at hsent'
  have hafter := (inputs_stampedCopies hsent' [some 2000]).1
  refine @delivered_once Nat Bool _ (Vector.replicate 32 0) guardedPair
    (fun _ => ⟨rfl, rfl, rfl, 60, rfl⟩) (fun _ _ => rfl) stampedRun
    (stampedCopies [some 1001, some 1002]) (stampedCopies [some 2000]) false
    (fun raw clock h => by simp [stampedRun, stampedCopies, Publication.event] at h) stamped
    ⟨by simp [stampedRun], by decide⟩ rfl (by decide) ?_ rfl 60 (by decide) rfl ?_ ?_ ?_ ?_ ?_
  · rintro ⟨publisher, env, topic, payload, encoding⟩ ⟨hmem, -⟩ - -
    simpa [stampedRun, stampedCopies, Publication.event, stamped] using hmem
  · rw [Medium.inputs_append, Medium.inputs_append, hbefore, hspan, hafter]
    have hquestions : ([.event (.subscribe [116] 6 true)] : List (Call Nat)).filterMap
      (guardedPair false).question = [] := rfl
    constructor
    · rw [List.filterMap_append, List.filterMap_append, hquestions, questions_stampedCopies,
        questions_stampedCopies]
      decide
    · rw [List.filterMap_append, List.filterMap_append, hquestions, questions_stampedCopies,
        questions_stampedCopies]
      unfold Mpubsub.Replay.Clocked
      decide
  · rw [hbefore]
    rintro ⟨now, hmem, -⟩
    simp at hmem
  · rw [hspan]
    exact ⟨1001, by simp, by decide⟩
  · rw [hafter]
    rintro ⟨now, hmem, hin⟩
    have hnow : now = 2000 := by simpa using hmem
    rw [hnow] at hin
    exact absurd hin (by decide)
  · rw [hbefore, hspan]
    unfold acceptedSince
    rw [questions_stampedCopies]
    decide +kernel

end Mpubsub.Theorems
