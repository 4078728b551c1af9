import Mpubsub.Node.Run

/-!
# Unauthenticated and replayed traffic

A datagram that does not open moves counters and nothing else. One that opens and
that the guard refuses can cost the guard entries, but only stale ones
(`onPacket_of_refused`). So a run of such datagrams leaves every entry in the guard
that was fresh all the time (`leaves_no_trace`).
-/

namespace Mpubsub.Theorems

open Mpubsub.Lib Mpubsub.Wire Mpubsub.Node Mpubsub.Node.MulticastPubSub
open Mpubsub.Replay (ReplayGuardT)

variable {κ : Type} {node : MulticastPubSub κ} {raw : Bytes}

/-- The datagram fails `decode`, or it is encrypted and does not open. -/
inductive Unauthentic (node : MulticastPubSub κ) (raw : Bytes) : Prop where
  | malformed (e : DecodeError) (hdecode : decode raw = .error e)
  | noKey (pkt : DecodedPacket) (hdecode : decode raw = .ok pkt) (hmode : pkt.encMode = .AEAD)
      (hkey : node.encryptionEnabled = false)
  | forged (pkt : DecodedPacket) (hdecode : decode raw = .ok pkt) (hmode : pkt.encMode = .AEAD)
      (hopen : openBody node.encryptionKeyBytes (raw.take HEADER_LEN) pkt.payload = none)

/-- The datagram is encrypted under the key of the node, with this timestamp and nonce. -/
def Authentic (node : MulticastPubSub κ) (raw : Bytes) (ts rnonce : UInt32) : Prop :=
  ∃ pkt plain, decode raw = .ok pkt ∧ pkt.encMode = .AEAD ∧ node.encryptionEnabled = true ∧
    openBody node.encryptionKeyBytes (raw.take HEADER_LEN) pkt.payload = some plain ∧
    ts = loadU32leAt plain 4 ∧ rnonce = loadU32leAt (pkt.payload.take AEAD_NONCE_LEN) 0

theorem Unauthentic.receive_eq_none (h : Unauthentic node raw) : node.receive raw = none := by
  unfold receive
  cases h with
  | malformed e hdecode => rw [hdecode]
  | noKey pkt hdecode hmode hkey => simp only [hdecode, hmode, hkey, Bool.not_false, if_true]
  | forged pkt hdecode hmode hopen =>
    simp only [hdecode, hmode, hopen, Option.map_none]
    split
    · rfl
    split
    · rfl
    · rfl

/-- An authentic datagram gets to the guard, unless it is longer than any datagram. -/
theorem Authentic.receive {ts rnonce : UInt32} (h : Authentic node raw ts rnonce) :
    node.receive raw = none ∨
      ∃ crc encoding payload, node.receive raw = some ⟨crc, encoding, payload, some (ts, rnonce)⟩ := by
  obtain ⟨pkt, plain, hdecode, hmode, hkey, hopen, rfl, rfl⟩ := h
  simp only [MulticastPubSub.receive, hdecode, hmode, hkey, hopen, Bool.not_true,
    Bool.false_eq_true, if_false, Option.map_some]
  split
  · exact .inl rfl
  · exact .inr ⟨_, _, _, rfl⟩

/-! ## What a refusal costs the guard -/

/-- The guard has lost its first entries, and each was stale at the time on the clock. -/
def ShedsStale (clock : Option UInt32) (g g' : ReplayGuardT REPLAY_CAPACITY) : Prop :=
  ∃ dropped, g.log = dropped ++ g'.log ∧
    ∀ e ∈ dropped, ∃ now, clock = some now ∧ DedupLog.Stale g.window.toNat now.toNat e.2

theorem ShedsStale.refl (clock : Option UInt32) (g : ReplayGuardT REPLAY_CAPACITY) :
    ShedsStale clock g g :=
  ⟨[], rfl, fun _ h => by cases h⟩

/-- A guard that is on refuses a packet that it remembers. -/
theorem refused_of_remembered {g : ReplayGuardT REPLAY_CAPACITY} (hg : g.InRange)
    (hon : g.enabled = true) {ts rnonce : UInt32} (hmem : (rnonce, ts.toNat) ∈ g.log)
    (clock : Option UInt32) : (replayCheck g clock ts rnonce).2 = false := by
  have hwindow : g.window ≠ 0 := by simpa [ReplayGuardT.enabled] using hon
  unfold replayCheck
  rw [if_pos hon]
  obtain ⟨heq, -, -⟩ := ReplayGuardT.accept_refines hg
    ⟨clock.getD 0, clock.isSome, ts, rnonce⟩ rfl
  exact (congrArg Prod.snd heq).trans (Replay.refused_of_mem hwindow hmem)

/-- A refusal costs the guard stale entries only. -/
theorem shedsStale_of_refused {g : ReplayGuardT REPLAY_CAPACITY} (hg : g.InRange)
    {clock : Option UInt32} {ts rnonce : UInt32}
    (hrefused : (replayCheck g clock ts rnonce).2 = false) :
    ShedsStale clock g (replayCheck g clock ts rnonce).1 := by
  unfold replayCheck at hrefused ⊢
  cases hon : g.enabled with
  | false =>
    rw [hon] at hrefused
    cases hrefused
  | true =>
    rw [hon, if_pos rfl] at hrefused
    rw [if_pos rfl]
    obtain ⟨heq, -, -⟩ := ReplayGuardT.accept_refines hg
      ⟨clock.getD 0, clock.isSome, ts, rnonce⟩ rfl
    obtain ⟨hlog, hanswer⟩ := Prod.mk.inj heq
    obtain ⟨dropped, hsplit, hstale⟩ := Replay.sheds_of_refused (hanswer ▸ hrefused)
    refine ⟨dropped, hlog ▸ hsplit, ?_⟩
    intro e he
    obtain ⟨hvalid, hstale⟩ := hstale e he
    cases clock with
    | none => cases hvalid
    | some now => exact ⟨now, rfl, hstale⟩

/-! ## What it costs the node -/

/-- A datagram that does not open moves counters only. -/
theorem onPacket_of_unauthentic (h : Unauthentic node raw) (clock : Option UInt32) :
    ∃ received failed, node.onPacket raw clock =
      ({ node with packetsReceived := received, verifyFailed := failed }, []) :=
  onPacket_of_receive_none h.receive_eq_none clock

/-- An authentic datagram that the guard refuses calls nothing, and costs the guard stale
entries only. -/
theorem onPacket_of_refused (hguard : node.replayGuard.InRange) {ts rnonce : UInt32}
    (h : Authentic node raw ts rnonce) {clock : Option UInt32}
    (hrefused : (replayCheck node.replayGuard clock ts rnonce).2 = false) :
    ∃ replayGuard received ok failed, node.onPacket raw clock =
      ({ node with
          replayGuard := replayGuard
          packetsReceived := received
          verifyOk := ok
          verifyFailed := failed }, []) ∧
      ShedsStale clock node.replayGuard replayGuard := by
  rcases h.receive with hnone | ⟨crc, encoding, payload, hsome⟩
  · obtain ⟨received, failed, heq⟩ := onPacket_of_receive_none hnone clock
    exact ⟨node.replayGuard, received, node.verifyOk, failed, heq, .refl clock _⟩
  · obtain ⟨received, ok, heq⟩ := onPacket_of_receive_aead hsome clock
    rw [hrefused] at heq
    exact ⟨_, received, ok, node.verifyFailed, heq, shedsStale_of_refused hguard hrefused⟩

/-! ## Runs -/

/-- A datagram that brings the node nothing new: it is no packet, it is forged, it is in the
clear, or the guard remembers or refuses it. -/
inductive Futile (node : MulticastPubSub κ) (raw : Bytes) (clock : Option UInt32) : Prop where
  | unauthentic (h : Unauthentic node raw)
  | plaintext (pkt : DecodedPacket) (hdecode : decode raw = .ok pkt) (hmode : pkt.encMode = .NONE)
  | remembered (ts rnonce : UInt32) (h : Authentic node raw ts rnonce)
      (hmem : (rnonce, ts.toNat) ∈ node.replayGuard.log)
  | refused (ts rnonce : UInt32) (h : Authentic node raw ts rnonce)
      (hrefused : (replayCheck node.replayGuard clock ts rnonce).2 = false)

/-- The datagrams of the run are futile where they arrive. -/
def FutileTraffic (node : MulticastPubSub κ) (e : Event κ) : Prop :=
  ∀ raw clock, e = .packet raw clock → Futile node raw clock

theorem onPacket_of_futile (hguard : node.replayGuard.InRange) {clock : Option UInt32}
    (h : Futile node raw clock) :
    ShedsStale clock node.replayGuard (node.onPacket raw clock).1.replayGuard := by
  cases h with
  | unauthentic h =>
    obtain ⟨_, _, heq⟩ := onPacket_of_unauthentic h clock
    rw [heq]
    exact .refl clock _
  | plaintext pkt hdecode hmode =>
    have hplain : node.receive raw = some ⟨pkt.topicCrc, pkt.encoding, pkt.payload, none⟩ := by
      simp only [receive, hdecode, hmode]
    obtain ⟨_, _, _, heq⟩ := onPacket_of_receive_plain hplain clock
    rw [heq]
    exact .refl clock _
  | refused ts rnonce h hrefused =>
    obtain ⟨_, _, _, _, heq, hsheds⟩ := onPacket_of_refused hguard h hrefused
    rw [heq]
    exact hsheds
  | remembered ts rnonce h hmem =>
    cases hon : node.replayGuard.enabled with
    | true =>
      obtain ⟨_, _, _, _, heq, hsheds⟩ :=
        onPacket_of_refused hguard h (refused_of_remembered hguard hon hmem clock)
      rw [heq]
      exact hsheds
    | false =>
      -- A guard that is off is not asked.
      rcases h.receive with hnone | ⟨crc, encoding, payload, hsome⟩
      · obtain ⟨_, _, heq⟩ := onPacket_of_receive_none hnone clock
        rw [heq]
        exact .refl clock _
      · obtain ⟨_, _, heq⟩ := onPacket_of_receive_aead hsome clock
        rw [heq, replayCheck, hon]
        exact .refl clock _

/-- A packet leaves the guard in range, with its window. -/
theorem replayGuard_onPacket (hguard : node.replayGuard.InRange) (raw : Bytes)
    (clock : Option UInt32) :
    (node.onPacket raw clock).1.replayGuard.InRange ∧
      (node.onPacket raw clock).1.replayGuard.window = node.replayGuard.window := by
  obtain ⟨replayGuard, _, _, _, heq, hcases⟩ := node.onPacket_frame raw clock
  rw [heq]
  rcases hcases with rfl | ⟨now, nowValid, ts, rnonce, rfl⟩
  · exact ⟨hguard, rfl⟩
  · exact (ReplayGuardT.accept_refines hguard ⟨now, nowValid, ts, rnonce⟩ rfl).2

/-- A call that brings no datagram leaves the guard alone. -/
theorem replayGuard_step (node : MulticastPubSub κ) {e : Event κ}
    (h : ∀ raw clock, e ≠ .packet raw clock) : (node.step e).1.replayGuard = node.replayGuard := by
  cases e with
  | subscribe topic cb requireEncryption => rfl
  | subscribeTyped topic schemaId cb requireEncryption => rfl
  | publish env topic payload encoding =>
    obtain ⟨_, _, _, heq⟩ := node.publish_frame env topic payload encoding
    show (node.publish env topic payload encoding).1.replayGuard = node.replayGuard
    rw [heq]
  | packet raw clock => exact absurd rfl (h raw clock)
  | timeout sendOk i =>
    obtain ⟨_, _, heq⟩ := node.fireTimeout_frame sendOk i
    show (node.fireTimeout sendOk i).1.replayGuard = node.replayGuard
    rw [heq]

/-- Along a run of futile traffic the guard loses entries that some datagram found stale. -/
theorem sheds_of_futileTraffic (hguard : node.replayGuard.InRange) {events : List (Event κ)}
    (h : machine.Along FutileTraffic node events) :
    ∃ dropped, node.replayGuard.log = dropped ++ (machine.exec node events).replayGuard.log ∧
      ∀ e ∈ dropped, ∃ raw now, Event.packet raw (some now) ∈ events ∧
        DedupLog.Stale node.replayGuard.window.toNat now.toNat e.2 := by
  induction events generalizing node with
  | nil => exact ⟨[], rfl, fun _ he => by cases he⟩
  | cons event events ih =>
    obtain ⟨hevent, hevents⟩ := h
    rw [Machine.exec_cons]
    have hstep : (machine.step node event).1 = (node.step event).1 := rfl
    rw [hstep] at hevents ⊢
    by_cases hpacket : ∃ raw clock, event = .packet raw clock
    · obtain ⟨raw, clock, rfl⟩ := hpacket
      obtain ⟨hnext, hwindow⟩ := replayGuard_onPacket hguard raw clock
      obtain ⟨first, hfirst, hfirstStale⟩ := onPacket_of_futile hguard (hevent raw clock rfl)
      obtain ⟨later, hlater, hlaterStale⟩ := ih hnext hevents
      refine ⟨first ++ later, ?_, ?_⟩
      · rw [hfirst, List.append_assoc]
        exact congrArg (first ++ ·) hlater
      · intro e he
        rcases List.mem_append.mp he with he | he
        · obtain ⟨now, rfl, hstale⟩ := hfirstStale e he
          exact ⟨raw, now, List.mem_cons_self, hstale⟩
        · obtain ⟨raw', now, hmem, hstale⟩ := hlaterStale e he
          refine ⟨raw', now, List.mem_cons_of_mem _ hmem, ?_⟩
          rw [← hwindow]
          exact hstale
    · have hsame := replayGuard_step node fun raw clock heq => hpacket ⟨raw, clock, heq⟩
      obtain ⟨later, hlater, hlaterStale⟩ := ih (hsame ▸ hguard) hevents
      rw [hsame] at hlater hlaterStale
      refine ⟨later, hlater, ?_⟩
      intro e he
      obtain ⟨raw, now, hmem, hstale⟩ := hlaterStale e he
      exact ⟨raw, now, List.mem_cons_of_mem _ hmem, hstale⟩

/-- A datagram that does not open moves counters only, in every state of the node. One that
opens and that the guard refuses calls nothing and costs the guard entries older than the window
at most, and no run of futile traffic makes the guard forget an entry that no datagram of the
run found stale, where the ring is in range (as it is in every reachable state). -/
theorem leaves_no_trace (node : MulticastPubSub κ) :
    (∀ raw clock, Unauthentic node raw →
      ∃ received failed, node.onPacket raw clock =
        ({ node with packetsReceived := received, verifyFailed := failed }, [])) ∧
    (node.replayGuard.InRange → ∀ raw clock ts rnonce, Authentic node raw ts rnonce →
      (replayCheck node.replayGuard clock ts rnonce).2 = false →
      ∃ replayGuard received ok failed, node.onPacket raw clock =
        ({ node with
            replayGuard := replayGuard
            packetsReceived := received
            verifyOk := ok
            verifyFailed := failed }, []) ∧
        ShedsStale clock node.replayGuard replayGuard) ∧
    (node.replayGuard.InRange → ∀ events : List (Event κ),
      machine.Along FutileTraffic node events → ∀ e ∈ node.replayGuard.log,
        (∀ raw now, Event.packet raw (some now) ∈ events →
          ¬DedupLog.Stale node.replayGuard.window.toNat now.toNat e.2) →
        e ∈ (machine.exec node events).replayGuard.log) := by
  refine ⟨?_, ?_, ?_⟩
  · intro raw clock h
    exact onPacket_of_unauthentic h clock
  · intro hguard raw clock ts rnonce h hrefused
    exact onPacket_of_refused hguard h hrefused
  · intro hguard events hfutile e he hfresh
    obtain ⟨dropped, hsplit, hstale⟩ := sheds_of_futileTraffic hguard hfutile
    rw [hsplit] at he
    rcases List.mem_append.mp he with he | he
    · obtain ⟨raw, now, hmem, hstale⟩ := hstale e he
      exact absurd hstale (hfresh raw now hmem)
    · exact he

/-- A node with a key whose guard remembers one packet, with nonce 7 and stamped 100. -/
def remembering : MulticastPubSub Unit :=
  { encryptionEnabled := true
    encryptionKeyBytes := Vector.replicate 32 0
    replayGuard := ((ReplayGuardT.init REPLAY_CAPACITY 30).accept 100 true 100 7).1 }

/-- What follows the header in that packet, whose payload is the byte 1, but for the last byte of
the tag. -/
def sealedBody : Bytes :=
  [7, 0, 0, 0, 0, 0, 0, 0, 0, 0, 0, 0, 199, 116, 155, 63, 81, 9, 10, 97, 185, 164, 177, 33, 50,
    254, 187, 110, 12, 172, 124, 105, 0, 172, 4, 100]

/-- The packet, and the packet with another tag. -/
def replayedCopy : Bytes := encodeHeader 0 .RAW 1 .AEAD ++ (sealedBody ++ [219])

def forgedCopy : Bytes := encodeHeader 0 .RAW 1 .AEAD ++ (sealedBody ++ [0])

theorem unauthentic_forged : Unauthentic remembering forgedCopy :=
  .forged _ rfl rfl (by decide +kernel)

theorem authentic_replayed : Authentic remembering replayedCopy 100 7 := by
  have hopen : openBody remembering.encryptionKeyBytes (replayedCopy.take HEADER_LEN)
      (sealedBody ++ [219]) = some [168, 90, 106, 133, 100, 0, 0, 0, 1] := by decide +kernel
  exact ⟨_, _, rfl, rfl, rfl, hopen, rfl, rfl⟩

/-- `leaves_no_trace` for a forged datagram and one that is replayed 10 seconds later. -/
theorem leaves_no_trace_replayed :
    (remembering.onPacket forgedCopy (some 105)).2 = [] ∧
      (remembering.onPacket replayedCopy (some 110)).2 = [] ∧
      (7, 100) ∈ (machine.exec remembering
        [.packet forgedCopy (some 105), .packet replayedCopy (some 110)]).replayGuard.log := by
  have hguard : remembering.replayGuard.InRange :=
    (ReplayGuardT.accept_refines (ReplayGuardT.init_inRange 30) ⟨100, true, 100, 7⟩ rfl).2.1
  obtain ⟨hcounters, hrefusal, hrun⟩ := leaves_no_trace remembering
  obtain ⟨received, failed, hforged⟩ := hcounters forgedCopy (some 105) unauthentic_forged
  obtain ⟨_, _, _, _, hreplayed, -⟩ := hrefusal hguard replayedCopy (some 110) 100 7
    authentic_replayed (by decide)
  have hstep (node : MulticastPubSub Unit) (raw : Bytes) (clock : Option UInt32) :
      (machine.step node (.packet raw clock)).1 = (node.onPacket raw clock).1 := rfl
  have hremembered : (7, (100 : UInt32).toNat) ∈ remembering.replayGuard.log := by decide
  have hfutile : machine.Along FutileTraffic remembering
      [.packet forgedCopy (some 105), .packet replayedCopy (some 110)] := by
    refine ⟨?_, ?_, trivial⟩
    · intro raw clock heq
      cases heq
      exact .unauthentic unauthentic_forged
    · intro raw clock heq
      cases heq
      rw [hstep, hforged]
      exact .remembered 100 7 authentic_replayed hremembered
  refine ⟨by rw [hforged], by rw [hreplayed], hrun hguard _ hfutile _ hremembered ?_⟩
  intro raw now hmem
  simp only [List.mem_cons, Event.packet.injEq, Option.some.injEq, List.not_mem_nil,
    or_false] at hmem
  rcases hmem with ⟨-, rfl⟩ | ⟨-, rfl⟩ <;> decide

end Mpubsub.Theorems
