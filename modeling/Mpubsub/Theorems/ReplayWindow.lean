import Mpubsub.Replay.Cpp

/-!
# What a run of `ReplayGuardT` accepts

With the window on, the clock synced and not going back, the guard's decisions
are those of a de-duplication log over the calls that carry a timestamp
(`run_eq_log`). The exact decision over whole runs follows
(`replay_decision`), and that nothing is accepted twice as long as the live
packets fit the ring and no live entry is overwritten while the ring still
holds a stale one (`accepted_nodup_of_fits`).
-/

namespace Mpubsub.Theorems

open Mpubsub.Lib Mpubsub.Replay

section Run

variable {K : Nat} [NeZero K] {window : UInt32} {calls : List Call}

/-- The calls accepted by a freshly started guard, in order. -/
def accepted (K : Nat) [NeZero K] (window : UInt32) (calls : List Call) : List Call :=
  (ReplayGuardT.machine K).kept (ReplayGuardT.init K window) calls

/-- The guard after the calls. -/
def guardAfter (K : Nat) [NeZero K] (window : UInt32) (calls : List Call) : ReplayGuardT K :=
  (ReplayGuardT.machine K).exec (ReplayGuardT.init K window) calls

/-- The guard's run is a run of the de-duplication log. -/
theorem run_eq_log (hwindow : window ≠ 0) (hvalid : ∀ c ∈ calls, c.nowValid = true) :
    (accepted K window calls).map Call.item =
        DedupLog.admitted window.toNat K (offers calls) ∧
      (guardAfter K window calls).log = DedupLog.logAfter window.toNat K (offers calls) := by
  obtain ⟨htrace, hrefines⟩ := ReplayGuardT.run_refines K window calls
  obtain ⟨hexec, hkept⟩ := exec_eq_offers (K := K) hwindow hvalid []
  refine ⟨?_, hrefines.log_eq.trans hexec⟩
  rw [accepted, Machine.kept_eq_of_trace_eq htrace, hkept]
  rfl

/-- The answer to one more call is the abstract guard's. -/
theorem answer_eq_accept (c : Call) :
    ((guardAfter K window calls).accept c.now c.nowValid c.timestamp c.nonce).2 =
      (Replay.accept window K (guardAfter K window calls).log c).2 := by
  have hrefines := (ReplayGuardT.run_refines K window calls).2
  have heq := (ReplayGuardT.accept_refines hrefines.inRange c rfl).1
  rw [hrefines.window_eq] at heq
  exact congrArg Prod.snd heq

/-- A call that carries a timestamp is answered as the log answers its item. -/
theorem answer_eq_offer (hwindow : window ≠ 0) {c : Call}
    (hvalid : ∀ d ∈ calls ++ [c], d.nowValid = true) (hts : c.timestamp ≠ 0) :
    ((guardAfter K window calls).accept c.now c.nowValid c.timestamp c.nonce).2 =
      (DedupLog.offer window.toNat K (DedupLog.logAfter window.toNat K (offers calls))
        c.now.toNat c.item).2 := by
  have hbefore : ∀ d ∈ calls, d.nowValid = true := fun d hd => hvalid d (by simp [hd])
  rw [answer_eq_accept, accept_of_valid hwindow (hvalid c (by simp)) hts,
    (run_eq_log hwindow hbefore).2]

/-- Other packets are other items. -/
theorem card_others_item (cs : List Call) (c : Call) :
    ((cs.map Call.item).toFinset.erase c.item).card =
      ((cs.map Call.packet).toFinset.erase c.packet).card := by
  have himage : (cs.map Call.item).toFinset = (cs.map Call.packet).toFinset.image item := by
    ext e
    simp only [List.mem_toFinset, Finset.mem_image, List.mem_map, exists_exists_and_eq_and]
    rfl
  rw [himage, show c.item = item c.packet from rfl, ← Finset.image_erase item_injective,
    Finset.card_image_of_injective _ item_injective]

end Run

/-- The decision of the guard at any point of a run: its indices are in range;
a packet accepted before is rejected until `K` other packets have been accepted
after it; and a fresh packet whose nonce is not among those of the last `K`
accepted ones is accepted. -/
theorem replay_decision {K : Nat} [NeZero K] {window : UInt32} (hwindow : window ≠ 0)
    {calls : List Call} {c : Call} (hvalid : ∀ d ∈ calls ++ [c], d.nowValid = true)
    (hclock : Clocked (calls ++ [c])) :
    let g := guardAfter K window calls
    (g.head < K ∧ g.count ≤ K) ∧
    (∀ before a between, accepted K window calls = before ++ a :: between →
      a.packet = c.packet →
      ((between.map Call.packet).toFinset.erase c.packet).card < K →
      (g.accept c.now c.nowValid c.timestamp c.nonce).2 = false) ∧
    (c.timestamp ≠ 0 →
      ((c.now.toNat : Int) - c.timestamp.toNat).natAbs ≤ window.toNat →
      (∀ a ∈ (accepted K window calls).rtake K, a.nonce ≠ c.nonce) →
      (g.accept c.now c.nowValid c.timestamp c.nonce).2 = true) := by
  have hK : 0 < K := Nat.pos_of_neZero K
  have hvalid' : ∀ d ∈ calls, d.nowValid = true := fun d hd => hvalid d (by simp [hd])
  obtain ⟨hadm, -⟩ := run_eq_log (K := K) hwindow hvalid'
  have hrefines := (ReplayGuardT.run_refines K window calls).2
  refine ⟨⟨hrefines.inRange.head_lt, hrefines.inRange.count_le⟩, ?_, ?_⟩
  · intro before a between hsplit hsame hfew
    by_cases hts : c.timestamp = 0
    · rw [answer_eq_accept, accept_of_no_timestamp hwindow hts]
    rw [answer_eq_offer hwindow hvalid hts]
    have hclock' := hclock.offers
    rw [offers_concat hts] at hclock'
    have hitem : a.item = c.item := congrArg item hsame
    have hhist : DedupLog.admitted window.toNat K (offers calls) =
        before.map Call.item ++ c.item :: between.map Call.item := by
      rw [← hadm, hsplit, List.map_append, List.map_cons, hitem]
    exact DedupLog.refuses_until_displaced hK hclock' hhist (by rwa [card_others_item])
  · intro hts hskew hnew
    rw [answer_eq_offer hwindow hvalid hts]
    have hclock' := hclock.offers
    rw [offers_concat hts] at hclock'
    refine DedupLog.admits_unseen hK hclock' ?_ ?_
    · show DedupLog.Fresh window.toNat c.now.toNat c.timestamp.toNat
      unfold DedupLog.Fresh
      omega
    · rw [← hadm]
      intro e he
      rw [List.rtake, ← List.map_drop, List.length_map] at he
      obtain ⟨a, ha, rfl⟩ := List.mem_map.mp he
      exact hnew a ha

/-- `replay_decision` for a ring of two entries in which the first packet has been
displaced by two others: it is accepted anew, the last one is rejected. -/
theorem replay_decision_displaced :
    let calls : List Call := [⟨100, true, 100, 1⟩, ⟨101, true, 101, 2⟩, ⟨102, true, 102, 3⟩]
    ((guardAfter 2 10 calls).accept 103 true 102 3).2 = false ∧
      ((guardAfter 2 10 calls).accept 103 true 100 1).2 = true :=
  ⟨(@replay_decision 2 _ 10 (by decide)
      [⟨100, true, 100, 1⟩, ⟨101, true, 101, 2⟩, ⟨102, true, 102, 3⟩]
      ⟨103, true, 102, 3⟩ (by decide) (by unfold Clocked; decide)).2.1
      [⟨100, true, 100, 1⟩, ⟨101, true, 101, 2⟩] ⟨102, true, 102, 3⟩ [] (by decide) (by decide)
      (by decide),
    (@replay_decision 2 _ 10 (by decide)
      [⟨100, true, 100, 1⟩, ⟨101, true, 101, 2⟩, ⟨102, true, 102, 3⟩]
      ⟨103, true, 100, 1⟩ (by decide) (by unfold Clocked; decide)).2.2
      (by decide) (by decide) (by decide)⟩

/-! ## Live sets that fit the ring -/

/-- After every call, at most `K` of the packets accepted so far are fresh. -/
def LiveFits (K : Nat) [NeZero K] (window : UInt32) (calls : List Call) : Prop :=
  ∀ ds ∈ calls.inits, ∀ c ∈ ds.getLast?,
    (((accepted K window ds).map Call.packet).toFinset.filter fun p =>
      DedupLog.Fresh window.toNat c.now.toNat p.1.toNat).card ≤ K

/-- The call is accepted into a full ring with a live entry at `head_` and a
stale one behind it, so that a live entry is overwritten. -/
def EvictsLive {K : Nat} [NeZero K] (g : ReplayGuardT K) (c : Call) : Prop :=
  DedupLog.DropsLive g.window.toNat K g.log (c.now.toNat, c.item)

instance {K : Nat} [NeZero K] (g : ReplayGuardT K) (c : Call) : Decidable (EvictsLive g c) :=
  inferInstanceAs (Decidable (DedupLog.DropsLive ..))

theorem fits_of_liveFits {K : Nat} [NeZero K] {window : UInt32} (hwindow : window ≠ 0)
    {calls : List Call} (hvalid : ∀ c ∈ calls, c.nowValid = true)
    (hts : ∀ c ∈ calls, c.timestamp ≠ 0) (hfits : LiveFits K window calls) :
    DedupLog.Fits window.toNat K (offers calls) := by
  intro ys x zs hsplit
  have hoffers : ∀ ds : List Call, (∀ d ∈ ds, d.timestamp ≠ 0) →
      offers ds = ds.map fun c => (c.now.toNat, c.item) := fun ds hds => by
    rw [offers, List.filter_eq_self.mpr (by simpa using hds)]
  rw [hoffers calls hts] at hsplit
  obtain ⟨ds, rest, rfl, hds, hrest⟩ := List.map_eq_append_iff.mp hsplit
  obtain ⟨c, es, rfl, rfl, -⟩ := List.map_eq_cons_iff.mp hrest
  have hmem : ds ++ [c] ∈ (ds ++ c :: es).inits := by simp
  have hsub : ∀ d ∈ ds ++ [c], d ∈ ds ++ c :: es := by simp; tauto
  have hle := hfits _ hmem c (by simp)
  rw [← hds, show (ds.map fun c => (c.now.toNat, c.item)) ++ [(c.now.toNat, c.item)] =
      offers (ds ++ [c]) by rw [hoffers _ fun d hd => hts d (hsub d hd)]; simp,
    ← (run_eq_log hwindow fun d hd => hvalid d (hsub d hd)).1]
  refine le_trans (le_of_eq ?_) hle
  rw [← Finset.card_image_of_injective _ item_injective]
  congr 1
  ext e
  simp only [Finset.mem_filter, List.mem_toFinset, List.mem_map, Finset.mem_image]
  constructor
  · rintro ⟨⟨a, ha, rfl⟩, hfresh⟩
    exact ⟨a.packet, ⟨⟨a, ha, rfl⟩, hfresh⟩, rfl⟩
  · rintro ⟨-, ⟨⟨a, ha, rfl⟩, hfresh⟩, rfl⟩
    exact ⟨⟨a, ha, rfl⟩, hfresh⟩

/-- Two packets stamped five seconds ahead and ten seconds behind fill the ring
together with a third; a second later the one ahead is overwritten although the
others are stale, and is accepted again. -/
theorem accepted_twice_behind_stale :
    ¬∀ (K : Nat) [NeZero K] (window : UInt32) (calls : List Call), window ≠ 0 →
      (∀ c ∈ calls, c.nowValid = true) → (∀ c ∈ calls, c.timestamp ≠ 0) → Clocked calls →
      LiveFits K window calls → ((accepted K window calls).map Call.packet).Nodup := by
  intro h
  have hdup := h 3 10 [⟨100, true, 105, 1⟩, ⟨100, true, 90, 2⟩, ⟨100, true, 90, 4⟩,
    ⟨101, true, 101, 3⟩, ⟨101, true, 105, 1⟩] (by decide) (by decide) (by decide)
    (by unfold Clocked; decide) (by unfold LiveFits; decide)
  exact absurd hdup (by decide)

/-- As long as no call overwrites a live entry while a stale one is in the ring,
a live set that fits the ring means that no packet is accepted twice. -/
theorem accepted_nodup_of_fits {K : Nat} [NeZero K] {window : UInt32} (hwindow : window ≠ 0)
    {calls : List Call} (hvalid : ∀ c ∈ calls, c.nowValid = true)
    (hts : ∀ c ∈ calls, c.timestamp ≠ 0) (hclock : Clocked calls)
    (hfits : LiveFits K window calls)
    (hlive : (ReplayGuardT.machine K).Along (fun g c => ¬EvictsLive g c)
      (ReplayGuardT.init K window) calls) :
    ((accepted K window calls).map Call.packet).Nodup := by
  have habstract : (guard window K).Along
      (fun log c => ¬DedupLog.DropsLive window.toNat K log (c.now.toNat, c.item)) [] calls := by
    refine Machine.along_of_sim (ReplayGuardT.step_refines window) ?_
      (ReplayGuardT.init_refines window) hlive
    rintro g log c ⟨-, rfl, rfl⟩ hg
    exact hg
  have hnodup := DedupLog.nodup_of_fits (Nat.pos_of_neZero K) (offers calls) hclock.offers
    (along_offers hwindow hvalid habstract) (fits_of_liveFits hwindow hvalid hts hfits)
  rw [← (run_eq_log hwindow hvalid).1] at hnodup
  refine List.Nodup.of_map item ?_
  rwa [List.map_map]

/-- `accepted_nodup_of_fits` for a ring of two entries that is full when a third packet
arrives, with one stale entry at the front. -/
theorem accepted_nodup_full_ring :
    ((accepted 2 10 [⟨100, true, 90, 1⟩, ⟨100, true, 105, 2⟩, ⟨101, true, 101, 3⟩,
      ⟨102, true, 105, 2⟩]).map Call.packet).Nodup :=
  @accepted_nodup_of_fits 2 _ 10 (by decide) _ (by decide) (by decide)
    (by unfold Clocked; decide) (by unfold LiveFits; decide) (by decide)

end Mpubsub.Theorems
