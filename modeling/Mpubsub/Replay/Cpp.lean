import Mpubsub.Lib.Ring
import Mpubsub.Replay.Spec

/-!
# `ReplayGuardT` (`replay_guard.h`)

The ESPHome component's guard: a ring of `Capacity` entries with explicit
`head_` and `count_`, in unsigned 32-bit arithmetic. Its entries, read oldest
first, are the abstract guard's log (`accept_refines`), so it decides like the
abstract guard along every run (`exec_refines`).
-/

namespace Mpubsub.Replay

open Mpubsub.Lib

/-- `ReplayGuardT::Entry`. -/
structure Entry where
  nonce : UInt32 := 0
  timestamp : UInt32 := 0
deriving DecidableEq

/-- `ReplayGuardT<Capacity>`: the ring `head_`, `count_`, `slots_` and the
window in seconds. -/
structure ReplayGuardT (Capacity : Nat) extends Ring Entry Capacity where
  window : UInt32
deriving DecidableEq

namespace ReplayGuardT

variable {Capacity : Nat}

/-- A freshly constructed guard with the given window. -/
def init (Capacity : Nat) (windowSeconds : UInt32) : ReplayGuardT Capacity :=
  { head := 0, count := 0, slots := Vector.replicate Capacity {}, window := windowSeconds }

def enabled (g : ReplayGuardT Capacity) : Bool := g.window != 0

variable [NeZero Capacity]

/-- The `while` loop of `prune_`. Every iteration takes one off `count_`, so
`count_` iterations are enough. -/
def pruneLoop (now : UInt32) : Nat → ReplayGuardT Capacity → ReplayGuardT Capacity
  | 0, g => g
  | n + 1, g =>
    let oldest := g.slot g.head
    if now > oldest.timestamp && now - oldest.timestamp > g.window then
      pruneLoop now n { g with head := (g.head + 1) % Capacity, count := g.count - 1 }
    else g

/-- `prune_`: drop entries older than the window from the front of the ring. -/
def prune (g : ReplayGuardT Capacity) (now : UInt32) : ReplayGuardT Capacity :=
  pruneLoop now g.count g

/-- `accept`: whether the packet is fresh and unseen, and the guard with the
packet recorded if so. -/
def accept (g : ReplayGuardT Capacity) (now : UInt32) (nowValid : Bool)
    (timestamp nonce : UInt32) : ReplayGuardT Capacity × Bool :=
  if g.window = 0 then (g, true)
  else if !nowValid then (g, false)
  else if timestamp = 0 then (g, false)
  else
    let skew := if now ≥ timestamp then now - timestamp else timestamp - now
    if skew > g.window then (g, false)
    else
      let g := g.prune now
      if (List.range g.count).any fun i =>
          (g.slot ((g.head + i) % Capacity)).nonce == nonce then (g, false)
      else
        -- When the ring is full, overwrite the oldest.
        let (idx, g) :=
          if g.count < Capacity then
            ((g.head + g.count) % Capacity, { g with count := g.count + 1 })
          else
            (g.head, { g with head := (g.head + 1) % Capacity })
        ({ g with toRing := g.toRing.setSlot idx { nonce := nonce, timestamp := timestamp } },
          true)

/-- The guard as a machine. -/
def machine (Capacity : Nat) [NeZero Capacity] : Machine (ReplayGuardT Capacity) Call Bool :=
  ⟨fun g c => g.accept c.now c.nowValid c.timestamp c.nonce⟩

/-- The remembered entries as items of the abstract log, oldest first. -/
def log (g : ReplayGuardT Capacity) : List (UInt32 × Nat) :=
  g.toList.map fun e => (e.nonce, e.timestamp.toNat)

/-! ## Refinement -/

/-- The unsigned staleness test of `prune_` is the mathematical one. -/
theorem stale_iff (window now timestamp : UInt32) :
    (now > timestamp && now - timestamp > window) = true ↔
      DedupLog.Stale window.toNat now.toNat timestamp.toNat := by
  simp only [DedupLog.Stale, Bool.and_eq_true, decide_eq_true_eq, gt_iff_lt,
    UInt32.lt_iff_toNat_lt]
  constructor
  · rintro ⟨hlt, hgt⟩
    rw [UInt32.toNat_sub_of_le _ _ (UInt32.le_of_lt (UInt32.lt_iff_toNat_lt.mpr hlt))] at hgt
    omega
  · intro h
    have hlt : timestamp.toNat < now.toNat := by omega
    refine ⟨hlt, ?_⟩
    rw [UInt32.toNat_sub_of_le _ _ (UInt32.le_of_lt (UInt32.lt_iff_toNat_lt.mpr hlt))]
    omega

@[simp] theorem length_log (g : ReplayGuardT Capacity) : g.log.length = g.count := by
  simp [log]

theorem pruneLoop_spec (now : UInt32) (n : Nat) (g : ReplayGuardT Capacity)
    (hn : n = g.count) (hg : g.InRange) :
    (pruneLoop now n g).log = DedupLog.prune g.window.toNat now.toNat g.log ∧
      (pruneLoop now n g).InRange ∧ (pruneLoop now n g).window = g.window := by
  induction n generalizing g with
  | zero =>
    have hnil : g.log = [] := List.eq_nil_of_length_eq_zero (by rw [length_log, ← hn])
    exact ⟨by rw [pruneLoop, hnil]; rfl, hg, rfl⟩
  | succ n ih =>
    have hpos : 0 < g.count := by omega
    have hhead : g.slot g.head = g.entry 0 := by
      rw [Ring.entry, Nat.add_zero, Nat.mod_eq_of_lt hg.head_lt]
    have hcons : g.log = ((g.entry 0).nonce, (g.entry 0).timestamp.toNat) ::
        ({ g with toRing := g.toRing.dropFront } : ReplayGuardT Capacity).log := by
      unfold log
      rw [Ring.toList_eq_cons hpos, List.map_cons]
    rw [pruneLoop, hhead]
    by_cases hstale : (now > (g.entry 0).timestamp &&
        now - (g.entry 0).timestamp > g.window) = true
    · have hdrop := ih { g with toRing := g.toRing.dropFront }
        (by simp only [Ring.dropFront]; omega) hg.dropFront
      have hmath := (stale_iff _ _ _).mp hstale
      rw [if_pos hstale, hcons, DedupLog.prune,
        List.dropWhile_cons_of_pos (by simpa using hmath)]
      exact hdrop
    · have hmath := fun h => hstale ((stale_iff _ _ _).mpr h)
      rw [if_neg hstale]
      refine ⟨?_, hg, rfl⟩
      rw [hcons, DedupLog.prune, List.dropWhile_cons_of_neg (by simpa using hmath)]

theorem prune_spec (g : ReplayGuardT Capacity) (now : UInt32) (hg : g.InRange) :
    (g.prune now).log = DedupLog.prune g.window.toNat now.toNat g.log ∧
      (g.prune now).InRange ∧ (g.prune now).window = g.window :=
  pruneLoop_spec now g.count g rfl hg

/-- The linear scan looks the nonce up in the log. -/
theorem scan_iff (g : ReplayGuardT Capacity) (nonce : UInt32) :
    ((List.range g.count).any fun i =>
        (g.slot ((g.head + i) % Capacity)).nonce == nonce) = true ↔
      nonce ∈ g.log.map Prod.fst := by
  simp only [log, Ring.toList, List.any_eq_true, List.mem_map, List.mem_range, beq_iff_eq,
    Ring.entry]
  constructor
  · rintro ⟨i, hi, rfl⟩
    exact ⟨_, ⟨_, ⟨i, hi, rfl⟩, rfl⟩, rfl⟩
  · rintro ⟨-, ⟨-, ⟨i, hi, rfl⟩, rfl⟩, rfl⟩
    exact ⟨i, hi, rfl⟩

/-- **Step refinement.** One call changes the log and answers as the abstract
guard does, keeps the indices in range and the window. -/
theorem accept_refines {g : ReplayGuardT Capacity} (hg : g.InRange) (c : Call)
    {r : ReplayGuardT Capacity × Bool} (hr : g.accept c.now c.nowValid c.timestamp c.nonce = r) :
    (r.1.log, r.2) = Replay.accept g.window Capacity g.log c ∧
      r.1.InRange ∧ r.1.window = g.window := by
  obtain ⟨hlog, hrange, hwin⟩ := g.prune_spec c.now hg
  unfold accept at hr
  unfold Replay.accept
  -- The checks in the order of the source: each that fails leaves both logs as they are.
  by_cases hw : g.window = 0
  · rw [if_pos hw] at hr
    subst hr
    exact ⟨by rw [if_pos hw], hg, rfl⟩
  rw [if_neg hw] at hr
  rw [if_neg hw]
  by_cases hvalid : c.nowValid = false
  · rw [if_pos (by simp [hvalid])] at hr
    subst hr
    exact ⟨by rw [if_pos hvalid], hg, rfl⟩
  rw [if_neg (by simpa using hvalid)] at hr
  rw [if_neg hvalid]
  by_cases hts : c.timestamp = 0
  · rw [if_pos hts] at hr
    subst hr
    exact ⟨by rw [if_pos hts], hg, rfl⟩
  rw [if_neg hts] at hr
  rw [if_neg hts]
  unfold DedupLog.offer
  by_cases hfresh : DedupLog.Fresh g.window.toNat c.now.toNat c.item.2
  swap
  · have hskew := fun h => hfresh ((skew_le_iff _ _ _).mp h)
    rw [if_pos (not_not.mp hskew)] at hr
    subst hr
    exact ⟨by rw [if_neg hfresh], hg, rfl⟩
  rw [if_neg ((skew_le_iff _ _ _).mpr hfresh)] at hr
  rw [if_pos hfresh]
  by_cases hseen : c.item.1 ∈ (DedupLog.prune g.window.toNat c.now.toNat g.log).map Prod.fst
  · rw [if_pos ((scan_iff _ _).mpr (by rw [hlog]; exact hseen))] at hr
    subst hr
    exact ⟨by rw [if_pos hseen, hlog], hrange, hwin⟩
  rw [if_neg fun h => hseen (by rw [← hlog]; exact (scan_iff _ _).mp h)] at hr
  rw [if_neg hseen]
  unfold DedupLog.record
  rw [← hlog, length_log]
  by_cases hroom : (g.prune c.now).count < Capacity
  · rw [if_pos hroom] at hr
    subst hr
    refine ⟨?_, hrange.pushBack hroom _, hwin⟩
    rw [if_pos hroom]
    refine Prod.ext ?_ rfl
    show List.map _ ((g.prune c.now).toRing.pushBack _).toList = _
    rw [Ring.toList_pushBack hroom, List.map_append]
    rfl
  · -- A full log displaces its oldest entry.
    have hfull : (g.prune c.now).count = Capacity := by
      have := hrange.count_le
      omega
    rw [if_neg hroom] at hr
    subst hr
    refine ⟨?_, hrange.overwrite _, hwin⟩
    rw [if_neg hroom]
    refine Prod.ext ?_ rfl
    show List.map _ ((g.prune c.now).toRing.overwrite _).toList = _
    rw [Ring.toList_overwrite hrange hfull, List.map_append, List.map_tail]
    rfl

theorem init_inRange (window : UInt32) : (init Capacity window).InRange :=
  ⟨Nat.pos_of_neZero Capacity, Nat.zero_le _⟩

/-- The relation that ties a guard to the abstract one along a run. -/
structure Refines (window : UInt32) (g : ReplayGuardT Capacity) (l : List (UInt32 × Nat)) :
    Prop where
  inRange : g.InRange
  window_eq : g.window = window
  log_eq : g.log = l

theorem init_refines (window : UInt32) : Refines window (init Capacity window) [] :=
  ⟨init_inRange window, rfl, rfl⟩

/-- Some packet stamped with the current time is always accepted: the ring remembers
finitely many nonces. -/
theorem exists_accepts {g : ReplayGuardT Capacity} (hg : g.InRange) {now : UInt32}
    (hnow : now ≠ 0) (hcap : Capacity < 2 ^ 32) :
    ∃ nonce, (g.accept now true now nonce).2 = true := by
  obtain ⟨nonce, hnonce⟩ : ∃ nonce : UInt32, nonce ∉ g.log.map Prod.fst := by
    by_contra hall
    rw [not_exists] at hall
    have hnodup : ((List.range (Capacity + 1)).map UInt32.ofNat).Nodup := by
      refine List.Nodup.map_on ?_ List.nodup_range
      intro i hi j hj heq
      rw [List.mem_range] at hi hj
      have heq := congrArg UInt32.toNat heq
      rwa [UInt32.toNat_ofNat', UInt32.toNat_ofNat', Nat.mod_eq_of_lt (by omega),
        Nat.mod_eq_of_lt (by omega)] at heq
    have hle := (hnodup.subperm fun n _ => not_not.mp (hall n)).length_le
    rw [List.length_map, List.length_range, List.length_map, length_log] at hle
    have := hg.count_le
    omega
  refine ⟨nonce, ?_⟩
  have heq := congrArg Prod.snd (accept_refines hg ⟨now, true, now, nonce⟩ rfl).1
  refine heq.trans ?_
  by_cases hw : g.window = 0
  · rw [Replay.accept, if_pos hw]
  · rw [accept_of_valid hw rfl hnow]
    have hfresh : DedupLog.Fresh g.window.toNat now.toNat now.toNat :=
      ⟨Nat.le_add_right .., Nat.le_add_right ..⟩
    have hnew : nonce ∉ (DedupLog.prune g.window.toNat now.toNat g.log).map Prod.fst := fun h =>
      hnonce (List.map_subset Prod.fst (DedupLog.prune_suffix _ _ g.log).subset h)
    show (DedupLog.offer g.window.toNat Capacity g.log now.toNat (nonce, now.toNat)).2 = true
    unfold DedupLog.offer
    rw [if_pos hfresh, if_neg hnew]

theorem step_refines (window : UInt32) (g : ReplayGuardT Capacity) (l : List (UInt32 × Nat))
    (c : Call) (h : Refines window g l) :
    Refines window ((machine Capacity).step g c).1 ((guard window Capacity).step l c).1 ∧
      ((machine Capacity).step g c).2 = ((guard window Capacity).step l c).2 := by
  obtain ⟨hg, rfl, rfl⟩ := h
  obtain ⟨heq, hrange, hwin⟩ := accept_refines hg c rfl
  exact ⟨⟨hrange, hwin, congrArg Prod.fst heq⟩, congrArg Prod.snd heq⟩

variable (Capacity) in
/-- **Run refinement.** Started empty, the guard answers like the abstract
guard at every call, and its entries stay the abstract log. -/
theorem run_refines (window : UInt32) (calls : List Call) :
    (machine Capacity).trace (init Capacity window) calls =
        (guard window Capacity).trace [] calls ∧
      Refines window ((machine Capacity).exec (init Capacity window) calls)
        ((guard window Capacity).exec [] calls) :=
  Machine.trace_eq_of_sim (step_refines window) (init_refines window) calls

end ReplayGuardT

end Mpubsub.Replay
