import Mpubsub.Replay.Spec
import Mathlib.Data.Finset.Basic

/-!
# `replayGuard` (`replay.go`)

The Go bridge's guard: a slice of entries and a set of their nonces, in
unsigned 32-bit arithmetic. Its `prune` compares timestamps with the cutoff
`now - window`, which wraps around when the clock reads less than the window
length. `CutoffSound` says that a call is not affected by this; along calls
that are not, the guard is the abstract one (`accept_refines`,
`trace_eq_of_cutoffSound`).
-/

namespace Mpubsub.Replay.Go

open Mpubsub.Lib

/-- `replayEntry`. -/
structure ReplayEntry where
  nonce : UInt32
  ts : UInt32
deriving DecidableEq

/-- An entry as an item of the abstract log. -/
def ReplayEntry.item (e : ReplayEntry) : UInt32 × Nat := (e.nonce, e.ts.toNat)

/-- `replayGuard`: `order` is the slice, `seen` the keys of the map. -/
structure ReplayGuard where
  window : UInt32
  maxEntries : Int
  order : List ReplayEntry
  seen : Finset UInt32
deriving DecidableEq

namespace ReplayGuard

/-- `newReplayGuard`. -/
def new (window : UInt32) (maxEntries : Int) : ReplayGuard :=
  { window := window, maxEntries := maxEntries, order := [], seen := ∅ }

/-- `enabled`. -/
def enabled (g : ReplayGuard) : Bool := g.window != 0

/-- The loop of `prune`: the entries it leaves in `order`, and `seen` without
the others. -/
def pruneLoop (cutoff : UInt32) :
    List ReplayEntry → Finset UInt32 → List ReplayEntry × Finset UInt32
  | [], seen => ([], seen)
  | e :: order, seen =>
    if e.ts < cutoff then pruneLoop cutoff order (seen.erase e.nonce) else (e :: order, seen)

/-- `prune`. -/
def prune (g : ReplayGuard) (now : UInt32) : ReplayGuard :=
  let cutoff := now - g.window
  let (order, seen) := pruneLoop cutoff g.order g.seen
  { g with order := order, seen := seen }

/-- The end of `accept`: append, then cut the first entry on overflow. -/
def recordNonce (g : ReplayGuard) (timestamp nonce : UInt32) : ReplayGuard :=
  let g := { g with
    seen := insert nonce g.seen
    order := g.order ++ [{ nonce := nonce, ts := timestamp }] }
  if (g.order.length : Int) > g.maxEntries then
    match g.order with
    | [] => g
    | e :: order => { g with order := order, seen := g.seen.erase e.nonce }
  else g

/-- `accept`. -/
def accept (g : ReplayGuard) (now : UInt32) (nowValid : Bool) (timestamp nonce : UInt32) :
    ReplayGuard × Bool :=
  if g.window = 0 then (g, true)
  else if !nowValid then (g, false)
  else if timestamp = 0 then (g, false)
  else
    let skew := if now ≥ timestamp then now - timestamp else timestamp - now
    if skew > g.window then (g, false)
    else
      let g := g.prune now
      if nonce ∈ g.seen then (g, false)
      else (g.recordNonce timestamp nonce, true)

/-- The guard as a machine. -/
def machine : Machine ReplayGuard Call Bool :=
  ⟨fun g c => g.accept c.now c.nowValid c.timestamp c.nonce⟩

/-! ## Refinement -/

/-- Whether a call gets as far as `prune`. -/
def ReachesPrune (window : UInt32) (c : Call) : Prop :=
  window ≠ 0 ∧ c.nowValid = true ∧ c.timestamp ≠ 0 ∧
    DedupLog.Fresh window.toNat c.now.toNat c.timestamp.toNat

instance (window : UInt32) (c : Call) : Decidable (ReachesPrune window c) :=
  inferInstanceAs (Decidable (_ ∧ _))

/-- A call that does not prune while `now - window` wraps around below the
timestamp of the oldest entry: it does not get to `prune`, or `now` is at least
the window, or the slice does not start with an entry stamped below the wrapped
cutoff. -/
def CutoffSound (g : ReplayGuard) (c : Call) : Prop :=
  ReachesPrune g.window c → g.window ≤ c.now ∨ ∀ e ∈ g.order.head?, ¬e.ts < c.now - g.window

instance (g : ReplayGuard) (c : Call) : Decidable (CutoffSound g c) :=
  inferInstanceAs (Decidable (_ → _))

/-- The slice as the abstract guard's log. -/
def log (g : ReplayGuard) : List (UInt32 × Nat) := g.order.map ReplayEntry.item

/-- The relation that ties a guard to the abstract one along a run: the slice is
the log, and the set is its index. -/
structure Refines (window : UInt32) (K : Nat) (g : ReplayGuard) (l : List (UInt32 × Nat)) :
    Prop where
  window_eq : g.window = window
  max_eq : g.maxEntries = K
  log_eq : g.log = l
  seen_index : DedupLog.Indexed (· ∈ g.seen) l

/-- When the cutoff does not wrap around, the loop drops the stale prefix. -/
theorem pruneLoop_spec {window now : UInt32} (hle : window ≤ now) (order : List ReplayEntry)
    (seen : Finset UInt32)
    (hseen : DedupLog.Indexed (· ∈ seen) (order.map ReplayEntry.item)) :
    (pruneLoop (now - window) order seen).1.map ReplayEntry.item =
        DedupLog.prune window.toNat now.toNat (order.map ReplayEntry.item) ∧
      DedupLog.Indexed (· ∈ (pruneLoop (now - window) order seen).2)
        (DedupLog.prune window.toNat now.toNat (order.map ReplayEntry.item)) := by
  have hstale (e : ReplayEntry) :
      e.ts < now - window ↔ DedupLog.Stale window.toNat now.toNat e.item.2 := by
    rw [UInt32.lt_iff_toNat_lt, UInt32.toNat_sub_of_le _ _ hle]
    unfold DedupLog.Stale ReplayEntry.item
    omega
  induction order generalizing seen with
  | nil => exact ⟨rfl, hseen⟩
  | cons e order ih =>
    simp only [List.map_cons] at hseen ⊢
    simp only [pruneLoop]
    by_cases hold : e.ts < now - window
    · rw [if_pos hold, DedupLog.prune,
        List.dropWhile_cons_of_pos (by simpa using (hstale _).mp hold)]
      exact ih _ (hseen.dropFirst fun n => Finset.mem_erase)
    · rw [if_neg hold, DedupLog.prune,
        List.dropWhile_cons_of_neg (by simpa using fun h => hold ((hstale _).mpr h))]
      exact ⟨rfl, hseen⟩

/-- When the first entry is not below the cutoff, the loop drops nothing. -/
theorem pruneLoop_of_head {cutoff : UInt32} {order : List ReplayEntry} (seen : Finset UInt32)
    (hhead : ∀ e ∈ order.head?, ¬e.ts < cutoff) :
    pruneLoop cutoff order seen = (order, seen) := by
  cases order with
  | nil => rfl
  | cons e order => exact if_neg (hhead e rfl)

/-- When the clock reads less than the window, nothing is stale. -/
theorem prune_of_now_lt {ν : Type*} {W now : Nat} (hlt : now < W) (l : List (ν × Nat)) :
    DedupLog.prune W now l = l := by
  cases l with
  | nil => rfl
  | cons e l =>
    refine List.dropWhile_cons_of_neg ?_
    rw [decide_eq_true_eq, DedupLog.Stale]
    omega

section Refines

variable {window : UInt32} {K : Nat} {g : ReplayGuard} {l : List (UInt32 × Nat)}

theorem Refines.prune (h : Refines window K g l) {now : UInt32}
    (hcutoff : g.window ≤ now ∨ ∀ e ∈ g.order.head?, ¬e.ts < now - g.window) :
    Refines window K (g.prune now) (DedupLog.prune window.toNat now.toNat l) := by
  obtain ⟨rfl, hmax, rfl, hseen⟩ := h
  by_cases hle : g.window ≤ now
  · obtain ⟨horder, hindex⟩ := pruneLoop_spec hle g.order g.seen hseen
    exact ⟨rfl, hmax, horder, hindex⟩
  · have hloop := pruneLoop_of_head g.seen (hcutoff.resolve_left hle)
    rw [prune_of_now_lt (UInt32.lt_iff_toNat_lt.mp (UInt32.not_le.mp hle))]
    refine ⟨rfl, hmax, ?_, ?_⟩
    · simp only [log, ReplayGuard.prune, hloop]
    · simpa only [ReplayGuard.prune, hloop] using hseen

theorem Refines.record (hK : 0 < K) (h : Refines window K g l) {timestamp nonce : UInt32}
    (hnew : nonce ∉ g.seen) :
    Refines window K (g.recordNonce timestamp nonce)
      (DedupLog.record K l (nonce, timestamp.toNat)) := by
  have happend : DedupLog.Indexed (· ∈ insert nonce g.seen) (l ++ [(nonce, timestamp.toNat)]) :=
    h.seen_index.append hnew fun n => by rw [Finset.mem_insert]
  have hlen : l.length = g.order.length := by rw [← h.log_eq, log, List.length_map]
  have hlog : (g.order ++ [ReplayEntry.mk nonce timestamp]).map ReplayEntry.item =
      l ++ [(nonce, timestamp.toNat)] := by
    rw [List.map_append, ← h.log_eq]
    rfl
  rw [DedupLog.record_eq_append_drop hK]
  unfold recordNonce
  simp only [h.max_eq, List.length_append, hlen, List.length_singleton]
  by_cases hover : g.order.length + 1 > K
  · rw [if_pos (by exact_mod_cast hover), if_pos hover]
    obtain ⟨old, rest, hsplit⟩ :
        ∃ old rest, g.order ++ [ReplayEntry.mk nonce timestamp] = old :: rest :=
      List.exists_cons_of_ne_nil (by simp)
    rw [hsplit, List.map_cons] at hlog
    rw [hsplit, ← hlog]
    rw [← hlog] at happend
    exact ⟨h.window_eq, rfl, rfl, happend.dropFirst fun n => Finset.mem_erase⟩
  · rw [if_neg (by exact_mod_cast hover), if_neg hover]
    exact ⟨h.window_eq, rfl, hlog, happend⟩

/-- **Step refinement.** A call whose cutoff is sound answers as the abstract
guard does and keeps the relation to it. -/
theorem accept_refines (hK : 0 < K) (h : Refines window K g l) (c : Call)
    (hc : CutoffSound g c) :
    Refines window K (machine.step g c).1 (Replay.accept window K l c).1 ∧
      (machine.step g c).2 = (Replay.accept window K l c).2 := by
  have hwin := h.window_eq
  show Refines window K (accept g _ _ _ _).1 _ ∧ (accept g _ _ _ _).2 = _
  unfold accept Replay.accept
  by_cases hw : window = 0
  · rw [if_pos (hwin.trans hw), if_pos hw]
    exact ⟨h, rfl⟩
  rw [if_neg (by rwa [hwin]), if_neg hw]
  by_cases hvalid : c.nowValid = false
  · rw [if_pos (by simp [hvalid]), if_pos hvalid]
    exact ⟨h, rfl⟩
  rw [if_neg (by simpa using hvalid), if_neg hvalid]
  by_cases hts : c.timestamp = 0
  · rw [if_pos hts, if_pos hts]
    exact ⟨h, rfl⟩
  rw [if_neg hts, if_neg hts, hwin]
  unfold DedupLog.offer
  by_cases hfresh : DedupLog.Fresh window.toNat c.now.toNat c.item.2
  swap
  · have hskew := fun h => hfresh ((skew_le_iff _ _ _).mp h)
    rw [if_neg hfresh, if_pos (not_not.mp hskew)]
    exact ⟨h, rfl⟩
  rw [if_neg ((skew_le_iff _ _ _).mpr hfresh), if_pos hfresh]
  have hreach : ReachesPrune g.window c :=
    ⟨by rwa [hwin], by simpa using hvalid, hts, by rw [hwin]; exact hfresh⟩
  have hprune := h.prune (hc hreach)
  by_cases hseen : c.item.1 ∈ (DedupLog.prune window.toNat c.now.toNat l).map Prod.fst
  · have hmem : c.nonce ∈ (g.prune c.now).seen := (hprune.seen_index.mem_iff _).mpr hseen
    rw [if_pos hmem, if_pos hseen]
    exact ⟨hprune, rfl⟩
  · have hnew : c.nonce ∉ (g.prune c.now).seen := fun hmem =>
      hseen ((hprune.seen_index.mem_iff _).mp hmem)
    rw [if_neg hnew, if_neg hseen]
    exact ⟨hprune.record hK hnew, rfl⟩

end Refines

theorem new_refines (window : UInt32) (K : Nat) : Refines window K (new window K) [] :=
  ⟨rfl, rfl, rfl, by simp, by simp [new]⟩

/-- **Run refinement.** Along calls whose cutoff is sound, the guard answers like
the abstract guard. -/
theorem run_refines {window : UInt32} {K : Nat} (hK : 0 < K) {calls : List Call}
    (hcalls : machine.Along CutoffSound (new window K) calls) :
    machine.trace (new window K) calls = (guard window K).trace [] calls :=
  (Machine.trace_eq_of_sim_along (m := machine) (n := guard window K) (R := Refines window K)
    (fun _ _ c hR hc => accept_refines hK hR c hc) (new_refines window K) hcalls).1

end ReplayGuard

end Mpubsub.Replay.Go
