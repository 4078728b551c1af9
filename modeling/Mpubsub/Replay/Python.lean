import Mpubsub.Replay.Spec
import Mathlib.Data.List.AList

/-!
# `ReplayGuard` (`wire.py`)

The Python reference guard: a deque of `(nonce, timestamp)` pairs and a
dictionary of the nonces in it, over unbounded integers, with overflow handled
by appending first and dropping the oldest afterwards. The dictionary always
holds exactly the nonces of the deque, which are distinct; the deque is the
abstract guard's log (`accept_refines`, `run_refines`).
-/

namespace Mpubsub.Replay.Python

open Mpubsub.Lib

/-- `ReplayGuard`: `_order` is the deque, `_seen` the dictionary keyed by
nonce. -/
structure ReplayGuard where
  window : Int
  maxEntries : Int
  order : List (Option Int × Int)
  seen : AList fun _ : Option Int => Int

namespace ReplayGuard

/-- `ReplayGuard.__init__`. -/
def init (windowSeconds : Int) (maxEntries : Int := 128) : ReplayGuard :=
  { window := windowSeconds, maxEntries := maxEntries, order := [], seen := ∅ }

/-- The `while` loop of `_prune`. -/
def pruneLoop (cutoff : Int) :
    List (Option Int × Int) → (AList fun _ : Option Int => Int) →
      List (Option Int × Int) × AList fun _ : Option Int => Int
  | [], seen => ([], seen)
  | (oldNonce, timestamp) :: order, seen =>
    if timestamp < cutoff then pruneLoop cutoff order (seen.erase oldNonce)
    else ((oldNonce, timestamp) :: order, seen)

/-- `_prune`. -/
def prune (g : ReplayGuard) (now : Int) : ReplayGuard :=
  let cutoff := now - g.window
  let (order, seen) := pruneLoop cutoff g.order g.seen
  { g with order := order, seen := seen }

/-- The end of `accept`: `_order.append`, then `popleft` on overflow. -/
def recordNonce (g : ReplayGuard) (nonce : Option Int) (timestamp : Int) : ReplayGuard :=
  let g := { g with
    seen := g.seen.insert nonce timestamp
    order := g.order ++ [(nonce, timestamp)] }
  if (g.order.length : Int) > g.maxEntries then
    match g.order with
    | [] => g
    | (oldNonce, _) :: order => { g with order := order, seen := g.seen.erase oldNonce }
  else g

/-- `accept`. A `timestamp` of `None` is as falsy as `0`. -/
def accept (g : ReplayGuard) (now : Int) (nowValid : Bool) (timestamp nonce : Option Int) :
    ReplayGuard × Bool :=
  if g.window = 0 then (g, true)
  else if !nowValid then (g, false)
  else
    match timestamp with
    | none => (g, false)
    | some timestamp =>
      if timestamp = 0 then (g, false)
      else if (now - timestamp).natAbs > g.window then (g, false)
      else
        let g := g.prune now
        if nonce ∈ g.seen then (g, false)
        else (g.recordNonce nonce timestamp, true)

/-- The guard as a machine fed with 32-bit numbers. -/
def machine : Machine ReplayGuard Call Bool :=
  ⟨fun g c => g.accept c.now.toNat c.nowValid (some c.timestamp.toNat) (some c.nonce.toNat)⟩

/-! ## Refinement -/

/-- A nonce as the deque and the dictionary hold it. -/
def key (nonce : UInt32) : Option Int := some nonce.toNat

theorem key_inj {n m : UInt32} : key n = key m ↔ n = m := by
  simp only [key, Option.some.injEq, Int.ofNat_inj, UInt32.toNat_inj]

/-- A log item as the deque holds it. -/
def pair (e : UInt32 × Nat) : Option Int × Int := (key e.1, e.2)

/-- The relation that ties a guard to the abstract one along a run: the deque is
the log, and the dictionary is its index. -/
structure Refines (window : UInt32) (K : Nat) (g : ReplayGuard) (l : List (UInt32 × Nat)) :
    Prop where
  window_eq : g.window = window.toNat
  max_eq : g.maxEntries = K
  order_eq : g.order = l.map pair
  seen_index : DedupLog.Indexed (fun n => key n ∈ g.seen) l

theorem pruneLoop_spec (W now : Nat) (l : List (UInt32 × Nat))
    (seen : AList fun _ : Option Int => Int)
    (hseen : DedupLog.Indexed (fun n => key n ∈ seen) l) :
    (pruneLoop (now - W) (l.map pair) seen).1 = (DedupLog.prune W now l).map pair ∧
      DedupLog.Indexed (fun n => key n ∈ (pruneLoop (now - W) (l.map pair) seen).2)
        (DedupLog.prune W now l) := by
  induction l generalizing seen with
  | nil => exact ⟨rfl, hseen⟩
  | cons e l ih =>
    simp only [List.map_cons, pair, pruneLoop]
    by_cases hstale : DedupLog.Stale W now e.2
    · rw [if_pos (by unfold DedupLog.Stale at hstale; omega), DedupLog.prune,
        List.dropWhile_cons_of_pos (by simpa using hstale)]
      apply ih
      apply hseen.dropFirst
      intro n
      rw [AList.mem_erase, ne_eq, key_inj]
    · rw [if_neg (by unfold DedupLog.Stale at hstale; omega), DedupLog.prune,
        List.dropWhile_cons_of_neg (by simpa using hstale)]
      exact ⟨rfl, hseen⟩

section Refines

variable {window : UInt32} {K : Nat} {g : ReplayGuard} {l : List (UInt32 × Nat)}

theorem Refines.prune (h : Refines window K g l) (now : UInt32) :
    Refines window K (g.prune now.toNat) (DedupLog.prune window.toNat now.toNat l) := by
  obtain ⟨horder, hseen⟩ := pruneLoop_spec window.toNat now.toNat l g.seen h.seen_index
  refine ⟨h.window_eq, h.max_eq, ?_, ?_⟩
  · simp only [ReplayGuard.prune, h.window_eq, h.order_eq, horder]
  · simpa only [ReplayGuard.prune, h.window_eq, h.order_eq] using hseen

theorem Refines.record (hK : 0 < K) (h : Refines window K g l) {e : UInt32 × Nat}
    (hnew : key e.1 ∉ g.seen) :
    Refines window K (g.recordNonce (key e.1) e.2) (DedupLog.record K l e) := by
  have happend : DedupLog.Indexed (fun n => key n ∈ g.seen.insert (key e.1) (e.2 : Int))
      (l ++ [e]) :=
    h.seen_index.append hnew fun n => by rw [AList.mem_insert, key_inj]
  have horder : g.order ++ [pair e] = (l ++ [e]).map pair := by
    rw [List.map_append, h.order_eq]
    rfl
  rw [DedupLog.record_eq_append_drop hK]
  unfold recordNonce
  simp only [show ((key e.1, (e.2 : Int)) : Option Int × Int) = pair e from rfl, horder,
    List.length_map, h.max_eq]
  by_cases hover : (l ++ [e]).length > K
  · rw [if_pos (by exact_mod_cast hover), if_pos hover]
    obtain ⟨old, rest, hsplit⟩ : ∃ old rest, l ++ [e] = old :: rest :=
      List.exists_cons_of_ne_nil (by simp)
    rw [hsplit] at happend ⊢
    refine ⟨h.window_eq, rfl, rfl, happend.dropFirst ?_⟩
    intro n
    rw [ne_eq, ← key_inj]
    exact AList.mem_erase
  · rw [if_neg (by exact_mod_cast hover), if_neg hover]
    exact ⟨h.window_eq, rfl, rfl, happend⟩

theorem natAbs_le_iff (W now t : Nat) :
    ¬(((now : Int) - t).natAbs : Int) > W ↔ DedupLog.Fresh W now t := by
  unfold DedupLog.Fresh
  omega

/-- **Step refinement.** One call answers as the abstract guard does and keeps
the relation to it. -/
theorem accept_refines (hK : 0 < K) (h : Refines window K g l) (c : Call) :
    Refines window K (machine.step g c).1 (Replay.accept window K l c).1 ∧
      (machine.step g c).2 = (Replay.accept window K l c).2 := by
  show Refines window K (accept g _ _ _ _).1 _ ∧ (accept g _ _ _ _).2 = _
  unfold accept Replay.accept
  by_cases hw : window = 0
  · rw [if_pos (by rw [h.window_eq, hw]; rfl), if_pos hw]
    exact ⟨h, rfl⟩
  rw [if_neg (by rw [h.window_eq]; exact_mod_cast fun h0 => hw (UInt32.toNat_inj.mp h0)),
    if_neg hw]
  by_cases hvalid : c.nowValid = false
  · rw [if_pos (by simp [hvalid]), if_pos hvalid]
    exact ⟨h, rfl⟩
  rw [if_neg (by simpa using hvalid), if_neg hvalid]
  by_cases hts : c.timestamp = 0
  · rw [if_pos hts]
    simp only [hts]
    exact ⟨h, rfl⟩
  rw [if_neg hts]
  simp only
  rw [if_neg (by exact_mod_cast fun h0 => hts (UInt32.toNat_inj.mp h0)), h.window_eq]
  unfold DedupLog.offer
  by_cases hfresh : DedupLog.Fresh window.toNat c.now.toNat c.item.2
  swap
  · have hskew : (((c.now.toNat : Int) - c.timestamp.toNat).natAbs : Int) > window.toNat :=
      not_not.mp fun h => hfresh ((natAbs_le_iff _ _ _).mp h)
    rw [if_pos hskew, if_neg hfresh]
    exact ⟨h, rfl⟩
  have hskew : ¬(((c.now.toNat : Int) - c.timestamp.toNat).natAbs : Int) > window.toNat :=
    (natAbs_le_iff _ _ _).mpr hfresh
  rw [if_neg hskew, if_pos hfresh]
  have hprune := h.prune c.now
  by_cases hseen : c.item.1 ∈ (DedupLog.prune window.toNat c.now.toNat l).map Prod.fst
  · have hmem : some (c.nonce.toNat : Int) ∈ (g.prune c.now.toNat).seen :=
      (hprune.seen_index.mem_iff _).mpr hseen
    rw [if_pos hmem, if_pos hseen]
    exact ⟨hprune, rfl⟩
  · have hnew : some (c.nonce.toNat : Int) ∉ (g.prune c.now.toNat).seen := fun hmem =>
      hseen ((hprune.seen_index.mem_iff _).mp hmem)
    rw [if_neg hnew, if_neg hseen]
    exact ⟨hprune.record (e := c.item) hK hnew, rfl⟩

end Refines

theorem init_refines (window : UInt32) (K : Nat) : Refines window K (init window.toNat K) [] :=
  ⟨rfl, rfl, rfl, by simp, by simp [init]⟩

/-- **Run refinement.** Started empty, the guard answers like the abstract
guard at every call. -/
theorem run_refines (window : UInt32) {K : Nat} (hK : 0 < K) (calls : List Call) :
    machine.trace (init window.toNat K) calls = (guard window K).trace [] calls :=
  (Machine.trace_eq_of_sim (m := machine) (n := guard window K) (R := Refines window K)
    (fun _ _ c hR => accept_refines hK hR c) (init_refines window K) calls).1

end ReplayGuard

end Mpubsub.Replay.Python
