import Mpubsub.Lib.DedupLog

/-!
# The replay guard, abstractly

What the three replay guards of the repository are for: a de-duplication log
of nonces behind a freshness window, which fails closed when the receiver's
clock has not synced or the sender had none, and which is switched off by a
zero window. The guards in C++, Python and Go are compared with this one.
-/

namespace Mpubsub.Replay

open Mpubsub.Lib

/-- The arguments of one `accept` call. -/
structure Call where
  now : UInt32
  nowValid : Bool
  timestamp : UInt32
  nonce : UInt32
deriving DecidableEq

/-- The packet a call is about. -/
def Call.packet (c : Call) : UInt32 × UInt32 := (c.timestamp, c.nonce)

/-- A packet as an item of the log: the nonce is its identity. -/
def item (packet : UInt32 × UInt32) : UInt32 × Nat := (packet.2, packet.1.toNat)

theorem item_injective : Function.Injective item := by
  rintro ⟨t, n⟩ ⟨t', n'⟩ h
  simpa [item, UInt32.toNat_inj, and_comm] using h

def Call.item (c : Call) : UInt32 × Nat := (c.nonce, c.timestamp.toNat)

/-- The decision: `window` seconds, at most `K` remembered nonces. -/
def accept (window : UInt32) (K : Nat) (log : List (UInt32 × Nat)) (c : Call) :
    List (UInt32 × Nat) × Bool :=
  if window = 0 then (log, true)
  else if c.nowValid = false then (log, false)
  else if c.timestamp = 0 then (log, false)
  else DedupLog.offer window.toNat K log c.now.toNat c.item

/-- What one call can do: it is answered without the log, or it is an offer to the log. -/
theorem accept_cases (window : UInt32) (K : Nat) (log : List (UInt32 × Nat)) (c : Call) :
    (window = 0 ∧ accept window K log c = (log, true)) ∨
    (window ≠ 0 ∧ (c.nowValid = false ∨ c.timestamp = 0) ∧
      accept window K log c = (log, false)) ∨
    (window ≠ 0 ∧ c.nowValid = true ∧ c.timestamp ≠ 0 ∧
      accept window K log c = DedupLog.offer window.toNat K log c.now.toNat c.item) := by
  unfold accept
  by_cases hwindow : window = 0
  · exact .inl ⟨hwindow, if_pos hwindow⟩
  rw [if_neg hwindow]
  by_cases hvalid : c.nowValid = false
  · exact .inr (.inl ⟨hwindow, .inl hvalid, if_pos hvalid⟩)
  rw [if_neg hvalid]
  by_cases hts : c.timestamp = 0
  · exact .inr (.inl ⟨hwindow, .inr hts, if_pos hts⟩)
  · exact .inr (.inr ⟨hwindow, Bool.not_eq_false _ ▸ hvalid, hts, if_neg hts⟩)

/-- A refused call costs the log stale items only, and none where there is no clock. -/
theorem sheds_of_refused {window : UInt32} {K : Nat} {log : List (UInt32 × Nat)} {c : Call}
    (h : (accept window K log c).2 = false) :
    ∃ dropped, log = dropped ++ (accept window K log c).1 ∧
      ∀ e ∈ dropped, c.nowValid = true ∧ DedupLog.Stale window.toNat c.now.toNat e.2 := by
  rcases accept_cases window K log c with ⟨-, heq⟩ | ⟨-, -, heq⟩ | ⟨-, hvalid, -, heq⟩
  · rw [heq] at h
    cases h
  · rw [heq]
    exact ⟨[], rfl, fun _ he => by cases he⟩
  · rw [heq] at h ⊢
    obtain ⟨dropped, hsplit, hstale⟩ := DedupLog.sheds_of_refused h
    exact ⟨dropped, hsplit, fun e he => ⟨hvalid, hstale e he⟩⟩

/-- A guard that is on refuses a packet that is in the log. -/
theorem refused_of_mem {window : UInt32} (hwindow : window ≠ 0) {K : Nat}
    {log : List (UInt32 × Nat)} {c : Call} (hmem : c.item ∈ log) :
    (accept window K log c).2 = false := by
  rcases accept_cases window K log c with ⟨hoff, -⟩ | ⟨-, -, heq⟩ | ⟨-, -, -, heq⟩
  · exact absurd hoff hwindow
  · rw [heq]
  · rw [heq]
    exact DedupLog.refused_of_mem hmem _

/-- The abstract guard as a machine. -/
def guard (window : UInt32) (K : Nat) : Machine (List (UInt32 × Nat)) Call Bool :=
  ⟨accept window K⟩

/-- With the window on and the clock synced, the calls that reach the log are
those with a sender timestamp. -/
def offers (calls : List Call) : List (Nat × (UInt32 × Nat)) :=
  (calls.filter fun c => c.timestamp ≠ 0).map fun c => (c.now.toNat, c.item)

/-- The unsigned skew test of the C++ and Go guards is the mathematical one. -/
theorem skew_le_iff (window now timestamp : UInt32) :
    (¬(if now ≥ timestamp then now - timestamp else timestamp - now) > window) ↔
      DedupLog.Fresh window.toNat now.toNat timestamp.toNat := by
  simp only [DedupLog.Fresh, gt_iff_lt, ge_iff_le, UInt32.lt_iff_toNat_lt, Nat.not_lt]
  split
  · rename_i hle
    rw [UInt32.toNat_sub_of_le _ _ hle]
    have := UInt32.le_iff_toNat_le.mp hle
    omega
  · rename_i hlt
    have hlt := UInt32.not_le.mp hlt
    rw [UInt32.toNat_sub_of_le _ _ (UInt32.le_of_lt hlt)]
    have := UInt32.lt_iff_toNat_lt.mp hlt
    omega

/-- The clock of the calls does not go back. -/
def Clocked (calls : List Call) : Prop := calls.Pairwise fun c d => c.now ≤ d.now

theorem Clocked.offers {calls : List Call} (h : Clocked calls) :
    DedupLog.Clocked (offers calls) :=
  List.Pairwise.map _ (fun _ _ hle => UInt32.le_iff_toNat_le.mp hle)
    (h.sublist List.filter_sublist)

theorem offers_concat {calls : List Call} {c : Call} (hts : c.timestamp ≠ 0) :
    offers (calls ++ [c]) = offers calls ++ [(c.now.toNat, c.item)] := by
  simp [offers, hts]

section Protected

variable {window : UInt32} {K : Nat} (hwindow : window ≠ 0)
include hwindow

theorem accept_of_valid {log : List (UInt32 × Nat)} {c : Call} (hvalid : c.nowValid = true)
    (hts : c.timestamp ≠ 0) :
    accept window K log c = DedupLog.offer window.toNat K log c.now.toNat c.item := by
  simp [accept, hwindow, hvalid, hts]

theorem accept_of_no_timestamp {log : List (UInt32 × Nat)} {c : Call}
    (hts : c.timestamp = 0) : accept window K log c = (log, false) := by
  simp [accept, hwindow, hts]

/-- The guard's run is the log's run over the offers. -/
theorem exec_eq_offers {calls : List Call} (hvalid : ∀ c ∈ calls, c.nowValid = true)
    (log : List (UInt32 × Nat)) :
    (guard window K).exec log calls =
        (DedupLog.guard UInt32 window.toNat K).exec log (offers calls) ∧
      ((guard window K).kept log calls).map Call.item =
        ((DedupLog.guard UInt32 window.toNat K).kept log (offers calls)).map Prod.snd := by
  induction calls generalizing log with
  | nil => exact ⟨rfl, rfl⟩
  | cons c calls ih =>
    have hrest : ∀ d ∈ calls, d.nowValid = true := fun d hd =>
      hvalid d (List.mem_cons_of_mem _ hd)
    by_cases hts : c.timestamp = 0
    · have hstep : (guard window K).step log c = (log, false) :=
        accept_of_no_timestamp hwindow hts
      have hoffers : offers (c :: calls) = offers calls := by simp [offers, hts]
      simpa [Machine.kept, hstep, hoffers] using ih hrest log
    · have hstep : (guard window K).step log c =
          (DedupLog.guard UInt32 window.toNat K).step log (c.now.toNat, c.item) :=
        accept_of_valid hwindow (hvalid c List.mem_cons_self) hts
      have hoffers : offers (c :: calls) = (c.now.toNat, c.item) :: offers calls := by
        simp [offers, hts]
      rw [hoffers]
      simp only [Machine.exec_cons, Machine.kept, hstep]
      obtain ⟨hexec, hkept⟩ := ih hrest
        ((DedupLog.guard UInt32 window.toNat K).step log (c.now.toNat, c.item)).1
      refine ⟨hexec, ?_⟩
      split
      · simp [hkept]
      · exact hkept

/-- A side condition on the offers, read off the guard's run. -/
theorem along_offers {P : List (UInt32 × Nat) → Nat × (UInt32 × Nat) → Prop}
    {calls : List Call} (hvalid : ∀ c ∈ calls, c.nowValid = true) {log : List (UInt32 × Nat)}
    (h : (guard window K).Along (fun log c => P log (c.now.toNat, c.item)) log calls) :
    (DedupLog.guard UInt32 window.toNat K).Along P log (offers calls) := by
  induction calls generalizing log with
  | nil => trivial
  | cons c calls ih =>
    have hrest : ∀ d ∈ calls, d.nowValid = true := fun d hd =>
      hvalid d (List.mem_cons_of_mem _ hd)
    obtain ⟨hc, hcalls⟩ := h
    by_cases hts : c.timestamp = 0
    · rw [show (guard window K).step log c = (log, false) from
        accept_of_no_timestamp hwindow hts] at hcalls
      have hoffers : offers (c :: calls) = offers calls := by simp [offers, hts]
      rw [hoffers]
      exact ih hrest hcalls
    · rw [show (guard window K).step log c =
          (DedupLog.guard UInt32 window.toNat K).step log (c.now.toNat, c.item) from
        accept_of_valid hwindow (hvalid c List.mem_cons_self) hts] at hcalls
      have hoffers : offers (c :: calls) = (c.now.toNat, c.item) :: offers calls := by
        simp [offers, hts]
      rw [hoffers]
      exact ⟨hc, ih hrest hcalls⟩

end Protected

end Mpubsub.Replay
