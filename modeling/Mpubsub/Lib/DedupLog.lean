import Mpubsub.Lib.Machine
import Mathlib.Data.List.TakeWhile
import Mathlib.Data.List.DropRight
import Mathlib.Data.List.Induction
import Mathlib.Data.Finset.Card

/-!
# Sliding-window de-duplication logs

A log remembers recently accepted items, oldest first: each an identity and
the time it was stamped with. An item is offered at a time `now`; it is
admitted when it is *fresh* (stamped within `W` of `now`) and its identity is
not in the log. Before the look-up the log drops its longest stale prefix;
when it already holds `K` items an admission drops the oldest one.

The log is compared with the full history of admitted items (`Tracks`): it is
a suffix of the history, and whatever it forgot was forgotten for a reason —
the item is stale, or enough items were admitted after it. `Tracks` is kept
by every operation and therefore along every run whose clock does not go
back (`tracks_run`). Two facts about runs follow:

* an item is not admitted again before `K` different ones have been
  (`refuses_until_displaced`), and a fresh item whose identity is not among the
  last `K` admitted ones always is (`admits_unseen`);
* if no admission drops an item while a stale one is still in the log, and
  never more than `K` admitted items are fresh at once, no item is admitted
  twice (`nodup_of_fits`).
-/

namespace Mpubsub.Lib.DedupLog

variable {ν : Type*} [DecidableEq ν]

/-! ## The log and its operations -/

/-- Stamped within `W` of `now`, on either side. -/
def Fresh (W now t : Nat) : Prop := now ≤ t + W ∧ t ≤ now + W

instance (W now t : Nat) : Decidable (Fresh W now t) := inferInstanceAs (Decidable (_ ∧ _))

/-- Stamped more than `W` before `now`. -/
def Stale (W now t : Nat) : Prop := t + W < now

instance (W now t : Nat) : Decidable (Stale W now t) := inferInstanceAs (Decidable (_ < _))

/-- Drop the stale items at the front; the first live one stops the search. -/
def prune (W now : Nat) (log : List (ν × Nat)) : List (ν × Nat) :=
  log.dropWhile fun e => decide (Stale W now e.2)

/-- Append, dropping the oldest item if there are `K` already. -/
def record (K : Nat) (log : List (ν × Nat)) (e : ν × Nat) : List (ν × Nat) :=
  if log.length < K then log ++ [e] else log.tail ++ [e]

/-- Offer the item `e` at time `now`. -/
def offer (W K : Nat) (log : List (ν × Nat)) (now : Nat) (e : ν × Nat) :
    List (ν × Nat) × Bool :=
  if Fresh W now e.2 then
    if e.1 ∈ (prune W now log).map Prod.fst then (prune W now log, false)
    else (record K (prune W now log) e, true)
  else (log, false)

/-- The log as a machine fed with timed items. -/
def guard (ν : Type*) [DecidableEq ν] (W K : Nat) :
    Machine (List (ν × Nat)) (Nat × (ν × Nat)) Bool :=
  ⟨fun log x => offer W K log x.1 x.2⟩

/-- What one offer can do. -/
theorem offer_cases (W K : Nat) (log : List (ν × Nat)) (now : Nat) (e : ν × Nat) :
    (¬Fresh W now e.2 ∧ offer W K log now e = (log, false)) ∨
    (Fresh W now e.2 ∧ e.1 ∈ (prune W now log).map Prod.fst ∧
      offer W K log now e = (prune W now log, false)) ∨
    (Fresh W now e.2 ∧ e.1 ∉ (prune W now log).map Prod.fst ∧
      offer W K log now e = (record K (prune W now log) e, true)) := by
  unfold offer
  by_cases hf : Fresh W now e.2
  · by_cases hd : e.1 ∈ (prune W now log).map Prod.fst
    · exact .inr (.inl ⟨hf, hd, by rw [if_pos hf, if_pos hd]⟩)
    · exact .inr (.inr ⟨hf, hd, by rw [if_pos hf, if_neg hd]⟩)
  · exact .inl ⟨hf, if_neg hf⟩

omit [DecidableEq ν] in
theorem prune_suffix (W now : Nat) (log : List (ν × Nat)) : prune W now log <:+ log :=
  List.dropWhile_suffix _

omit [DecidableEq ν] in
theorem length_prune_le (W now : Nat) (log : List (ν × Nat)) :
    (prune W now log).length ≤ log.length :=
  (prune_suffix W now log).length_le

omit [DecidableEq ν] in
theorem length_record_le {K : Nat} (hK : 0 < K) {log : List (ν × Nat)} (hlog : log.length ≤ K)
    (e : ν × Nat) : (record K log e).length ≤ K := by
  unfold record
  split
  · simpa using by omega
  · simp only [List.length_append, List.length_tail, List.length_singleton]
    omega

omit [DecidableEq ν] in
/-- A new identity keeps the identities of the log distinct. -/
theorem nodup_record {K : Nat} {log : List (ν × Nat)} {e : ν × Nat}
    (hlog : (log.map Prod.fst).Nodup) (hnew : e.1 ∉ log.map Prod.fst) :
    ((record K log e).map Prod.fst).Nodup := by
  have happend : ((log ++ [e]).map Prod.fst).Nodup := by
    rw [List.map_append]
    exact hlog.append (List.nodup_singleton _) (by simpa using hnew)
  have htail : (log.tail ++ [e]).Sublist (log ++ [e]) :=
    (List.tail_sublist log).append (List.Sublist.refl _)
  unfold record
  split
  · exact happend
  · exact happend.sublist (htail.map Prod.fst)

omit [DecidableEq ν] in
/-- Making room before appending is the same as dropping the overflow after. -/
theorem record_eq_append_drop {K : Nat} (hK : 0 < K) (log : List (ν × Nat)) (e : ν × Nat) :
    record K log e =
      if (log ++ [e]).length > K then (log ++ [e]).tail else log ++ [e] := by
  unfold record
  rw [List.length_append, List.length_singleton]
  by_cases hroom : log.length < K
  · rw [if_pos hroom, if_neg (by omega)]
  · have hne : log ≠ [] := by
      rintro rfl
      exact hroom hK
    rw [if_neg hroom, if_pos (by omega), List.tail_append_of_ne_nil hne]

/-- The log never outgrows its capacity. -/
theorem length_offer_le {W K : Nat} (hK : 0 < K) {log : List (ν × Nat)}
    (hlog : log.length ≤ K) (now : Nat) (e : ν × Nat) :
    (offer W K log now e).1.length ≤ K := by
  have hprune := Nat.le_trans (length_prune_le W now log) hlog
  rcases offer_cases W K log now e with ⟨-, h⟩ | ⟨-, -, h⟩ | ⟨-, -, h⟩ <;> rw [h]
  · exact hlog
  · exact hprune
  · exact length_record_le hK hprune e

/-! ## Refused offers -/

/-- The log has lost its first items, and each of them was stale. -/
def Sheds (W now : Nat) (log log' : List (ν × Nat)) : Prop :=
  ∃ dropped, log = dropped ++ log' ∧ ∀ e ∈ dropped, Stale W now e.2

omit [DecidableEq ν] in
theorem Sheds.refl (W now : Nat) (log : List (ν × Nat)) : Sheds W now log log :=
  ⟨[], rfl, fun _ h => by cases h⟩

omit [DecidableEq ν] in
theorem sheds_prune (W now : Nat) (log : List (ν × Nat)) :
    Sheds W now log (prune W now log) := by
  refine ⟨log.takeWhile fun e => decide (Stale W now e.2),
    List.takeWhile_append_dropWhile.symm, ?_⟩
  intro e he
  have hstale := List.mem_takeWhile_imp he
  exact of_decide_eq_true hstale

omit [DecidableEq ν] in
/-- What is not stale is not shed. -/
theorem Sheds.mem {W now : Nat} {log log' : List (ν × Nat)} (h : Sheds W now log log')
    {e : ν × Nat} (he : e ∈ log) (hlive : ¬Stale W now e.2) : e ∈ log' := by
  obtain ⟨dropped, rfl, hstale⟩ := h
  rcases List.mem_append.mp he with hdropped | hkept
  · exact absurd (hstale e hdropped) hlive
  · exact hkept

/-- A refused offer costs the log stale items only. -/
theorem sheds_of_refused {W K : Nat} {log : List (ν × Nat)} {now : Nat} {e : ν × Nat}
    (h : (offer W K log now e).2 = false) : Sheds W now log (offer W K log now e).1 := by
  rcases offer_cases W K log now e with ⟨-, heq⟩ | ⟨-, -, heq⟩ | ⟨-, -, heq⟩
  · rw [heq]
    exact .refl W now log
  · rw [heq]
    exact sheds_prune W now log
  · rw [heq] at h
    cases h

/-- An item that is in the log is refused. -/
theorem refused_of_mem {W K : Nat} {log : List (ν × Nat)} {e : ν × Nat} (he : e ∈ log)
    (now : Nat) : (offer W K log now e).2 = false := by
  rcases offer_cases W K log now e with ⟨-, heq⟩ | ⟨-, -, heq⟩ | ⟨hfresh, hnew, -⟩
  · rw [heq]
  · rw [heq]
  · have hkept := (sheds_prune W now log).mem he (Nat.not_lt.mpr hfresh.1)
    exact absurd (List.mem_map_of_mem hkept) hnew

/-- An empty log admits exactly what is fresh. -/
theorem offer_nil_iff (W K now : Nat) (e : ν × Nat) :
    (offer W K [] now e).2 = true ↔ Fresh W now e.2 := by
  rcases offer_cases W K [] now e with ⟨hstale, h⟩ | ⟨-, hmem, -⟩ | ⟨hfresh, -, h⟩
  · rw [h]
    exact iff_of_false Bool.false_ne_true hstale
  · simp [prune] at hmem
  · rw [h]
    exact iff_of_true rfl hfresh

/-! ## A log with a set of its identities beside it -/

/-- `mem` tells the identities of the log, which are distinct. -/
structure Indexed (mem : ν → Prop) (log : List (ν × Nat)) : Prop where
  nodup : (log.map Prod.fst).Nodup
  mem_iff : ∀ n, mem n ↔ n ∈ log.map Prod.fst

section Indexed

variable {mem mem' : ν → Prop} {log : List (ν × Nat)} {e : ν × Nat}

omit [DecidableEq ν] in
/-- Dropping the first item and taking its identity out of the set. -/
theorem Indexed.dropFirst (h : Indexed mem (e :: log))
    (herase : ∀ n, mem' n ↔ n ≠ e.1 ∧ mem n) : Indexed mem' log := by
  have hnodup := h.nodup
  rw [List.map_cons, List.nodup_cons] at hnodup
  refine ⟨hnodup.2, ?_⟩
  intro n
  rw [herase, h.mem_iff, List.map_cons, List.mem_cons]
  constructor
  · rintro ⟨hne, rfl | hmem⟩
    · exact absurd rfl hne
    · exact hmem
  · intro hmem
    exact ⟨fun heq => hnodup.1 (heq ▸ hmem), .inr hmem⟩

omit [DecidableEq ν] in
/-- Appending an item with a new identity and adding it to the set. -/
theorem Indexed.append (h : Indexed mem log) (hnew : ¬mem e.1)
    (hinsert : ∀ n, mem' n ↔ n = e.1 ∨ mem n) : Indexed mem' (log ++ [e]) := by
  constructor
  · rw [List.map_append, List.nodup_append]
    refine ⟨h.nodup, by simp, ?_⟩
    intro n hn m hm heq
    simp only [List.map_cons, List.map_nil, List.mem_singleton] at hm
    subst heq hm
    exact hnew ((h.mem_iff _).mpr hn)
  · intro n
    rw [hinsert, h.mem_iff, List.map_append, List.mem_append, or_comm]
    simp

end Indexed

/-! ## The log against the history -/

/-- The log is the end of the history of admitted items, and an item of the
history that is not in the log any more is stale, or `ok n` where `n` is the
number of items admitted after it. -/
structure Tracks (ok : Nat → Prop) (W now : Nat) (hist log : List (ν × Nat)) : Prop where
  suffix : log <:+ hist
  forgotten : ∀ i e, hist[i]? = some e → i + log.length < hist.length →
    Stale W now e.2 ∨ ok (hist.length - (i + 1))

section Tracks

variable {ok : Nat → Prop} {W now : Nat} {hist log : List (ν × Nat)}

omit [DecidableEq ν] in
theorem Tracks.nil : Tracks ok W now ([] : List (ν × Nat)) [] :=
  ⟨List.suffix_rfl, by simp⟩

omit [DecidableEq ν] in
/-- Stale items stay stale as the clock advances. -/
theorem Tracks.mono {later : Nat} (h : Tracks ok W now hist log) (hle : now ≤ later) :
    Tracks ok W later hist log :=
  ⟨h.suffix, fun i e he hi =>
    (h.forgotten i e he hi).imp_left fun hs => Nat.lt_of_lt_of_le hs hle⟩

omit [DecidableEq ν] in
/-- An item the log still covers is in the log. -/
theorem Tracks.mem (h : Tracks ok W now hist log) {i : Nat} {e : ν × Nat}
    (he : hist[i]? = some e) (hlive : ¬Stale W now e.2) (hok : ¬ok (hist.length - (i + 1))) :
    e ∈ log := by
  obtain ⟨old, rfl⟩ := h.suffix
  have hi : ¬(i + log.length < (old ++ log).length) := fun hi =>
    (h.forgotten i e he hi).elim hlive hok
  rw [List.length_append] at hi
  rw [List.getElem?_append_right (by omega)] at he
  exact List.mem_of_getElem? he

omit [DecidableEq ν] in
/-- Pruning forgets stale items only. -/
theorem Tracks.prune (h : Tracks ok W now hist log) :
    Tracks ok W now hist (prune W now log) := by
  refine ⟨(prune_suffix W now log).trans h.suffix, ?_⟩
  intro i e he hi
  by_cases hold : i + log.length < hist.length
  · exact h.forgotten i e he hold
  · -- The item was in the log, so it is in the prefix that pruning drops.
    obtain ⟨old, rfl⟩ := h.suffix
    rw [List.length_append] at hi hold
    rw [List.getElem?_append_right (by omega)] at he
    have hsplit : log = log.takeWhile (fun e => decide (Stale W now e.2)) ++
        DedupLog.prune W now log := (List.takeWhile_append_dropWhile).symm
    have hlen := congrArg List.length hsplit
    rw [List.length_append] at hlen
    rw [hsplit, List.getElem?_append_left (by omega)] at he
    have hstale := List.mem_takeWhile_imp (List.mem_of_getElem? he)
    exact .inl (of_decide_eq_true hstale)

omit [DecidableEq ν] in
/-- Appending an item forgets nothing. -/
theorem Tracks.append (hok : ∀ n, ok n → ok (n + 1)) (h : Tracks ok W now hist log)
    (e : ν × Nat) : Tracks ok W now (hist ++ [e]) (log ++ [e]) := by
  refine ⟨List.suffix_append_inj_of_length_eq rfl |>.mpr ⟨h.suffix, rfl⟩, ?_⟩
  intro i x hx hi
  simp only [List.length_append, List.length_singleton] at hi ⊢
  rw [List.getElem?_append_left (by omega)] at hx
  rcases h.forgotten i x hx (by omega) with hstale | hnewer
  · exact .inl hstale
  · right
    -- The appended item is one more that came after `x`.
    rw [show hist.length + 1 - (i + 1) = hist.length - (i + 1) + 1 by omega]
    exact hok _ hnewer

omit [DecidableEq ν] in
/-- Dropping the oldest item of a non-empty log is accounted for when that item
is followed by `log.length - 1` newer ones. -/
theorem Tracks.tail (h : Tracks ok W now hist log) (hne : 0 < log.length)
    (hdrop : ok (log.length - 1)) : Tracks ok W now hist log.tail := by
  refine ⟨(List.tail_suffix log).trans h.suffix, ?_⟩
  intro i e he hi
  by_cases hold : i + log.length < hist.length
  · exact h.forgotten i e he hold
  · -- `e` is the dropped item.
    rw [List.length_tail] at hi
    rw [show hist.length - (i + 1) = log.length - 1 by omega]
    exact .inr hdrop

end Tracks

/-! ## Runs -/

/-- The items admitted by a run, in order. -/
def admitted (W K : Nat) (xs : List (Nat × (ν × Nat))) : List (ν × Nat) :=
  ((guard ν W K).kept [] xs).map Prod.snd

/-- The log after a run from the empty one. -/
def logAfter (W K : Nat) (xs : List (Nat × (ν × Nat))) : List (ν × Nat) :=
  (guard ν W K).exec [] xs

/-- The clock of a run does not go back. -/
def Clocked (xs : List (Nat × (ν × Nat))) : Prop := xs.Pairwise fun x y => x.1 ≤ y.1

theorem logAfter_concat (W K : Nat) (xs : List (Nat × (ν × Nat))) (x : Nat × (ν × Nat)) :
    logAfter W K (xs ++ [x]) = (offer W K (logAfter W K xs) x.1 x.2).1 :=
  Machine.exec_append _ _ _ _

theorem admitted_concat (W K : Nat) (xs : List (Nat × (ν × Nat))) (x : Nat × (ν × Nat)) :
    admitted W K (xs ++ [x]) =
      admitted W K xs ++ if (offer W K (logAfter W K xs) x.1 x.2).2 then [x.2] else [] := by
  unfold admitted
  rw [Machine.kept_concat, List.map_append]
  congr 1
  show List.map Prod.snd (if (offer W K (logAfter W K xs) x.1 x.2).2 = true then [x] else []) = _
  split <;> rfl

theorem length_logAfter_le {W K : Nat} (hK : 0 < K) (xs : List (Nat × (ν × Nat))) :
    (logAfter W K xs).length ≤ K :=
  Machine.exec_invariant (guard ν W K) (I := fun log => log.length ≤ K)
    (fun _ x hlog => length_offer_le hK hlog x.1 x.2) (by simp) xs

/-- The identities of the log are distinct. -/
theorem nodup_logAfter (W K : Nat) (xs : List (Nat × (ν × Nat))) :
    ((logAfter W K xs).map Prod.fst).Nodup := by
  refine Machine.exec_invariant (guard ν W K) (I := fun log => (log.map Prod.fst).Nodup)
    (fun log x hlog => ?_) (by simp) xs
  have hprune : ((prune W x.1 log).map Prod.fst).Nodup :=
    hlog.sublist ((prune_suffix W x.1 log).sublist.map Prod.fst)
  show ((offer W K log x.1 x.2).1.map Prod.fst).Nodup
  rcases offer_cases W K log x.1 x.2 with ⟨-, h⟩ | ⟨-, -, h⟩ | ⟨-, hnew, h⟩ <;> rw [h]
  · exact hlog
  · exact hprune
  · exact nodup_record hprune hnew

/-- One offer keeps `Tracks`, provided a full log may drop its oldest item. -/
theorem Tracks.offer {ok : Nat → Prop} (hok : ∀ n, ok n → ok (n + 1)) {W K now : Nat}
    {hist log : List (ν × Nat)} (hlog : log.length ≤ K) (h : Tracks ok W now hist log)
    (e : ν × Nat)
    (hfull : e.1 ∉ (DedupLog.prune W now log).map Prod.fst → Fresh W now e.2 →
      (DedupLog.prune W now log).length = K → 0 < K ∧ ok K) :
    Tracks ok W now (hist ++ if (offer W K log now e).2 then [e] else [])
      (offer W K log now e).1 := by
  rcases offer_cases W K log now e with ⟨-, h'⟩ | ⟨-, -, h'⟩ | ⟨hf, hd, h'⟩ <;>
    simp only [h', Bool.false_eq_true, if_false, if_true, List.append_nil]
  · exact h
  · exact h.prune
  · unfold record
    have hle := Nat.le_trans (length_prune_le W now log) hlog
    by_cases hroom : (DedupLog.prune W now log).length < K
    · rw [if_pos hroom]
      exact h.prune.append hok e
    · rw [if_neg hroom]
      have hlen : (DedupLog.prune W now log).length = K := by omega
      obtain ⟨hK, hokK⟩ := hfull hd hf hlen
      have hne : DedupLog.prune W now log ≠ [] := by
        rintro hnil
        rw [hnil, List.length_nil] at hlen
        omega
      -- Append first: the oldest item is then followed by `K` others.
      rw [← List.tail_append_of_ne_nil hne]
      exact (h.prune.append hok e).tail (by simp) (by simpa [hlen] using hokK)

/-- Along a run whose clock does not go back, the log covers every item with
fewer than `K` admissions after it. -/
theorem tracks_run {W K : Nat} (hK : 0 < K) (xs : List (Nat × (ν × Nat))) {now : Nat}
    (hxs : Clocked xs) (hnow : ∀ x ∈ xs, x.1 ≤ now) :
    Tracks (K ≤ ·) W now (admitted W K xs) (logAfter W K xs) := by
  induction xs using List.reverseRecOn generalizing now with
  | nil => exact Tracks.nil
  | append_singleton xs x ih =>
    obtain ⟨hclock, -, hlast⟩ := List.pairwise_append.mp hxs
    have hx : x.1 ≤ now := hnow x (by simp)
    have hprev := ih hclock fun y hy => hlast y hy x (by simp)
    rw [admitted_concat, logAfter_concat]
    exact (hprev.offer (fun n hn => Nat.le_succ_of_le hn) (length_logAfter_le hK xs) x.2
      fun _ _ _ => ⟨hK, Nat.le_refl K⟩).mono hx

/-- An item with fewer than `K` admissions after it is refused, whenever it is
offered again. -/
theorem refuses_recent {W K : Nat} (hK : 0 < K) {xs : List (Nat × (ν × Nat))}
    {x : Nat × (ν × Nat)} (hxs : Clocked (xs ++ [x])) {before after : List (ν × Nat)}
    (hadm : admitted W K xs = before ++ x.2 :: after) (hafter : after.length < K) :
    (offer W K (logAfter W K xs) x.1 x.2).2 = false := by
  obtain ⟨hclock, -, hlast⟩ := List.pairwise_append.mp hxs
  have htracks := (tracks_run (W := W) hK xs hclock fun y hy => hlast y hy x (by simp)).prune
  by_cases hf : Fresh W x.1 x.2.2
  · have hmem : x.2 ∈ prune W x.1 (logAfter W K xs) := by
      refine htracks.mem (i := before.length) ?_ (Nat.not_lt.mpr hf.1) ?_
      · rw [hadm, List.getElem?_append_right (Nat.le_refl _)]
        simp
      · rw [hadm, List.length_append, List.length_cons]
        omega
    unfold offer
    rw [if_pos hf, if_pos (List.mem_map_of_mem hmem)]
  · unfold offer
    rw [if_neg hf]

/-- An admitted item was admitted by some offer of the run. -/
theorem exists_of_admitted_eq {W K : Nat} {xs : List (Nat × (ν × Nat))}
    {before after : List (ν × Nat)} {e : ν × Nat} (hadm : admitted W K xs = before ++ e :: after) :
    ∃ ys x zs, xs = ys ++ x :: zs ∧ x.2 = e ∧ admitted W K ys = before ∧
      (offer W K (logAfter W K ys) x.1 x.2).2 = true := by
  obtain ⟨kept₁, kept₂, hkept, hbefore, hrest⟩ := List.map_eq_append_iff.mp hadm
  obtain ⟨x, kept₃, rfl, hx, -⟩ := List.map_eq_cons_iff.mp hrest
  obtain ⟨ys, zs, hxs, hys, hadmits⟩ := Machine.exists_of_kept_eq hkept
  exact ⟨ys, x, zs, hxs, hx, by rw [admitted, hys, hbefore], hadmits⟩

/-- Any `K` consecutive admissions are of different items. -/
theorem nodup_of_length_le {W K : Nat} (hK : 0 < K) {xs : List (Nat × (ν × Nat))}
    (hxs : Clocked xs) {before block after : List (ν × Nat)}
    (hadm : admitted W K xs = before ++ (block ++ after)) (hlen : block.length ≤ K) :
    block.Nodup := by
  induction block using List.reverseRecOn generalizing after with
  | nil => exact List.nodup_nil
  | append_singleton block e ih =>
    rw [List.length_append, List.length_singleton] at hlen
    have hwhole : admitted W K xs = before ++ (block ++ e :: after) := by simpa using hadm
    have hblock := ih hwhole (by omega)
    refine hblock.append (List.nodup_singleton e) ?_
    rw [List.disjoint_singleton]
    intro hmem
    -- The second admission of `e` would come too soon after the first.
    obtain ⟨first, second, rfl⟩ := List.append_of_mem hmem
    have hsecond : admitted W K xs = (before ++ (first ++ e :: second)) ++ e :: after := by
      simpa using hadm
    obtain ⟨ys, x, zs, rfl, rfl, hys, hadmits⟩ := exists_of_admitted_eq hsecond
    have hclock : Clocked (ys ++ [x]) := hxs.sublist (by simp)
    have hfirst : admitted W K ys = (before ++ first) ++ x.2 :: second := by simpa using hys
    rw [List.length_append, List.length_cons] at hlen
    rw [refuses_recent hK hclock hfirst (by omega)] at hadmits
    exact absurd hadmits (by decide)

/-- **Refusal.** An admitted item is refused until `K` different ones have been
admitted after it. -/
theorem refuses_until_displaced {W K : Nat} (hK : 0 < K) {xs : List (Nat × (ν × Nat))}
    {x : Nat × (ν × Nat)} (hxs : Clocked (xs ++ [x])) {before after : List (ν × Nat)}
    (hadm : admitted W K xs = before ++ x.2 :: after)
    (hafter : (after.toFinset.erase x.2).card < K) :
    (offer W K (logAfter W K xs) x.1 x.2).2 = false := by
  -- Count from the last admission of the item.
  obtain ⟨before', last, hsplit, hlast⟩ : ∃ before' last,
      x.2 :: after = before' ++ x.2 :: last ∧ x.2 ∉ last := by
    obtain ⟨as, bs, hrev, hnot⟩ :=
      List.eq_append_cons_of_mem (List.mem_reverse.mpr (List.mem_cons_self (l := after)))
    refine ⟨bs.reverse, as.reverse, ?_, by simpa using hnot⟩
    rw [← List.reverse_inj, hrev]
    simp
  have hsub : last ⊆ after := by
    cases before' with
    | nil => exact (List.cons.inj hsplit).2 ▸ List.Subset.refl _
    | cons b before' =>
      rw [(List.cons.inj hsplit).2]
      exact fun e he => by simp [he]
  have hrecent : admitted W K xs = (before ++ before') ++ x.2 :: last := by
    rw [hadm, hsplit, List.append_assoc]
  refine refuses_recent hK hxs hrecent ?_
  by_contra hlong
  have hclock : Clocked xs := hxs.sublist (by simp)
  have hblock : admitted W K xs =
      (before ++ before' ++ [x.2]) ++ (last.take K ++ last.drop K) := by
    rw [hrecent, List.take_append_drop]
    simp
  have hnodup : (last.take K).Nodup := nodup_of_length_le hK hclock hblock (by simp)
  have hcard : (last.take K).toFinset ⊆ after.toFinset.erase x.2 := by
    intro e he
    have he := List.mem_of_mem_take (List.mem_toFinset.mp he)
    exact Finset.mem_erase.mpr
      ⟨fun h => hlast (h ▸ he), List.mem_toFinset.mpr (hsub he)⟩
  have hle := Finset.card_le_card hcard
  rw [List.toFinset_card_of_nodup hnodup, List.length_take] at hle
  omega

/-- **Admission.** A fresh item whose identity is not among the last `K`
admitted ones is admitted. -/
theorem admits_unseen {W K : Nat} (hK : 0 < K) {xs : List (Nat × (ν × Nat))}
    {x : Nat × (ν × Nat)} (hxs : Clocked (xs ++ [x])) (hf : Fresh W x.1 x.2.2)
    (hnew : ∀ e ∈ (admitted W K xs).rtake K, e.1 ≠ x.2.1) :
    (offer W K (logAfter W K xs) x.1 x.2).2 = true := by
  obtain ⟨hclock, -, hlast⟩ := List.pairwise_append.mp hxs
  have htracks := (tracks_run (W := W) hK xs hclock fun y hy => hlast y hy x (by simp)).prune
  have hlen : (prune W x.1 (logAfter W K xs)).length ≤ K :=
    Nat.le_trans (length_prune_le _ _ _) (length_logAfter_le hK xs)
  have hnot : x.2.1 ∉ (prune W x.1 (logAfter W K xs)).map Prod.fst := by
    intro hin
    obtain ⟨e, he, heq⟩ := List.mem_map.mp hin
    refine hnew e ?_ heq
    -- The log is a suffix of at most `K` items, so it lies within the last `K`.
    obtain ⟨old, hold⟩ := htracks.suffix
    have hlog : prune W x.1 (logAfter W K xs) = (admitted W K xs).drop old.length := by
      rw [← hold, List.drop_left]
    rw [hlog] at he
    have hcount := congrArg List.length hold
    rw [List.length_append] at hcount
    exact (List.drop_suffix_drop_left _ (by omega)).subset he
  unfold offer
  rw [if_pos hf, if_neg hnot]

/-! ## Live sets that fit the capacity -/

/-- The offer admits a new item into a full log with a live item at the front
and a stale one behind it, so that it is the live one that goes. -/
def DropsLive (W K : Nat) (log : List (ν × Nat)) (x : Nat × (ν × Nat)) : Prop :=
  Fresh W x.1 x.2.2 ∧ x.2.1 ∉ log.map Prod.fst ∧ log.length = K ∧
    (∀ e ∈ log.head?, ¬Stale W x.1 e.2) ∧ ∃ e ∈ log, Stale W x.1 e.2

instance (W K : Nat) (log : List (ν × Nat)) (x : Nat × (ν × Nat)) :
    Decidable (DropsLive W K log x) := inferInstanceAs (Decidable (_ ∧ _))

/-- After every offer of the run, at most `K` of the items admitted so far are
fresh. -/
def Fits (W K : Nat) (xs : List (Nat × (ν × Nat))) : Prop :=
  ∀ ys x zs, xs = ys ++ x :: zs →
    ((admitted W K (ys ++ [x])).toFinset.filter fun e => Fresh W x.1 e.2).card ≤ K

omit [DecidableEq ν] in
/-- A log that is full after pruning was not pruned: its front is live. -/
theorem prune_of_full {W K now : Nat} {log : List (ν × Nat)} (hlog : log.length ≤ K)
    (hfull : (prune W now log).length = K) :
    prune W now log = log ∧ ∀ e ∈ log.head?, ¬Stale W now e.2 := by
  have heq := (prune_suffix W now log).eq_of_length_le (hfull ▸ hlog)
  refine ⟨heq, ?_⟩
  intro e he
  cases log with
  | nil => simp at he
  | cons d log =>
    obtain rfl : d = e := by simpa using he
    intro hstale
    have hlt := length_prune_le W now log
    rw [prune, List.dropWhile_cons_of_pos (by simpa using hstale)] at hfull
    rw [List.length_cons] at hlog
    exact absurd hlt (by unfold prune; omega)

/-- No item was stamped more than `W` after the time it was admitted. -/
theorem admitted_not_ahead {W K : Nat} (xs : List (Nat × (ν × Nat))) {now : Nat}
    (hnow : ∀ x ∈ xs, x.1 ≤ now) : ∀ e ∈ admitted W K xs, e.2 ≤ now + W := by
  induction xs using List.reverseRecOn with
  | nil => simp [admitted, Machine.kept]
  | append_singleton xs x ih =>
    intro e he
    rw [admitted_concat] at he
    rcases List.mem_append.mp he with he | he
    · exact ih (fun y hy => hnow y (by simp [hy])) e he
    · have hx := hnow x (by simp)
      rcases offer_cases W K (logAfter W K xs) x.1 x.2 with ⟨-, h⟩ | ⟨-, -, h⟩ | ⟨hf, -, h⟩ <;>
        simp only [h, Bool.false_eq_true, if_false, if_true, List.not_mem_nil,
          List.mem_singleton] at he
      subst he
      exact Nat.le_trans hf.2 (by omega)

/-- Along a run that never drops a live item for a stale one, and whose live
set fits the capacity, only stale items are forgotten. -/
theorem tracks_of_fits {W K : Nat} (hK : 0 < K) (xs : List (Nat × (ν × Nat))) {now : Nat}
    (hxs : Clocked xs) (hnow : ∀ x ∈ xs, x.1 ≤ now)
    (hlive : (guard ν W K).Along (fun log x => ¬DropsLive W K log x) [] xs)
    (hfits : Fits W K xs) :
    Tracks (fun _ => False) W now (admitted W K xs) (logAfter W K xs) := by
  induction xs using List.reverseRecOn generalizing now with
  | nil => exact Tracks.nil
  | append_singleton xs x ih =>
    obtain ⟨hclock, -, hlast⟩ := List.pairwise_append.mp hxs
    have hbefore : ∀ y ∈ xs, y.1 ≤ x.1 := fun y hy => hlast y hy x (by simp)
    obtain ⟨hlive, hdrop⟩ := (Machine.along_append _ _ _ _ _).mp hlive
    have hprev := ih hclock hbefore hlive fun ys y zs h =>
      hfits ys y (zs ++ [x]) (by simp [h])
    rw [admitted_concat, logAfter_concat]
    refine (hprev.offer (fun _ h => h) (length_logAfter_le hK xs) x.2
      fun hnew hf hfull => ?_).mono (hnow x (by simp))
    -- Dropping an item would make `K + 1` items fresh at once.
    exfalso
    obtain ⟨hlog, hhead⟩ := prune_of_full (length_logAfter_le hK xs) hfull
    rw [hlog] at hnew hfull
    have hids : ((logAfter W K xs ++ [x.2]).map Prod.fst).Nodup := by
      rw [List.map_append]
      exact (nodup_logAfter W K xs).append (List.nodup_singleton _) (by simpa using hnew)
    have hsub : (logAfter W K xs ++ [x.2]).toFinset ⊆
        (admitted W K (xs ++ [x])).toFinset.filter fun e => Fresh W x.1 e.2 := by
      have hadm : admitted W K (xs ++ [x]) = admitted W K xs ++ [x.2] := by
        rw [admitted_concat]
        unfold offer
        rw [if_pos hf, hlog, if_neg hnew]
        rfl
      intro e he
      rw [Finset.mem_filter, List.mem_toFinset, hadm]
      rcases List.mem_append.mp (List.mem_toFinset.mp he) with he | he
      · have hlive : ¬Stale W x.1 e.2 := fun hs => hdrop.1 ⟨hf, hnew, hfull, hhead, e, he, hs⟩
        have hin := hprev.suffix.subset he
        exact ⟨List.mem_append_left _ hin, Nat.not_lt.mp hlive,
          admitted_not_ahead xs hbefore e hin⟩
      · rw [List.mem_singleton.mp he]
        exact ⟨by simp, hf⟩
    have hcount := (Finset.card_le_card hsub).trans (hfits xs x [] rfl)
    rw [List.toFinset_card_of_nodup (List.Nodup.of_map _ hids), List.length_append,
      List.length_singleton] at hcount
    omega

/-- **Single admission.** Such a run admits no item twice. -/
theorem nodup_of_fits {W K : Nat} (hK : 0 < K) (xs : List (Nat × (ν × Nat)))
    (hxs : Clocked xs)
    (hlive : (guard ν W K).Along (fun log x => ¬DropsLive W K log x) [] xs)
    (hfits : Fits W K xs) : (admitted W K xs).Nodup := by
  induction xs using List.reverseRecOn with
  | nil => simp [admitted, Machine.kept]
  | append_singleton xs x ih =>
    obtain ⟨hclock, -, hlast⟩ := List.pairwise_append.mp hxs
    obtain ⟨hlive, -⟩ := (Machine.along_append _ _ _ _ _).mp hlive
    have hfits' : Fits W K xs := fun ys y zs h => hfits ys y (zs ++ [x]) (by simp [h])
    have htracks := (tracks_of_fits hK xs hclock (fun y hy => hlast y hy x (by simp))
      hlive hfits').prune
    rw [admitted_concat]
    rcases offer_cases W K (logAfter W K xs) x.1 x.2 with ⟨-, h⟩ | ⟨-, -, h⟩ | ⟨hf, hd, h⟩ <;>
      simp only [h, Bool.false_eq_true, if_false, if_true, List.append_nil]
    · exact ih hclock hlive hfits'
    · exact ih hclock hlive hfits'
    · refine List.nodup_append.mpr ⟨ih hclock hlive hfits', by simp, ?_⟩
      intro e he e' he' heq
      rw [List.mem_singleton.mp he'] at heq
      subst heq
      -- An earlier admission of the same item would still be in the log.
      obtain ⟨i, hi, hget⟩ := List.getElem_of_mem he
      have hmem := htracks.mem (List.getElem?_eq_some_iff.mpr ⟨hi, hget⟩)
        (Nat.not_lt.mpr hf.1) (by simp)
      exact hd (List.mem_map_of_mem hmem)

end Mpubsub.Lib.DedupLog
