import Mpubsub.Lib.DedupLog

/-!
# Exactly once

Inputs of any kind reach a process, and some of them offer an item to its de-duplication
log (`offerOf`). An item that alone bears its identity is admitted at exactly one place of
the run, however often it is offered: at the first place where it is fresh
(`exists_unique_admission`). What is asked of the run is that the log is not pushed through
while copies of the item keep coming in time: less than `K` other items are admitted in the
span of the run that has them.
-/

namespace Mpubsub.Lib.DedupLog

variable {α ν : Type*} [DecidableEq ν]

/-- The items that are admitted in `ys`, after the run `xs`. -/
def admittedSince (W K : Nat) (xs ys : List (Nat × (ν × Nat))) : List (ν × Nat) :=
  ((guard ν W K).kept (logAfter W K xs) ys).map Prod.snd

theorem admitted_append (W K : Nat) (xs ys : List (Nat × (ν × Nat))) :
    admitted W K (xs ++ ys) = admitted W K xs ++ admittedSince W K xs ys := by
  rw [admitted, Machine.kept_append, List.map_append]
  rfl

theorem admittedSince_append (W K : Nat) (xs ys zs : List (Nat × (ν × Nat))) :
    admittedSince W K xs (ys ++ zs) =
      admittedSince W K xs ys ++ admittedSince W K (xs ++ ys) zs := by
  rw [admittedSince, Machine.kept_append, List.map_append, admittedSince, admittedSince, logAfter,
    logAfter, Machine.exec_append]

/-- What is not fresh is refused. -/
theorem refused_of_not_fresh {W K : Nat} {log : List (ν × Nat)} {now : Nat} {e : ν × Nat}
    (h : ¬Fresh W now e.2) : (offer W K log now e).2 = false := by
  unfold offer
  rw [if_neg h]

/-- An admitted item was offered while it was fresh. -/
theorem exists_fresh_of_mem_admitted {W K : Nat} {xs : List (Nat × (ν × Nat))} {e : ν × Nat}
    (h : e ∈ admitted W K xs) : ∃ now, (now, e) ∈ xs ∧ Fresh W now e.2 := by
  obtain ⟨before, after, hsplit⟩ := List.append_of_mem h
  obtain ⟨ys, x, zs, rfl, rfl, -, hadmits⟩ := exists_of_admitted_eq hsplit
  refine ⟨x.1, by simp, ?_⟩
  by_contra hstale
  rw [refused_of_not_fresh hstale] at hadmits
  exact absurd hadmits (by decide)

/-- A run with an input that satisfies `p` has a first one. -/
theorem exists_first {p : α → Prop} {xs : List α} (h : ∃ x ∈ xs, p x) :
    ∃ ys x zs, xs = ys ++ x :: zs ∧ p x ∧ ∀ y ∈ ys, ¬p y := by
  induction xs with
  | nil => simp at h
  | cons a xs ih =>
    by_cases ha : p a
    · exact ⟨[], a, xs, rfl, ha, by simp⟩
    · obtain ⟨x, hx, hpx⟩ := h
      have hx : x ∈ xs := by
        rcases List.mem_cons.mp hx with rfl | hx
        · exact absurd hpx ha
        · exact hx
      obtain ⟨ys, x, zs, rfl, hpx, hys⟩ := ih ⟨x, hx, hpx⟩
      exact ⟨a :: ys, x, zs, rfl, hpx, List.forall_mem_cons.mpr ⟨ha, hys⟩⟩

section Inputs

variable {W K : Nat} (offerOf : α → Option (Nat × (ν × Nat)))

/-- The item is offered while it is fresh. -/
def InTime (W : Nat) (e : ν × Nat) (x : α) : Prop :=
  ∃ now, offerOf x = some (now, e) ∧ Fresh W now e.2

/-- How the log answers an offer of the item behind the inputs `before`. -/
def answer (W K : Nat) (e : ν × Nat) (before : List α) (now : Nat) : Bool :=
  (offer W K (logAfter W K (before.filterMap offerOf)) now e).2

variable {offerOf}

/-- Before its first offer in time, an item has not been admitted. -/
theorem not_mem_admitted {e : ν × Nat} {xs : List α} (h : ∀ x ∈ xs, ¬InTime offerOf W e x) :
    e ∉ admitted W K (xs.filterMap offerOf) := by
  intro hmem
  obtain ⟨now, hoffered, hfresh⟩ := exists_fresh_of_mem_admitted hmem
  obtain ⟨x, hx, heq⟩ := List.mem_filterMap.mp hoffered
  exact h x hx ⟨now, heq, hfresh⟩

/-- What is admitted behind an admitted offer of `e`. -/
theorem admitted_behind {e : ν × Nat} {xs mid : List α} {x : α} {now : Nat}
    (hoffer : offerOf x = some (now, e)) (hadmitted : answer offerOf W K e xs now = true) :
    admitted W K ((xs ++ x :: mid).filterMap offerOf) =
      admitted W K (xs.filterMap offerOf) ++ e ::
        admittedSince W K ((xs ++ [x]).filterMap offerOf) (mid.filterMap offerOf) := by
  have hone : ((xs ++ [x]).filterMap offerOf) = xs.filterMap offerOf ++ [(now, e)] := by
    rw [List.filterMap_append, List.filterMap_cons_some hoffer, List.filterMap_nil]
  have hall : (xs ++ x :: mid).filterMap offerOf =
      (xs.filterMap offerOf ++ [(now, e)]) ++ mid.filterMap offerOf := by
    rw [List.filterMap_append, List.filterMap_cons_some hoffer, List.append_assoc]
    rfl
  have hadmitted : (offer W K (logAfter W K (xs.filterMap offerOf)) now e).2 = true := hadmitted
  rw [hall, hone, admitted_append, admitted_concat, hadmitted, if_pos rfl, List.append_assoc]
  rfl

/-- **Exactly once.** The item `e` is the only one of its identity. It is offered in time in the
part `span` of the run only, where less than `K` other items are admitted. Then one of its
offers is admitted, and every other one is refused. -/
theorem exists_unique_admission (hK : 0 < K) {e : ν × Nat} {before span after : List α}
    (hclock : Clocked ((before ++ span ++ after).filterMap offerOf))
    (hunique : ∀ x ∈ before ++ span ++ after, ∀ o, offerOf x = some o → o.2.1 = e.1 → o.2 = e)
    (hbefore : ∀ x ∈ before, ¬InTime offerOf W e x)
    (hspan : ∃ x ∈ span, InTime offerOf W e x)
    (hafter : ∀ x ∈ after, ¬InTime offerOf W e x)
    (hfew : ((admittedSince W K (before.filterMap offerOf) (span.filterMap offerOf)).toFinset.erase
      e).card < K) :
    ∃ ys x zs now, before ++ span ++ after = ys ++ x :: zs ∧ offerOf x = some (now, e) ∧
      answer offerOf W K e ys now = true ∧
      ∀ ys' x' zs' now', before ++ span ++ after = ys' ++ x' :: zs' →
        offerOf x' = some (now', e) → ys'.length ≠ ys.length →
        answer offerOf W K e ys' now' = false := by
  obtain ⟨early, x, late, rfl, ⟨now, hoffer, hfresh⟩, hearly⟩ := exists_first hspan
  have hnone : ∀ y ∈ before ++ early, ¬InTime offerOf W e y :=
    List.forall_mem_append.mpr ⟨hbefore, hearly⟩
  have hwhole : before ++ (early ++ x :: late) ++ after =
      (before ++ early) ++ x :: (late ++ after) := by simp
  have hadmitted : answer offerOf W K e (before ++ early) now = true := by
    have hclock' : Clocked ((before ++ early).filterMap offerOf ++ [(now, e)]) := by
      refine hclock.sublist ?_
      rw [hwhole, List.filterMap_append (l := before ++ early), List.filterMap_cons_some hoffer]
      exact List.Sublist.append_left (by simp) _
    refine admits_unseen hK hclock' hfresh ?_
    intro o ho heq
    have ho := List.mem_of_mem_drop ho
    have hin := exists_fresh_of_mem_admitted ho
    obtain ⟨when, hoffered, -⟩ := hin
    obtain ⟨y, hy, hoy⟩ := List.mem_filterMap.mp hoffered
    have hy' : y ∈ before ++ (early ++ x :: late) ++ after := by
      rw [hwhole]
      exact List.mem_append_left _ hy
    have hsame : o = e := hunique y hy' _ hoy heq
    exact not_mem_admitted hnone (hsame ▸ ho)
  refine ⟨before ++ early, x, late ++ after, now, hwhole, hoffer, hadmitted, ?_⟩
  intro ys' x' zs' now' hsplit hoffer' hne
  by_cases hfresh' : Fresh W now' e.2
  swap
  · exact refused_of_not_fresh hfresh'
  have htime : InTime offerOf W e x' := ⟨now', hoffer', hfresh'⟩
  rw [hwhole] at hsplit
  rcases List.append_eq_append_iff.mp hsplit with ⟨mid, hys', hrest⟩ | ⟨mid, hys, hrest⟩
  · -- A copy behind the first one in time.
    cases mid with
    | nil => exact absurd (by simp [hys']) hne
    | cons y mid =>
      rw [List.cons_append] at hrest
      obtain ⟨rfl, hlast⟩ := List.cons.inj hrest
      -- It is in the span, since it is in time.
      obtain ⟨rest, hlate⟩ : mid <+: late := by
        rcases List.append_eq_append_iff.mp hlast with ⟨more, -, htail⟩ | ⟨more, hlate, -⟩
        · have hx' : x' ∈ after := by
            rw [htail]
            simp
          exact absurd htime (hafter x' hx')
        · exact ⟨more, hlate.symm⟩
      have hclock' : Clocked (ys'.filterMap offerOf ++ [(now', e)]) := by
        refine hclock.sublist ?_
        rw [hwhole, hsplit, List.filterMap_append (l := ys'), List.filterMap_cons_some hoffer']
        exact List.Sublist.append_left (by simp) _
      subst hys'
      refine refuses_until_displaced hK hclock' (admitted_behind hoffer hadmitted) ?_
      refine Nat.lt_of_le_of_lt (Finset.card_le_card (Finset.erase_subset_erase _ ?_)) hfew
      -- What is admitted between the two copies is admitted in the span.
      intro o ho
      rw [List.mem_toFinset] at ho ⊢
      have hspan : (early ++ x :: late).filterMap offerOf =
          (early ++ [x]).filterMap offerOf ++ (mid.filterMap offerOf ++ rest.filterMap offerOf) := by
        rw [← List.filterMap_append, ← List.filterMap_append, hlate]
        simp
      rw [hspan, admittedSince_append, admittedSince_append, ← List.filterMap_append,
        ← List.append_assoc before]
      exact List.mem_append_right _ (List.mem_append_left _ ho)
  · -- A copy ahead of the first one in time.
    have hx' : x' ∈ before ++ early := by
      cases mid with
      | nil => 
        exact absurd (by rw [hys]; simp) hne
      | cons y mid =>
        obtain ⟨rfl, -⟩ := List.cons.inj hrest
        rw [hys]
        simp
    exact absurd htime (hnone x' hx')

end Inputs

end Mpubsub.Lib.DedupLog
