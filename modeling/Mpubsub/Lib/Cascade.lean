import Mathlib.Data.Fintype.Card
import Mathlib.Logic.Hydra
import Mathlib.Tactic.Abel

/-!
# Cascades

Items are on their way. To handle one is to put any number of the items that it leads to in
its place: none if it is lost, several copies if it is repeated. A cascade comes to rest if
there is no infinite run.

* `settles` — it does if the items that follow from one another cannot do so for ever;
* `wellFounded_of_acyclic` — which a finite relation cannot if it has no cycle;
* `exists_run` — it does not if from each state of a round there is a way to one of the next round.
-/

namespace Mpubsub.Lib.Cascade

open Relation

variable {α : Type*}

/-- One item is handled. -/
inductive Step (leads : α → α → Prop) : List α → List α → Prop where
  | handle {a : α} {made : List α} (before after : List α) (h : ∀ b ∈ made, leads a b) :
      Step leads (before ++ a :: after) (before ++ made ++ after)

variable {leads : α → α → Prop}

/-- A step takes an item out of the bag of items, and puts others in that it leads to. -/
theorem Step.cutExpand {s s' : List α} (h : Step leads s s') :
    CutExpand (flip leads) (s' : Multiset α) (s : Multiset α) := by
  obtain @⟨a, made, before, after, hmade⟩ := h
  refine ⟨(made : Multiset α), a, fun b hb => hmade b (by simpa using hb), ?_⟩
  simp only [← Multiset.coe_add, ← Multiset.cons_coe, ← Multiset.singleton_add]
  abel

/-- **Settling.** -/
theorem settles (h : WellFounded (flip leads)) : WellFounded fun s' s => Step leads s s' :=
  Subrelation.wf (fun hstep => hstep.cutExpand) (InvImage.wf (fun s : List α => (s : Multiset α))
    h.cutExpand)

/-- A relation with no cycle among finitely many elements is well-founded from both ends. -/
theorem wellFounded_of_acyclic [Finite α] {r : α → α → Prop} (h : ∀ a, ¬TransGen r a a) :
    WellFounded (flip r) := by
  have hwf : WellFounded (TransGen (flip r)) :=
    @Finite.wellFounded_of_trans_of_irrefl α _ _ ⟨fun _ _ _ => TransGen.trans⟩
      ⟨fun a ha => h a (transGen_swap.mp ha)⟩
  exact Subrelation.wf TransGen.single hwf

/-- If two steps of the round `n` lead from any state that is `n` rounds ahead to one that is
`n + 1` rounds ahead, they can go on for ever. -/
theorem exists_run {σ : Type*} (step : Nat → σ → σ → Prop) (P : Nat → σ → Prop) {s : σ}
    (hs : P 0 s) (h : ∀ n s, P n s → ∃ mid s', step n s mid ∧ step n mid s' ∧ P (n + 1) s') :
    ∃ run : Nat → σ, run 0 = s ∧ (∀ n, step (n / 2) (run n) (run (n + 1))) ∧
      ∀ n, P n (run (2 * n)) := by
  choose! mid next hfirst hsecond hnext using h
  let round : Nat → σ := fun n => n.rec s next
  have hround : ∀ n, P n (round n) := by
    intro n
    induction n with
    | zero => exact hs
    | succ n ih => exact hnext _ _ ih
  refine ⟨fun n => if n % 2 = 0 then round (n / 2) else mid (n / 2) (round (n / 2)), rfl, ?_, ?_⟩
  · intro n
    rcases Nat.mod_two_eq_zero_or_one n with heven | hodd
    · have hodd' : ¬(n + 1) % 2 = 0 := by omega
      have hhalf : (n + 1) / 2 = n / 2 := by omega
      simp only [heven, hodd', hhalf, if_true, if_false]
      exact hfirst _ _ (hround _)
    · have heven' : (n + 1) % 2 = 0 := by omega
      have hhalf : (n + 1) / 2 = n / 2 + 1 := by omega
      have hodd' : ¬n % 2 = 0 := by omega
      simp only [heven', hodd', hhalf, if_true, if_false]
      exact hsecond _ _ (hround _)
  · intro n
    have hhalf : 2 * n / 2 = n := by omega
    simp only [Nat.mul_mod_right, hhalf, if_true]
    exact hround n

end Mpubsub.Lib.Cascade
