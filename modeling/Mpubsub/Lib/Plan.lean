import Mpubsub.Lib.EventLoop

/-!
# Planned changes

A value is set, and the timers of a loop are to change it later (`Plan`). As long as the loop runs
its due timers in the order of their times, the value follows the plan (`Follows`): nothing changes
it early (`Follows.eq_value`), and when no timer is overdue it is what the latest change that is due
has made of it (`Follows.gives`).
-/

namespace Mpubsub.Lib

/-- A value that has been set, and its changes, each with its time. -/
structure Plan (τ α : Type*) where
  value : α
  changes : List (τ × α) := []

namespace EventLoop

variable {τ κ : Type*} [LT τ]

/-- No timer is overdue. -/
def Settled (l : EventLoop τ κ) : Prop := ∀ t ∈ l.scheduled, l.time < t.when

end EventLoop

namespace Plan

variable {τ α κ : Type*} [LinearOrder τ]

/-- What a plan makes of the value by a time. -/
inductive Gives (p : Plan τ α) (now : τ) : α → Prop
  | unchanged (h : ∀ c ∈ p.changes, now < c.1) : p.Gives now p.value
  | changed (c : τ × α) (hc : c ∈ p.changes) (hdue : c.1 ≤ now)
      (hlatest : ∀ c' ∈ p.changes, c'.1 ≤ now → c'.1 ≤ c.1) : p.Gives now c.2

/-- Only changes for the same time can leave it open what a plan gives. -/
theorem Gives.unique {p : Plan τ α} {now : τ} {v v' : α}
    (htimes : ∀ c ∈ p.changes, ∀ c' ∈ p.changes, c.1 = c'.1 → c.2 = c'.2) (h : p.Gives now v)
    (h' : p.Gives now v') : v = v' := by
  cases h with
  | unchanged hnone =>
    cases h' with
    | unchanged => rfl
    | changed c hc hdue => exact absurd (hnone c hc) (not_lt.mpr hdue)
  | changed c hc hdue hlatest =>
    cases h' with
    | unchanged hnone => exact absurd (hnone c hc) (not_lt.mpr hdue)
    | changed c' hc' hdue' hlatest' =>
      exact htimes c hc c' hc' (le_antisymm (hlatest' c hc hdue) (hlatest c' hc' hdue'))

/-! ## On a loop -/

/-- A pending timer makes the change. -/
def Pending (effect : κ → α) (l : EventLoop τ κ) (c : τ × α) : Prop :=
  ∃ t ∈ l.scheduled, (t.when, effect t.callback) = c

/-- The pending timers are changes of the plan. Either all of its changes are pending, or the value
is that of the last change made, and those that are not pending were due by then. -/
structure Follows (p : Plan τ α) (effect : κ → α) (l : EventLoop τ κ) (v : α) : Prop where
  planned : ∀ t ∈ l.scheduled, (t.when, effect t.callback) ∈ p.changes
  shown : (v = p.value ∧ ∀ c ∈ p.changes, Pending effect l c) ∨
    ∃ c ∈ p.changes, v = c.2 ∧ c.1 ≤ l.time ∧ (∀ t ∈ l.scheduled, c.1 ≤ t.when) ∧
      ∀ c' ∈ p.changes, Pending effect l c' ∨ c'.1 ≤ c.1

namespace Follows

variable {p : Plan τ α} {effect : κ → α} {l : EventLoop τ κ} {v : α}

/-- The clock goes on. -/
theorem advance (h : Follows p effect l v) (time : τ) : Follows p effect (l.advance time) v where
  planned := h.planned
  shown := by
    rcases h.shown with hall | ⟨c, hc, hv, hdue, hlater, hrest⟩
    · exact .inl hall
    · exact .inr ⟨c, hc, hv, hdue.trans (le_max_left l.time time), hlater, hrest⟩

/-- The loop runs a timer. -/
theorem run (h : Follows p effect l v) {id : Nat} {t : TimerHandle τ κ}
    (hrun : l.runnable? id = some t) : Follows p effect (l.cancel id) (effect t.callback) := by
  obtain ⟨ht, rfl, hdue, hfirst⟩ := EventLoop.runnable?_eq_some_iff.mp hrun
  refine ⟨fun t' ht' => h.planned t' (EventLoop.mem_cancel.mp ht').1, .inr ?_⟩
  refine ⟨_, h.planned t ht, rfl, hdue, ?_, ?_⟩
  · exact fun t' ht' => hfirst t' (EventLoop.mem_cancel.mp ht').1
  · -- The change was pending, and is now made if it is this one; or an earlier one was later.
    have hpending {c : τ × α} (hc : Pending effect l c) :
        Pending effect (l.cancel t.id) c ∨ c.1 ≤ t.when := by
      obtain ⟨t', ht', rfl⟩ := hc
      by_cases hid : t'.id = t.id
      · exact .inr (le_of_eq (congrArg TimerHandle.when (EventLoop.eq_of_id_eq ht' ht hid)))
      · exact .inl ⟨t', EventLoop.mem_cancel.mpr ⟨ht', hid⟩, rfl⟩
    intro c hc
    rcases h.shown with ⟨-, hall⟩ | ⟨made, -, -, -, hlater, hrest⟩
    · exact hpending (hall c hc)
    · rcases hrest c hc with hc | hc
      · exact hpending hc
      · exact .inr (hc.trans (hlater t ht))

/-- Nothing changes the value early. -/
theorem eq_value (h : Follows p effect l v) (hearly : ∀ c ∈ p.changes, l.time < c.1) :
    v = p.value := by
  rcases h.shown with ⟨hv, -⟩ | ⟨c, hc, -, hdue, -⟩
  · exact hv
  · exact absurd (hearly c hc) (not_lt.mpr hdue)

/-- When no timer is overdue, the value is what the plan gives. -/
theorem gives (h : Follows p effect l v) (hsettled : l.Settled) : p.Gives l.time v := by
  have hpending {c : τ × α} (hc : Pending effect l c) : l.time < c.1 := by
    obtain ⟨t, ht, rfl⟩ := hc
    exact hsettled t ht
  rcases h.shown with ⟨rfl, hall⟩ | ⟨c, hc, rfl, hdue, -, hrest⟩
  · exact .unchanged fun c hc => hpending (hall c hc)
  · refine .changed c hc hdue ?_
    intro c' hc' hdue'
    rcases hrest c' hc' with hlate | hle
    · exact absurd (hpending hlate) (not_lt.mpr hdue')
    · exact hle

end Follows

end Plan

end Mpubsub.Lib
