import Mathlib.Data.List.Basic

/-!
# Loops that may raise

A `for` loop over a list that is fixed when the loop begins. Its body changes a state, and may
raise, which ends the loop.
-/

namespace Mpubsub.Lib

variable {α σ ε : Type*}

/-- `for x in xs: body(x)`. -/
def forEach (body : α → σ → σ × Except ε Unit) : List α → σ → σ × Except ε Unit
  | [], s => (s, .ok ())
  | x :: xs, s =>
    match body x s with
    | (s, .ok ()) => forEach body xs s
    | (s, .error e) => (s, .error e)

/-- How a statement ends: in a state with `Q`, or it raises, in a state with `E`. -/
def Ends (Q : σ → Prop) (E : ε → σ → Prop) : σ × Except ε Unit → Prop
  | (s, .ok ()) => Q s
  | (s, .error e) => E e s

theorem Ends.mono {Q Q' : σ → Prop} {E : ε → σ → Prop} {r : σ × Except ε Unit} (h : Ends Q E r)
    (hQ : ∀ s, Q s → Q' s) : Ends Q' E r := by
  obtain ⟨s, _ | _⟩ := r
  · exact h
  · exact hQ s h

variable {body : α → σ → σ × Except ε Unit}

/-- **Invariant rule.** The invariant knows the elements that the loop has gone through. -/
theorem forEach_ends {I : List α → σ → Prop} {E : ε → σ → Prop} {xs : List α}
    (hbody : ∀ done x rest s, done ++ x :: rest = xs → I done s → Ends (I (done ++ [x])) E (body x s))
    {s : σ} (hs : I [] s) : Ends (I xs) E (forEach body xs s) := by
  suffices hrest : ∀ rest done s, done ++ rest = xs → I done s →
      Ends (I xs) E (forEach body rest s) from hrest xs [] s rfl hs
  intro rest
  induction rest with
  | nil =>
    intro done s heq hI
    rw [List.append_nil] at heq
    exact heq ▸ hI
  | cons x rest ih =>
    intro done s heq hI
    have hstep := hbody done x rest s heq hI
    rw [forEach]
    generalize body x s = r at hstep ⊢
    obtain ⟨s', e | ⟨⟩⟩ := r
    · exact hstep
    · exact ih (done ++ [x]) s' ((List.append_assoc ..).trans heq) hstep

/-- **Simulation rule.** Two bodies that keep two states related, and raise alike. -/
theorem forEach_sim {τ : Type*} {body' : α → τ → τ × Except ε Unit} {R : σ → τ → Prop}
    (hbody : ∀ x s t, R s t → R (body x s).1 (body' x t).1 ∧ (body x s).2 = (body' x t).2)
    (xs : List α) {s : σ} {t : τ} (hst : R s t) :
    R (forEach body xs s).1 (forEach body' xs t).1 ∧
      (forEach body xs s).2 = (forEach body' xs t).2 := by
  induction xs generalizing s t with
  | nil => exact ⟨hst, rfl⟩
  | cons x xs ih =>
    obtain ⟨hnext, hsame⟩ := hbody x s t hst
    rw [forEach, forEach]
    generalize body x s = r at hnext hsame ⊢
    generalize body' x t = r' at hnext hsame ⊢
    obtain ⟨s', e | ⟨⟩⟩ := r
    · obtain ⟨t', result⟩ := r'
      cases hsame
      exact ⟨hnext, rfl⟩
    · obtain ⟨t', result⟩ := r'
      cases hsame
      exact ih hnext

/-- A loop over some of the elements is a loop over all that skips the others. -/
theorem forEach_filter (p : α → Bool) (xs : List α) (s : σ) :
    forEach body (xs.filter p) s =
      forEach (fun x s => if p x then body x s else (s, .ok ())) xs s := by
  induction xs generalizing s with
  | nil => rfl
  | cons x xs ih =>
    by_cases hx : p x = true
    · rw [List.filter_cons_of_pos hx, forEach, forEach, if_pos hx]
      rcases body x s with ⟨s', e | ⟨⟩⟩
      · rfl
      · exact ih s'
    · rw [List.filter_cons_of_neg hx, forEach, if_neg hx]
      exact ih s

end Mpubsub.Lib
