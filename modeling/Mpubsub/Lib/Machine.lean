import Mathlib.Data.List.Basic

/-!
# Deterministic machines and their runs

A `Machine` consumes one input per step and answers with one output. Runs are
over arbitrary input lists; the rules below carry what one step preserves to
whole runs:

* **invariants** (`exec_invariant`) — a property kept by every step holds after
  every run;
* **exactness** (`forall_exec_iff_along`) — what breaks a property of the states is a step
  that misses a condition;
* **simulation** (`trace_eq_of_sim`) — two machines whose steps answer alike and
  stay related answer alike along every run; when only the steps that meet a side
  condition do, along the runs in which every step meets it (`Along`,
  `trace_eq_of_sim_along`).
-/

namespace Mpubsub.Lib

/-- A deterministic machine: a step maps a state and an input to the next state
and an output. -/
structure Machine (σ ι ο : Type*) where
  step : σ → ι → σ × ο

namespace Machine

variable {σ τ ι ο : Type*}

/-- The state after a run. -/
def exec (m : Machine σ ι ο) : σ → List ι → σ
  | s, [] => s
  | s, x :: xs => m.exec (m.step s x).1 xs

/-- The outputs of a run, one for each input. -/
def trace (m : Machine σ ι ο) : σ → List ι → List ο
  | _, [] => []
  | s, x :: xs => (m.step s x).2 :: m.trace (m.step s x).1 xs

/-- The inputs of a run that were answered `true`, in order. -/
def kept (m : Machine σ ι Bool) : σ → List ι → List ι
  | _, [] => []
  | s, x :: xs =>
    if (m.step s x).2 then x :: m.kept (m.step s x).1 xs else m.kept (m.step s x).1 xs

/-- What the steps of a run add up to. -/
def total (m : Machine σ ι ο) (f : σ → ι → Nat) : σ → List ι → Nat
  | _, [] => 0
  | s, x :: xs => f s x + m.total f (m.step s x).1 xs

/-- The machine behind a translation of its inputs. -/
def comap {ι' : Type*} (m : Machine σ ι ο) (f : ι' → ι) : Machine σ ι' ο :=
  ⟨fun s x => m.step s (f x)⟩

/-- Every step of the run meets `P`, a condition on the state before the step
and its input. -/
def Along (m : Machine σ ι ο) (P : σ → ι → Prop) : σ → List ι → Prop
  | _, [] => True
  | s, x :: xs => P s x ∧ m.Along P (m.step s x).1 xs

instance decidableAlong (m : Machine σ ι ο) (P : σ → ι → Prop) [∀ s x, Decidable (P s x)] :
    ∀ s xs, Decidable (m.Along P s xs)
  | _, [] => isTrue trivial
  | s, x :: xs =>
    have := decidableAlong m P (m.step s x).1 xs
    inferInstanceAs (Decidable (P s x ∧ m.Along P (m.step s x).1 xs))

@[simp] theorem exec_nil (m : Machine σ ι ο) (s : σ) : m.exec s [] = s := rfl

@[simp] theorem exec_cons (m : Machine σ ι ο) (s : σ) (x : ι) (xs : List ι) :
    m.exec s (x :: xs) = m.exec (m.step s x).1 xs := rfl

@[simp] theorem trace_cons (m : Machine σ ι ο) (s : σ) (x : ι) (xs : List ι) :
    m.trace s (x :: xs) = (m.step s x).2 :: m.trace (m.step s x).1 xs := rfl

theorem exec_comap {ι' : Type*} (m : Machine σ ι ο) (f : ι' → ι) (s : σ) (xs : List ι') :
    (m.comap f).exec s xs = m.exec s (xs.map f) := by
  induction xs generalizing s with
  | nil => rfl
  | cons x xs ih => exact ih _

theorem trace_comap {ι' : Type*} (m : Machine σ ι ο) (f : ι' → ι) (s : σ) (xs : List ι') :
    (m.comap f).trace s xs = m.trace s (xs.map f) := by
  induction xs generalizing s with
  | nil => rfl
  | cons x xs ih =>
    rw [trace_cons, ih, List.map_cons, trace_cons]
    rfl

theorem exec_append (m : Machine σ ι ο) (s : σ) (xs ys : List ι) :
    m.exec s (xs ++ ys) = m.exec (m.exec s xs) ys := by
  induction xs generalizing s with
  | nil => rfl
  | cons x xs ih => exact ih _

theorem kept_append (m : Machine σ ι Bool) (s : σ) (xs ys : List ι) :
    m.kept s (xs ++ ys) = m.kept s xs ++ m.kept (m.exec s xs) ys := by
  induction xs generalizing s with
  | nil => rfl
  | cons x xs ih =>
    simp only [List.cons_append, kept, exec_cons, ih]
    split <;> rfl

/-- One more input: it is kept exactly when it is answered `true`. -/
theorem kept_concat (m : Machine σ ι Bool) (s : σ) (xs : List ι) (x : ι) :
    m.kept s (xs ++ [x]) =
      m.kept s xs ++ if (m.step (m.exec s xs) x).2 then [x] else [] := by
  rw [kept_append]
  simp only [kept]

/-- A kept input was answered `true` where the earlier ones had been kept. -/
theorem exists_of_kept_eq {m : Machine σ ι Bool} {s : σ} {xs before after : List ι} {x : ι}
    (h : m.kept s xs = before ++ x :: after) :
    ∃ ys zs, xs = ys ++ x :: zs ∧ m.kept s ys = before ∧ (m.step (m.exec s ys) x).2 = true := by
  induction xs generalizing s before with
  | nil => simp [kept] at h
  | cons y xs ih =>
    by_cases hy : (m.step s y).2 = true
    · rw [kept, if_pos hy] at h
      cases before with
      | nil =>
        obtain ⟨rfl, -⟩ := List.cons.inj h
        exact ⟨[], xs, rfl, rfl, hy⟩
      | cons b before =>
        obtain ⟨rfl, hrest⟩ := List.cons.inj h
        obtain ⟨ys, zs, rfl, hkept, hx⟩ := ih hrest
        exact ⟨y :: ys, zs, rfl, by rw [kept, if_pos hy, hkept], hx⟩
    · rw [kept, if_neg hy] at h
      obtain ⟨ys, zs, rfl, hkept, hx⟩ := ih h
      exact ⟨y :: ys, zs, rfl, by rw [kept, if_neg hy, hkept], hx⟩

theorem along_append (m : Machine σ ι ο) (P : σ → ι → Prop) (s : σ) (xs ys : List ι) :
    m.Along P s (xs ++ ys) ↔ m.Along P s xs ∧ m.Along P (m.exec s xs) ys := by
  induction xs generalizing s with
  | nil => simp [Along]
  | cons x xs ih => simp [Along, ih, and_assoc]

/-- A condition on the input alone holds along a run as soon as it holds of
every input. -/
theorem along_of_forall (m : Machine σ ι ο) {P : ι → Prop} (s : σ) {xs : List ι}
    (h : ∀ x ∈ xs, P x) : m.Along (fun _ x => P x) s xs := by
  induction xs generalizing s with
  | nil => trivial
  | cons x xs ih =>
    exact ⟨h x List.mem_cons_self, ih _ fun y hy => h y (List.mem_cons_of_mem _ hy)⟩

theorem along_and (m : Machine σ ι ο) {P Q : σ → ι → Prop} {s : σ} {xs : List ι}
    (hP : m.Along P s xs) (hQ : m.Along Q s xs) : m.Along (fun s x => P s x ∧ Q s x) s xs := by
  induction xs generalizing s with
  | nil => trivial
  | cons x xs ih => exact ⟨⟨hP.1, hQ.1⟩, ih hP.2 hQ.2⟩

/-- **Invariant rule.** What every step keeps holds after every run. -/
theorem exec_invariant (m : Machine σ ι ο) {I : σ → Prop}
    (hstep : ∀ s x, I s → I (m.step s x).1) {s : σ} (hs : I s) (xs : List ι) :
    I (m.exec s xs) := by
  induction xs generalizing s with
  | nil => exact hs
  | cons x xs ih => exact ih (hstep s x hs)

/-- The invariant rule when only the steps that meet a side condition keep the invariant. -/
theorem exec_invariant_along (m : Machine σ ι ο) {I : σ → Prop} {P : σ → ι → Prop}
    (hstep : ∀ s x, I s → P s x → I (m.step s x).1) {s : σ} (hs : I s) {xs : List ι}
    (hxs : m.Along P s xs) : I (m.exec s xs) := by
  induction xs generalizing s with
  | nil => exact hs
  | cons x xs ih => exact ih (hstep s x hs hxs.1) hxs.2

/-- **Balance rule.** When what a step gives out and what is in stock after it is what was in stock
before and what comes in, the same holds of a run. -/
theorem total_balance (m : Machine σ ι ο) {I : σ → Prop} {out into : σ → ι → Nat} {stock : σ → Nat}
    (hkeeps : ∀ s x, I s → I (m.step s x).1)
    (hstep : ∀ s x, I s → out s x + stock (m.step s x).1 = stock s + into s x)
    {s : σ} (hs : I s) (xs : List ι) :
    m.total out s xs + stock (m.exec s xs) = stock s + m.total into s xs := by
  induction xs generalizing s with
  | nil => rw [total, total, exec_nil, Nat.zero_add, Nat.add_zero]
  | cons x xs ih =>
    have hfirst := hstep s x hs
    have hrest := ih (hkeeps s x hs)
    rw [total, total, exec_cons]
    omega

/-- A run with a step that misses a condition has a first one. -/
theorem exists_of_not_along (m : Machine σ ι ο) {P : σ → ι → Prop} {s : σ} {xs : List ι}
    (h : ¬m.Along P s xs) :
    ∃ before x, before ++ [x] <+: xs ∧ m.Along P s before ∧ ¬P (m.exec s before) x := by
  induction xs generalizing s with
  | nil => exact absurd trivial h
  | cons x xs ih =>
    by_cases hx : P s x
    · obtain ⟨before, y, hleading, hbefore, hy⟩ := ih fun hxs => h ⟨hx, hxs⟩
      exact ⟨x :: before, y, List.cons_prefix_cons.mpr ⟨rfl, hleading⟩, ⟨hx, hbefore⟩, hy⟩
    · exact ⟨[], x, List.prefix_append [x] xs, trivial, hx⟩

/-- **Exactness rule.** `G` follows from the invariant. When a step that meets the condition keeps
the invariant and one that misses it breaks `G`, then `G` holds in every state of a run if and
only if every step meets the condition. -/
theorem forall_exec_iff_along (m : Machine σ ι ο) {I G : σ → Prop} {P : σ → ι → Prop}
    (hgood : ∀ s, I s → G s) (hstep : ∀ s x, I s → P s x → I (m.step s x).1)
    (hbad : ∀ s x, I s → ¬P s x → ¬G (m.step s x).1) {s : σ} (hs : I s) (xs : List ι) :
    (∀ before, before <+: xs → G (m.exec s before)) ↔ m.Along P s xs := by
  induction xs generalizing s with
  | nil =>
    refine iff_of_true ?_ trivial
    intro before hbefore
    rw [List.prefix_nil.mp hbefore]
    exact hgood s hs
  | cons x xs ih =>
    constructor
    · intro hall
      have hx : P s x := by
        by_contra hx
        exact hbad s x hs hx (hall [x] (List.prefix_append [x] xs))
      refine ⟨hx, (ih (hstep s x hs hx)).mp ?_⟩
      intro before hbefore
      exact hall (x :: before) (List.cons_prefix_cons.mpr ⟨rfl, hbefore⟩)
    · rintro ⟨hx, hxs⟩ before hbefore
      cases before with
      | nil => exact hgood s hs
      | cons y before =>
        obtain ⟨rfl, hrest⟩ := List.cons_prefix_cons.mp hbefore
        exact (ih (hstep s y hs hx)).mpr hxs before hrest

/-- **Simulation rule.** Two machines whose admissible steps answer alike from
related states, and stay related, answer alike along every admissible run. -/
theorem trace_eq_of_sim_along {m : Machine σ ι ο} {n : Machine τ ι ο} {R : σ → τ → Prop}
    {P : σ → ι → Prop}
    (hstep : ∀ s t x, R s t → P s x →
      R (m.step s x).1 (n.step t x).1 ∧ (m.step s x).2 = (n.step t x).2)
    {s : σ} {t : τ} (hst : R s t) {xs : List ι} (hxs : m.Along P s xs) :
    m.trace s xs = n.trace t xs ∧ R (m.exec s xs) (n.exec t xs) := by
  induction xs generalizing s t with
  | nil => exact ⟨rfl, hst⟩
  | cons x xs ih =>
    obtain ⟨hnext, hout⟩ := hstep s t x hst hxs.1
    obtain ⟨htrace, hR⟩ := ih hnext hxs.2
    exact ⟨by rw [trace_cons, trace_cons, hout, htrace], hR⟩

/-- The simulation rule when every step is admissible. -/
theorem trace_eq_of_sim {m : Machine σ ι ο} {n : Machine τ ι ο} {R : σ → τ → Prop}
    (hstep : ∀ s t x, R s t →
      R (m.step s x).1 (n.step t x).1 ∧ (m.step s x).2 = (n.step t x).2)
    {s : σ} {t : τ} (hst : R s t) (xs : List ι) :
    m.trace s xs = n.trace t xs ∧ R (m.exec s xs) (n.exec t xs) :=
  trace_eq_of_sim_along (P := fun _ _ => True) (fun s t x hR _ => hstep s t x hR) hst
    (m.along_of_forall (P := fun _ => True) s fun _ _ => trivial)

/-- A side condition carried over to the simulating machine. -/
theorem along_of_sim {m : Machine σ ι ο} {n : Machine τ ι ο} {R : σ → τ → Prop}
    {P : σ → ι → Prop} {Q : τ → ι → Prop}
    (hstep : ∀ s t x, R s t →
      R (m.step s x).1 (n.step t x).1 ∧ (m.step s x).2 = (n.step t x).2)
    (hPQ : ∀ s t x, R s t → P s x → Q t x) {s : σ} {t : τ} (hst : R s t) {xs : List ι}
    (hxs : m.Along P s xs) : n.Along Q t xs := by
  induction xs generalizing s t with
  | nil => trivial
  | cons x xs ih => exact ⟨hPQ s t x hst hxs.1, ih (hstep s t x hst).1 hxs.2⟩

/-- Machines with equal traces keep the same inputs. -/
theorem kept_eq_of_trace_eq {m : Machine σ ι Bool} {n : Machine τ ι Bool} {s : σ} {t : τ}
    {xs : List ι} (h : m.trace s xs = n.trace t xs) : m.kept s xs = n.kept t xs := by
  induction xs generalizing s t with
  | nil => rfl
  | cons x xs ih =>
    simp only [trace_cons, List.cons.injEq] at h
    simp only [kept, h.1, ih h.2]

end Machine

end Mpubsub.Lib
