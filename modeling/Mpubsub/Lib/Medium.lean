import Mathlib.Logic.Function.Basic
import Mpubsub.Lib.Machine

/-!
# Stations over an unreliable medium

Stations run the same machine, each from its own state. What a station emits is kept by
the medium for ever, and may reach any station at any later time, any number of times, in
any order, or never. So a run of the whole is a list of calls and arrivals, and says
everything about loss, duplication and delay.

* **locality** (`station_exec`) — a station's part in a run is a run of its own machine;
* **provenance** (`exec_provenance`) — what the stations keep and emit is emitted by a step
  of the run.
-/

namespace Mpubsub.Lib

/-- Stations that run `machine`. An output tells what it emits, and what was emitted makes
an input where it arrives, under the circumstances `τ` of the arrival. -/
structure Medium (σ ε ο δ τ : Type*) where
  machine : Machine σ ε ο
  emitted : ο → List δ
  arrival : δ → τ → ε

namespace Medium

variable {ι σ ε ο δ τ : Type*}

/-- The stations, and everything that they have emitted. -/
structure State (ι σ δ : Type*) where
  station : ι → σ
  sent : List δ := []

/-- A call of the station `i`, or the arrival there of what was emitted at place `n`. -/
inductive Event (ι ε τ : Type*) where
  | call (i : ι) (input : ε)
  | arrive (i : ι) (n : Nat) (circumstances : τ)

/-- The station that an event is for, and its input. -/
def input (m : Medium σ ε ο δ τ) (s : State ι σ δ) : Event ι ε τ → Option (ι × ε)
  | .call i input => some (i, input)
  | .arrive i n circumstances => s.sent[n]?.map fun d => (i, m.arrival d circumstances)

section Run

variable [DecidableEq ι] (m : Medium σ ε ο δ τ)

def step (s : State ι σ δ) (e : Event ι ε τ) : State ι σ δ × Option (ι × ο) :=
  match m.input s e with
  | none => (s, none)
  | some (i, input) =>
    let (station, output) := m.machine.step (s.station i) input
    ({ station := Function.update s.station i station, sent := s.sent ++ m.emitted output },
      some (i, output))

/-- The medium with its stations. -/
def whole : Machine (State ι σ δ) (Event ι ε τ) (Option (ι × ο)) := ⟨m.step⟩

/-- The inputs of the station `i` in a run. -/
def inputs (i : ι) : State ι σ δ → List (Event ι ε τ) → List ε
  | _, [] => []
  | s, e :: es =>
    match m.input s e with
    | none => inputs i s es
    | some (j, input) =>
      if j = i then input :: inputs i (m.step s e).1 es else inputs i (m.step s e).1 es

variable {m} {s : State ι σ δ}

theorem step_of_input {e : Event ι ε τ} {i : ι} {x : ε} (h : m.input s e = some (i, x)) :
    m.step s e =
      ({ station := Function.update s.station i (m.machine.step (s.station i) x).1
         sent := s.sent ++ m.emitted (m.machine.step (s.station i) x).2 },
        some (i, (m.machine.step (s.station i) x).2)) := by
  unfold step
  rw [h]

theorem step_of_input_none {e : Event ι ε τ} (h : m.input s e = none) : m.step s e = (s, none) := by
  unfold step
  rw [h]

theorem inputs_of_input {e : Event ι ε τ} {j : ι} {x : ε} (h : m.input s e = some (j, x)) (i : ι)
    (es : List (Event ι ε τ)) :
    m.inputs i s (e :: es) =
      if j = i then x :: m.inputs i (m.step s e).1 es else m.inputs i (m.step s e).1 es := by
  rw [inputs, h]

theorem inputs_of_input_none {e : Event ι ε τ} (h : m.input s e = none) (i : ι)
    (es : List (Event ι ε τ)) : m.inputs i s (e :: es) = m.inputs i s es := by
  rw [inputs, h]

/-- **Locality.** A station's part in a run is a run of its own. -/
theorem station_exec (i : ι) (s : State ι σ δ) (es : List (Event ι ε τ)) :
    (m.whole.exec s es).station i = m.machine.exec (s.station i) (m.inputs i s es) := by
  induction es generalizing s with
  | nil => rfl
  | cons e es ih =>
    show (m.whole.exec (m.step s e).1 es).station i = _
    rw [ih]
    cases h : m.input s e with
    | none => rw [inputs_of_input_none h, step_of_input_none h]
    | some p =>
      obtain ⟨j, x⟩ := p
      rw [inputs_of_input h, step_of_input h]
      by_cases hj : j = i
      · subst hj
        simp only [if_true, Function.update_self, Machine.exec_cons]
      · simp only [if_neg hj, Function.update_of_ne (Ne.symm hj)]

theorem inputs_append (i : ι) (s : State ι σ δ) (es fs : List (Event ι ε τ)) :
    m.inputs i s (es ++ fs) = m.inputs i s es ++ m.inputs i (m.whole.exec s es) fs := by
  induction es generalizing s with
  | nil => rfl
  | cons e es ih =>
    show m.inputs i s (e :: (es ++ fs)) =
      m.inputs i s (e :: es) ++ m.inputs i (m.whole.exec (m.step s e).1 es) fs
    cases h : m.input s e with
    | none =>
      rw [inputs_of_input_none h, inputs_of_input_none h, ih, step_of_input_none h]
    | some p =>
      rw [inputs_of_input h, inputs_of_input h, ih]
      split
      · rfl
      · rfl

/-- An event that is for `i` splits the inputs of `i`. -/
theorem inputs_at {i : ι} {es : List (Event ι ε τ)} {e : Event ι ε τ} {x : ε}
    (h : m.input (m.whole.exec s es) e = some (i, x)) (fs : List (Event ι ε τ)) :
    m.inputs i s (es ++ e :: fs) =
      m.inputs i s es ++ x :: m.inputs i (m.whole.exec s (es ++ [e])) fs := by
  rw [inputs_append, inputs_of_input h, if_pos rfl, Machine.exec_append]
  rfl

/-- Each input of `i` comes in with an event. -/
theorem exists_event_of_inputs {i : ι} {es : List (Event ι ε τ)} {ys zs : List ε} {x : ε}
    (h : m.inputs i s es = ys ++ x :: zs) :
    ∃ es₁ e es₂, es = es₁ ++ e :: es₂ ∧ m.inputs i s es₁ = ys ∧
      m.input (m.whole.exec s es₁) e = some (i, x) := by
  induction es generalizing s ys with
  | nil => cases ys <;> cases h
  | cons e es ih =>
    cases hin : m.input s e with
    | none =>
      rw [inputs_of_input_none hin] at h
      obtain ⟨es₁, e', es₂, rfl, hinputs, hx⟩ := ih h
      have hstay : m.whole.exec s (e :: es₁) = m.whole.exec s es₁ := by
        show m.whole.exec (m.step s e).1 es₁ = _
        rw [step_of_input_none hin]
      exact ⟨e :: es₁, e', es₂, rfl, by rw [inputs_of_input_none hin, hinputs], hstay ▸ hx⟩
    | some p =>
      obtain ⟨j, y⟩ := p
      rw [inputs_of_input hin] at h
      by_cases hj : j = i
      · rw [if_pos hj] at h
        cases ys with
        | nil =>
          obtain ⟨rfl, -⟩ := List.cons.inj h
          exact ⟨[], e, es, rfl, rfl, hj ▸ hin⟩
        | cons y' ys =>
          obtain ⟨rfl, hrest⟩ := List.cons.inj h
          obtain ⟨es₁, e', es₂, rfl, hinputs, hx⟩ := ih hrest
          exact ⟨e :: es₁, e', es₂, rfl, by rw [inputs_of_input hin, if_pos hj, hinputs], hx⟩
      · rw [if_neg hj] at h
        obtain ⟨es₁, e', es₂, rfl, hinputs, hx⟩ := ih h
        exact ⟨e :: es₁, e', es₂, rfl, by rw [inputs_of_input hin, if_neg hj, hinputs], hx⟩

/-- Two events of a run that are for `i` bring different inputs. -/
theorem length_inputs_ne {i : ι} {es es' fs fs' : List (Event ι ε τ)} {e e' : Event ι ε τ}
    {x x' : ε} (hsame : es ++ e :: fs = es' ++ e' :: fs')
    (h : m.input (m.whole.exec s es) e = some (i, x))
    (h' : m.input (m.whole.exec s es') e' = some (i, x')) (hne : es'.length ≠ es.length) :
    (m.inputs i s es').length ≠ (m.inputs i s es).length := by
  rcases List.append_eq_append_iff.mp hsame with ⟨mid, rfl, hrest⟩ | ⟨mid, rfl, hrest⟩
  · cases mid with
    | nil => exact absurd (by simp) hne
    | cons f mid =>
      obtain ⟨rfl, -⟩ := List.cons.inj hrest
      have hat := congrArg List.length (inputs_at h mid)
      simp only [List.length_append, List.length_cons] at hat
      omega
  · cases mid with
    | nil => exact absurd (by simp) hne
    | cons f mid =>
      obtain ⟨rfl, -⟩ := List.cons.inj hrest
      have hat := congrArg List.length (inputs_at h' mid)
      simp only [List.length_append, List.length_cons] at hat
      omega

/-- The stations keep `I` and have emitted `P` only. -/
structure Keeps (I : ι → σ → Prop) (P : δ → Prop) (s : State ι σ δ) : Prop where
  station : ∀ i, I i (s.station i)
  sent : ∀ d ∈ s.sent, P d

section Provenance

variable {I : ι → σ → Prop} {P : δ → Prop} {es : List (Event ι ε τ)}
  (hcall : ∀ i x, Event.call i x ∈ es → ∀ t, I i t →
    I i (m.machine.step t x).1 ∧ ∀ d ∈ m.emitted (m.machine.step t x).2, P d)
  (harrive : ∀ i t d circumstances, I i t → P d →
    I i (m.machine.step t (m.arrival d circumstances)).1 ∧
      ∀ d' ∈ m.emitted (m.machine.step t (m.arrival d circumstances)).2, P d')
include hcall harrive

theorem step_keeps {t : State ι σ δ} (ht : Keeps I P t) {e : Event ι ε τ} (he : e ∈ es) :
    Keeps I P (m.step t e).1 := by
  cases hin : m.input t e with
  | none => rwa [step_of_input_none hin]
  | some p =>
    obtain ⟨i, x⟩ := p
    have hlocal : I i (m.machine.step (t.station i) x).1 ∧
        ∀ d ∈ m.emitted (m.machine.step (t.station i) x).2, P d := by
      cases e with
      | call j y =>
        cases hin
        exact hcall i x he _ (ht.station i)
      | arrive j n circumstances =>
        obtain ⟨d, hd, heq⟩ := Option.map_eq_some_iff.mp hin
        cases heq
        exact harrive i _ d circumstances (ht.station i) (ht.sent d (List.mem_of_getElem? hd))
    rw [step_of_input hin]
    constructor
    · intro j
      show I j (Function.update t.station i _ j)
      by_cases hj : j = i
      · subst hj
        rw [Function.update_self]
        exact hlocal.1
      · rw [Function.update_of_ne hj]
        exact ht.station j
    · exact List.forall_mem_append.mpr ⟨ht.sent, hlocal.2⟩

/-- **Provenance.** Let a station that keeps `I` and takes a call of the run, or `P` from the
medium, go on keeping `I` and emit `P` only. Then this holds of the stations along the run. -/
theorem exec_provenance (hs : Keeps I P s) : Keeps I P (m.whole.exec s es) :=
  Machine.exec_invariant_along m.whole (I := Keeps I P) (P := fun _ e => e ∈ es)
    (fun _ _ ht he => step_keeps hcall harrive ht he) hs
    (m.whole.along_of_forall (P := fun e => e ∈ es) s fun _ he => he)

/-- What a station takes in is a call of the run, or has come from the medium. -/
theorem inputs_provenance (hs : Keeps I P s) {i : ι} {x : ε} (hx : x ∈ m.inputs i s es) :
    Event.call i x ∈ es ∨ ∃ d circumstances, P d ∧ x = m.arrival d circumstances := by
  have hall : ∀ fs, fs ⊆ es → ∀ t, Keeps I P t → x ∈ m.inputs i t fs →
      Event.call i x ∈ es ∨ ∃ d circumstances, P d ∧ x = m.arrival d circumstances := by
    intro fs
    induction fs with
    | nil => exact fun _ _ _ hx => by cases hx
    | cons f fs ih =>
      intro hsub t ht hx
      have hf : f ∈ es := hsub List.mem_cons_self
      have hrest := ih (fun g hg => hsub (List.mem_cons_of_mem _ hg)) (m.step t f).1
        (step_keeps hcall harrive ht hf)
      cases hin : m.input t f with
      | none =>
        rw [inputs_of_input_none hin] at hx
        rw [step_of_input_none hin] at hrest
        exact hrest hx
      | some p =>
        obtain ⟨j, y⟩ := p
        rw [inputs_of_input hin] at hx
        split at hx
        swap
        · exact hrest hx
        rename_i hj
        rcases List.mem_cons.mp hx with rfl | hx
        swap
        · exact hrest hx
        cases f with
        | call k z =>
          cases hin
          rw [hj] at hf
          exact .inl hf
        | arrive k n circumstances =>
          obtain ⟨d, hd, heq⟩ := Option.map_eq_some_iff.mp hin
          cases heq
          exact .inr ⟨d, circumstances, ht.sent d (List.mem_of_getElem? hd), rfl⟩
  exact hall es (List.Subset.refl es) s hs hx

end Provenance

end Run

end Medium

end Mpubsub.Lib
