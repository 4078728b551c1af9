import Mpubsub.Lib.Machine

/-!
# Deferred reads

A producer owns a memory and makes references into it; a queue carries the
references to a consumer, which reads them when it gets to them. The producer
may meanwhile have changed the memory. `trace_eq_of_stable` gives the condition
under which nobody can tell: no iteration of the producer changes what a queued
reference reads. Then the consumer sees the values that an eager producer, one
that makes values in place of references, would have queued.

An iteration makes several references and hands them over one by one, and the
consumer may run in between: the events of a run interleave the two freely, up
to the producer starting an iteration after it has handed over everything.
-/

namespace Mpubsub.Lib

/-- An iteration maps a memory, the rest of the state and an input to the next
ones and the references it made. -/
structure Producer (μ σ ι ρ : Type*) where
  iterate : μ → σ → ι → μ × σ × List ρ

namespace Producer

variable {μ σ ι ρ β : Type*}

/-- A step of the producer or of the consumer. -/
inductive Event (ι : Type*) where
  | iterate (x : ι)
  | handOver
  | consume

/-- `made` is still with the producer, `queue` waits for the consumer. -/
structure State (μ σ ρ : Type*) where
  mem : μ
  state : σ
  made : List ρ := []
  queue : List ρ := []

/-- The two together, for a consumer that reads references with `read`. A consumer
that finds a reference answers with what it reads. -/
def machine (p : Producer μ σ ι ρ) (read : μ → ρ → β) :
    Machine (State μ σ ρ) (Event ι) (Option β) where
  step s event :=
    match event with
    | .iterate x =>
      match s.made with
      | [] =>
        let (mem, state, made) := p.iterate s.mem s.state x
        ({ s with mem := mem, state := state, made := made }, none)
      | _ :: _ => (s, none)
    | .handOver =>
      match s.made with
      | [] => (s, none)
      | r :: made => ({ s with made := made, queue := s.queue ++ [r] }, none)
    | .consume =>
      match s.queue with
      | [] => (s, none)
      | r :: queue => ({ s with queue := queue }, some (read s.mem r))

/-- A producer of values needs no memory, and its consumer reads nothing. -/
abbrev eager (p : Producer Unit σ ι β) :
    Machine (State Unit σ β) (Event ι) (Option β) :=
  p.machine fun _ value => value

/-- The references of an iteration read, when it has ended, the values that the other
producer makes. -/
structure Makes (p : Producer μ σ ι ρ) (read : μ → ρ → β) (q : Producer Unit σ ι β) :
    Prop where
  state_eq : ∀ mem s x, (p.iterate mem s x).2.1 = (q.iterate ⟨⟩ s x).2.1
  values_eq : ∀ mem s x,
    (p.iterate mem s x).2.2.map (read (p.iterate mem s x).1) = (q.iterate ⟨⟩ s x).2.2

/-- A step that changes what no queued reference reads. -/
def Stable (p : Producer μ σ ι ρ) (read : μ → ρ → β) (s : State μ σ ρ) : Event ι → Prop
  | .iterate x =>
    s.made = [] → ∀ r ∈ s.queue, read (p.iterate s.mem s.state x).1 r = read s.mem r
  | .handOver => True
  | .consume => True

/-- The relation between the two producers: the references read the values. -/
structure Reads (read : μ → ρ → β) (s : State μ σ ρ) (t : State Unit σ β) : Prop where
  state_eq : s.state = t.state
  made_eq : s.made.map (read s.mem) = t.made
  queue_eq : s.queue.map (read s.mem) = t.queue

/-- A stable step answers like the eager one. -/
theorem step_reads {p : Producer μ σ ι ρ} {read : μ → ρ → β} {q : Producer Unit σ ι β}
    (hmakes : p.Makes read q) {s : State μ σ ρ} {t : State Unit σ β} (h : Reads read s t)
    {event : Event ι} (hstable : p.Stable read s event) :
    Reads read ((p.machine read).step s event).1 (q.eager.step t event).1 ∧
      ((p.machine read).step s event).2 = (q.eager.step t event).2 := by
  obtain ⟨mem, state, made, queue⟩ := s
  obtain ⟨⟨⟩, state', made', queue'⟩ := t
  obtain ⟨rfl, rfl, rfl⟩ := h
  cases event with
  | iterate x =>
    cases made with
    | nil =>
      refine ⟨⟨hmakes.state_eq _ _ _, hmakes.values_eq _ _ _, ?_⟩, rfl⟩
      exact List.map_congr_left fun r hr => hstable rfl r hr
    | cons r made => exact ⟨⟨rfl, rfl, rfl⟩, rfl⟩
  | handOver =>
    cases made with
    | nil => exact ⟨⟨rfl, rfl, rfl⟩, rfl⟩
    | cons r made => exact ⟨⟨rfl, rfl, List.map_append⟩, rfl⟩
  | consume =>
    cases queue with
    | nil => exact ⟨⟨rfl, rfl, rfl⟩, rfl⟩
    | cons r queue => exact ⟨⟨rfl, rfl, rfl⟩, rfl⟩

/-- **Deferral rule.** Along stable steps the consumer sees what an eager producer would
have queued. -/
theorem trace_eq_of_stable {p : Producer μ σ ι ρ} {read : μ → ρ → β}
    {q : Producer Unit σ ι β} (hmakes : p.Makes read q) (mem : μ) (state : σ)
    {events : List (Event ι)}
    (hstable : (p.machine read).Along (p.Stable read) { mem := mem, state := state } events) :
    (p.machine read).trace { mem := mem, state := state } events =
      q.eager.trace { mem := ⟨⟩, state := state } events :=
  (Machine.trace_eq_of_sim_along (R := Reads read) (P := p.Stable read)
    (fun _ _ _ hR hP => step_reads hmakes hR hP) ⟨rfl, rfl, rfl⟩ hstable).1

/-- A value that a step of an eager producer and its consumer puts out, or leaves behind, was
there before, or was made by the step. -/
theorem step_origin {q : Producer Unit σ ι β} {t : State Unit σ β} {event : Event ι} {value : β}
    (h : (q.eager.step t event).2 = some value ∨ value ∈ (q.eager.step t event).1.made ∨
      value ∈ (q.eager.step t event).1.queue) :
    value ∈ t.made ∨ value ∈ t.queue ∨
      ∃ x, event = .iterate x ∧ value ∈ (q.iterate ⟨⟩ t.state x).2.2 := by
  obtain ⟨⟨⟩, state, made, queue⟩ := t
  cases event with
  | iterate x =>
    cases made with
    | nil =>
      rcases h with hout | hmade | hqueue
      · cases hout
      · exact .inr (.inr ⟨x, rfl, hmade⟩)
      · exact .inr (.inl hqueue)
    | cons r made =>
      rcases h with hout | hmade | hqueue
      · cases hout
      · exact .inl hmade
      · exact .inr (.inl hqueue)
  | handOver =>
    cases made with
    | nil =>
      rcases h with hout | hmade | hqueue
      · cases hout
      · exact .inl hmade
      · exact .inr (.inl hqueue)
    | cons r made =>
      rcases h with hout | hmade | hqueue
      · cases hout
      · exact .inl (List.mem_cons_of_mem _ hmade)
      · rcases List.mem_append.mp hqueue with hqueue | hr
        · exact .inr (.inl hqueue)
        · exact .inl (List.mem_singleton.mp hr ▸ List.mem_cons_self)
  | consume =>
    cases queue with
    | nil =>
      rcases h with hout | hmade | hqueue
      · cases hout
      · exact .inl hmade
      · exact .inr (.inl hqueue)
    | cons r queue =>
      rcases h with hout | hmade | hqueue
      · obtain rfl := Option.some.inj hout
        exact .inr (.inl List.mem_cons_self)
      · exact .inl hmade
      · exact .inr (.inl (List.mem_cons_of_mem _ hqueue))

/-- What the consumer of an eager producer sees was there at the start, or was made by an
iteration of the run. -/
theorem exists_of_consumed {q : Producer Unit σ ι β} {t : State Unit σ β}
    {events : List (Event ι)} {value : β} (h : some value ∈ q.eager.trace t events) :
    value ∈ t.made ∨ value ∈ t.queue ∨
      ∃ x s, Event.iterate x ∈ events ∧ value ∈ (q.iterate ⟨⟩ s x).2.2 := by
  induction events generalizing t with
  | nil => cases h
  | cons event events ih =>
    have hstep (h : (q.eager.step t event).2 = some value ∨
        value ∈ (q.eager.step t event).1.made ∨ value ∈ (q.eager.step t event).1.queue) :
        value ∈ t.made ∨ value ∈ t.queue ∨
          ∃ x s, Event.iterate x ∈ event :: events ∧ value ∈ (q.iterate ⟨⟩ s x).2.2 := by
      rcases step_origin h with hmade | hqueue | ⟨x, rfl, hx⟩
      · exact .inl hmade
      · exact .inr (.inl hqueue)
      · exact .inr (.inr ⟨x, t.state, List.mem_cons_self, hx⟩)
    rcases List.mem_cons.mp h with hout | hlater
    · exact hstep (.inl hout.symm)
    rcases ih hlater with hmade | hqueue | ⟨x, s, hin, hx⟩
    · exact hstep (.inr (.inl hmade))
    · exact hstep (.inr (.inr hqueue))
    · exact .inr (.inr ⟨x, s, List.mem_cons_of_mem _ hin, hx⟩)

end Producer

end Mpubsub.Lib
