import Mpubsub.Bridge.Resend

/-!
# Supersession of indefinite publishes (`bridge.go`)

`close` on a cancel channel does not wait for the goroutine that listens on it. A topic
never has two goroutines with an open channel, but one whose channel is closed can still
resend: when it took its tick before the newer publish was handed to `SendTo`, or when it
finds the tick and the closed channel ready together. As long as a run meets neither case
(`Punctual`), nothing superseded is sent; from a step that meets one of them on, the
scheduler needs one step more to send it (`superseded_never_sent`).
-/

namespace Mpubsub.Theorems

open Mpubsub.Lib Mpubsub.Wire Mpubsub.Bridge.Resend

variable {σ : Type}

/-! ## The property -/

/-- Once the handler has handed over a datagram, no resend goroutine hands over one of an
older publish on its topic. -/
def NeverSuperseded (handed : List Hand) : Prop :=
  handed.Pairwise fun first later => first.sender = .handler → later.sender = .resender →
    first.mpubsubTopic = later.mpubsubTopic → first.publish ≤ later.publish

/-- A topic has at most one resend goroutine whose cancel channel is open. -/
def OneOpen (s : State) : Prop :=
  ∀ (i j : Nat) (r r' : Resender), s.resenders[i]? = some r → s.resenders[j]? = some r' →
    r.closed = false → r'.closed = false → r.mpubsubTopic = r'.mpubsubTopic → i = j

/-- The goroutine's publish is the newest that the handler has handed over on its topic. -/
def Newest (handed : List Hand) (r : Resender) : Prop :=
  ∀ h ∈ handed, h.sender = .handler → h.mpubsubTopic = r.mpubsubTopic → h.publish ≤ r.publish

/-- When the handler calls `SendTo`, no goroutine of its topic is between its `select` and its
own `SendTo`; and no `select` takes a tick when its publish has been superseded. -/
def Punctual (s : State) : Event σ → Prop
  | .send => ∀ out, s.handler = .cancelled out →
      ∀ r ∈ s.resenders, r.mpubsubTopic = out.mpubsubTopic → r.pc ≠ .ticked
  | .select i .tick => ∀ r, s.resenders[i]? = some r → r.pc = .select → r.tick = true →
      r.closed = true → Newest s.handed r
  | _ => True

/-! ## Open channels -/

theorem oneOpen_of_inv {s : State} (h : Inv s) : OneOpen s := by
  intro i j r r' hi hj hopen hopen' htopic
  have hjob := (h.open_iff i r hi).mp hopen
  have hjob' := (h.open_iff j r' hj).mp hopen'
  rw [htopic, hjob'] at hjob
  cases hjob
  rfl

/-! ## Punctual runs -/

/-- What a goroutine is about to send is the newest of its topic, and nothing superseded has
been sent. -/
structure UpToDate (s : State) : Prop where
  ticked : ∀ r ∈ s.resenders, r.pc = .ticked → Newest s.handed r
  sent : NeverSuperseded s.handed

/-- A step that hands nothing over and brings no goroutine before its `SendTo`. -/
theorem UpToDate.quiet {s s' : State} (h : UpToDate s) (hhanded : s'.handed = s.handed)
    (hticked : ∀ r ∈ s'.resenders, r.pc = .ticked → ∃ r' ∈ s.resenders,
      r'.pc = .ticked ∧ r.mpubsubTopic = r'.mpubsubTopic ∧ r.publish = r'.publish) :
    UpToDate s' := by
  constructor
  · intro r hr hpc x hx hsender htopic
    obtain ⟨r', hr', hpc', htopic', hpublish⟩ := hticked r hr hpc
    rw [hpublish]
    rw [hhanded] at hx
    exact h.ticked r' hr' hpc' x hx hsender (htopic.trans htopic')
  · rw [hhanded]
    exact h.sent

/-- A step of one goroutine that does not bring it before its `SendTo`. -/
theorem UpToDate.modify {s : State} (h : UpToDate s) (i : Nat) {f : Resender → Resender}
    (hf : Local f) (hpc : ∀ r, (f r).pc = .ticked → r.pc = .ticked) : UpToDate (s.modify i f) := by
  refine h.quiet rfl ?_
  intro r hr hticked
  obtain ⟨r', hr', rfl | rfl⟩ := mem_modify hr
  · exact ⟨r, hr', hticked, rfl, rfl⟩
  · exact ⟨r', hr', hpc r' hticked, hf.mpubsubTopic r', hf.publish r'⟩

/-- Closing channels. -/
theorem UpToDate.closing {s : State} (h : UpToDate s) (closed : List Nat)
    (jobs : Dict Bytes Nat) :
    UpToDate { closed.foldl State.close s with indefiniteJobs := jobs } := by
  obtain ⟨rs, heq, hrs⟩ := foldl_close closed s
  rw [heq]
  refine h.quiet rfl ?_
  intro r hr hticked
  obtain ⟨j, hj⟩ := List.mem_iff_getElem?.mp hr
  rw [hrs] at hj
  obtain ⟨r', hr', rfl⟩ := Option.map_eq_some_iff.mp hj
  exact ⟨r', List.mem_of_getElem? hr', hticked, rfl, rfl⟩

/-- A datagram that supersedes nothing that is about to be sent is handed over. -/
theorem UpToDate.hand {s : State} (h : UpToDate s) {x : Hand}
    (hticked : x.sender = .handler → ∀ r ∈ s.resenders, r.mpubsubTopic = x.mpubsubTopic →
      r.pc ≠ .ticked)
    (hnewest : x.sender = .resender → ∀ y ∈ s.handed, y.sender = .handler →
      y.mpubsubTopic = x.mpubsubTopic → y.publish ≤ x.publish) :
    UpToDate { s with handed := s.handed ++ [x] } := by
  constructor
  · intro r hr hpc y hy hsender htopic
    rcases List.mem_append.mp hy with hy | hy
    · exact h.ticked r hr hpc y hy hsender htopic
    · rw [List.mem_singleton.mp hy] at hsender htopic
      exact absurd hpc (hticked hsender r hr htopic.symm)
  · refine List.pairwise_append.mpr ⟨h.sent, List.pairwise_singleton _ _, ?_⟩
    intro y hy y' hy' hsender hsender' htopic
    rw [List.mem_singleton.mp hy'] at hsender' htopic ⊢
    exact hnewest hsender' y hy hsender htopic

theorem UpToDate.select {s : State} (h : UpToDate s) (hinv : Inv s) (i : Nat)
    (hpunctual : Punctual s (.select i .tick : Event σ)) :
    UpToDate (s.modify i (·.select .tick)) := by
  constructor
  · intro r hr hpc
    obtain ⟨j, hj⟩ := List.mem_iff_getElem?.mp hr
    obtain ⟨r', hr', rfl⟩ := getElem?_modify_eq_some hj
    have hold : r'.pc = .ticked → Newest s.handed r' := h.ticked r' (List.mem_of_getElem? hr')
    split at hpc
    · rename_i hij
      subst hij
      simp only [if_true, Resender.select] at hpc ⊢
      split at hpc
      · rename_i hready
        rw [if_pos hready]
        cases hclosed : r'.closed with
        | false => exact hinv.newest r' (List.mem_of_getElem? hr') hclosed
        | true => exact hpunctual r' hr' hready.1 hready.2 hclosed
      · rename_i hready
        rw [if_neg hready]
        exact hold hpc
    · rename_i hij
      rw [if_neg hij]
      exact hold hpc
  · exact h.sent

/-- The goroutines are as they were. -/
theorem UpToDate.same {s s' : State} (h : UpToDate s) (hhanded : s'.handed = s.handed)
    (hresenders : s'.resenders = s.resenders) : UpToDate s' := by
  refine h.quiet hhanded fun r hr hpc => ⟨r, ?_, hpc, rfl, rfl⟩
  rw [← hresenders]
  exact hr

theorem UpToDate.cancelIndefinite {s : State} (h : UpToDate s) (topic : Bytes) :
    UpToDate (s.cancelIndefinite topic) := by
  unfold State.cancelIndefinite
  split
  · exact h
  · rename_i i hjob
    exact h.closing [i] (s.indefiniteJobs.erase topic)

theorem UpToDate.afterSend {s : State} (h : UpToDate s) (out : Outgoing) (ok : Bool) :
    UpToDate (s.afterSend out ok) := by
  unfold State.afterSend
  dsimp only
  split
  · exact h.same rfl rfl
  split
  · -- The new goroutine waits in its `select`.
    refine h.quiet rfl ?_
    intro r hr hpc
    rcases List.mem_append.mp hr with hr | hr
    · exact ⟨r, hr, hpc, rfl, rfl⟩
    · rw [List.mem_singleton.mp hr] at hpc
      cases hpc
  split
  · exact h.same rfl rfl
  · exact h.same rfl rfl

theorem UpToDate.select_cancel {s : State} (h : UpToDate s) (i : Nat) :
    UpToDate (s.modify i (·.select .cancel)) := by
  refine h.modify i (local_select .cancel) ?_
  intro r hpc
  simp only [Resender.select] at hpc
  split at hpc
  · cases hpc
  · exact hpc

theorem UpToDate.fire {s : State} (h : UpToDate s) (i : Nat) :
    UpToDate (s.modify i Resender.fire) := by
  refine h.modify i local_fire ?_
  intro r hpc
  unfold Resender.fire at hpc
  split at hpc <;> exact hpc

/-- A goroutine before its `SendTo` resends the newest publish of its topic. -/
theorem UpToDate.resend {s : State} (h : UpToDate s) (i : Nat) : UpToDate (s.resend i) := by
  unfold State.resend
  split
  · exact h
  · rename_i r hr
    split
    · rename_i hpc
      have hlocal : Local fun r => { r with pc := .sending } := by
        constructor <;> intro r <;> rfl
      have hnewest := h.ticked r (List.mem_of_getElem? hr) hpc
      exact (h.modify i hlocal fun _ hpc => by cases hpc).hand (x := r.hand)
        (fun h => by cases h) fun _ => hnewest
    · exact h

theorem UpToDate.resent {s : State} (h : UpToDate s) (i : Nat) :
    UpToDate (s.modify i Resender.resent) := by
  refine h.modify i local_resent ?_
  intro r hpc
  unfold Resender.resent at hpc
  split at hpc
  · cases hpc
  · exact hpc

theorem UpToDate.finiteResend {s : State} (h : UpToDate s) (i : Nat) (ok : Bool) :
    UpToDate (s.finiteResend i ok) := by
  unfold State.finiteResend
  split
  · exact h
  · rename_i r hr
    split
    · exact h
    · have hsent := h.hand (x := r.hand) (fun h => by cases h) fun h => by cases h
      exact hsent.same rfl rfl

section Step

variable (aeadSeal : Bridge.AeadSeal) (ops : SchemaOps σ) (cfg : Settings)

theorem step_upToDate {s : State} {e : Event σ} (h : UpToDate s) (hinv : Inv s)
    (hpunctual : Punctual s e) : UpToDate (step aeadSeal ops cfg s e) := by
  cases e with
  | deliver msg =>
    simp only [step]
    split
    · exact h.same rfl rfl
    · exact h
  | cancel =>
    simp only [step]
    split
    · exact (h.cancelIndefinite _).same rfl rfl
    · exact h
  | send =>
    simp only [step]
    split
    · rename_i out hout
      have hsent := h.hand (x := out.hand) (fun _ => hpunctual out hout) fun h => by cases h
      exact hsent.same rfl rfl
    · exact h
  | sent ok =>
    simp only [step]
    split
    · exact h.afterSend _ ok
    · exact h
  | tick i => exact h.fire i
  | select i case =>
    cases case with
    | tick => exact h.select hinv i hpunctual
    | cancel => exact h.select_cancel i
  | resend i => exact h.resend i
  | resent i => exact h.resent i
  | finiteResend i ok => exact h.finiteResend i ok
  | shutdown => exact h.closing _ _

/-! ## The condition is exact -/

/-- A goroutine that is before its `SendTo` with a superseded publish sends it when it is
scheduled. -/
theorem not_neverSuperseded_of_ticked {s : State} {i : Nat} {r : Resender}
    (hr : s.resenders[i]? = some r) (hpc : r.pc = .ticked) (hold : ¬Newest s.handed r) :
    ¬NeverSuperseded (step aeadSeal ops cfg s (.resend i)).handed := by
  simp only [step, State.resend, hr, if_pos hpc]
  intro hnever
  refine hold ?_
  intro x hx hsender htopic
  exact (List.pairwise_append.mp hnever).2.2 x hx r.hand (List.mem_singleton_self _) hsender rfl
    htopic

/-- After an unpunctual step such a goroutine exists. -/
theorem exists_ticked_of_not_punctual {s : State} (hinv : Inv s) {e : Event σ}
    (h : ¬Punctual s e) : ∃ (i : Nat) (r : Resender),
      (step aeadSeal ops cfg s e).resenders[i]? = some r ∧ r.pc = .ticked ∧
        ¬Newest (step aeadSeal ops cfg s e).handed r := by
  cases e with
  | send =>
    simp only [Punctual, not_forall] at h
    obtain ⟨out, hout, r, hr, htopic, hpc⟩ := h
    obtain ⟨i, hi⟩ := List.mem_iff_getElem?.mp hr
    simp only [step, hout]
    refine ⟨i, r, hi, not_not.mp hpc, ?_⟩
    intro hnewest
    -- The goroutine is of a message before the one at hand.
    have hle : out.publish ≤ r.publish :=
      hnewest out.hand (List.mem_append_right _ (List.mem_singleton_self _)) rfl htopic.symm
    have hlt := hinv.resenders_lt r hr
    simp only [State.handledBelow, hout, Handler.out?, Option.map_some, Option.getD_some] at hlt
    omega
  | select i case =>
    cases case with
    | cancel => exact absurd trivial h
    | tick =>
      simp only [Punctual, not_forall] at h
      obtain ⟨r, hr, hpc, htick, -, hold⟩ := h
      have hselect : r.select .tick = { r with pc := .ticked, tick := false } :=
        if_pos ⟨hpc, htick⟩
      refine ⟨i, r.select .tick, ?_, by rw [hselect], by rw [hselect]; exact hold⟩
      show (s.resenders.modify i _)[i]? = _
      rw [List.getElem?_modify_eq, hr]
      rfl
  | deliver msg => exact absurd trivial h
  | cancel => exact absurd trivial h
  | sent ok => exact absurd trivial h
  | tick i => exact absurd trivial h
  | resend i => exact absurd trivial h
  | resent i => exact absurd trivial h
  | finiteResend i ok => exact absurd trivial h
  | shutdown => exact absurd trivial h

/-- In every state a topic has at most one resend goroutine with an open channel. As long as
every step is punctual, nothing superseded is sent; and after an unpunctual step a goroutine
sends something superseded if it is scheduled next. -/
theorem superseded_never_sent (events : List (Event σ)) :
    OneOpen ((machine aeadSeal ops cfg).exec {} events) ∧
    ((machine aeadSeal ops cfg).Along Punctual {} events →
      NeverSuperseded ((machine aeadSeal ops cfg).exec {} events).handed) ∧
    (¬(machine aeadSeal ops cfg).Along Punctual {} events →
      ∃ before i, before <+: events ∧
        ¬NeverSuperseded ((machine aeadSeal ops cfg).exec {} (before ++ [.resend i])).handed) := by
  refine ⟨oneOpen_of_inv (exec_inv aeadSeal ops cfg events), ?_, ?_⟩
  · intro halong
    have hstart : UpToDate {} := ⟨fun r hr => (by cases hr), List.Pairwise.nil⟩
    have hboth := Machine.exec_invariant_along (machine aeadSeal ops cfg)
      (I := fun s => Inv s ∧ UpToDate s) (P := Punctual)
      (fun s e h hpunctual => ⟨step_inv aeadSeal ops cfg s e h.1,
        step_upToDate aeadSeal ops cfg h.2 h.1 hpunctual⟩)
      ⟨inv_init, hstart⟩ halong
    exact hboth.2.sent
  · intro halong
    obtain ⟨before, e, hleading, -, hlate⟩ := Machine.exists_of_not_along _ halong
    obtain ⟨i, r, hr, hpc, hold⟩ := exists_ticked_of_not_punctual aeadSeal ops cfg
      (exec_inv aeadSeal ops cfg before) hlate
    refine ⟨before ++ [e], i, hleading, ?_⟩
    rw [Machine.exec_append, Machine.exec_append]
    exact not_neverSuperseded_of_ticked aeadSeal ops cfg hr hpc hold

end Step

/-- Two QoS 0 messages on "t" under `retransmit_count: -1`; the goroutine of the first takes its
tick, the second is handed over, and then the goroutine runs on. -/
def overtaken : List (Event Unit) :=
  let msg (payload : Bytes) : Message Unit :=
    { mpubsubTopic := [116], group := topicToGroup [116] .LINK_LOCAL, payload := payload, qos := 0 }
  [.deliver (msg [1]), .cancel, .send, .sent true, .tick 0, .select 0 .tick,
    .deliver (msg [2]), .cancel, .send, .resend 0]

/-- The first message is sent after the second. -/
theorem superseded_sent : ¬NeverSuperseded ((machine (fun _ _ plaintext _ => plaintext)
    ⟨fun _ => 0, fun _ _ => none⟩ { retransmitCount := -1 }).exec {} overtaken).handed := by
  intro hnever
  have hlast := List.pairwise_iff_getElem.mp hnever 1 2 (by decide) (by decide) (by decide)
  revert hlast
  decide

end Mpubsub.Theorems
