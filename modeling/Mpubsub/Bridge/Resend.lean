import Mpubsub.Lib.Dict
import Mpubsub.Lib.Lists
import Mpubsub.Lib.Machine
import Mpubsub.Bridge.Encode
import Mpubsub.Bridge.Receive

/-!
# From MQTT to multicast (`bridge.go`)

`handleMQTTMessage` and the goroutines it starts, as a machine whose events are the
steps that the Go scheduler can interleave. Paho delivers one message at a time, so
the handler is a single thread: it encodes the message, cancels the indefinite chain
of the topic, hands the datagram to `SendTo`, and starts a goroutine that resends it.
A resend goroutine waits in a `select` for its cancel channel and for its ticker, and
takes either when both are ready. `handed` is the history of the datagrams that were
handed to `SendTo`.

`Inv` holds of every reachable state: a topic's entry in `indefiniteJobs` is the one
goroutine of the topic whose channel is open.
-/

namespace Mpubsub.Bridge.Resend

open Mpubsub.Lib Mpubsub.Wire

variable {σ : Type}

/-! ## The handler's message -/

/-- What the handler reads of `Config`. -/
structure Settings where
  retransmitCount : Int := 1
  promoteQoS : Bool := false
  encryptionKey : Option Bytes := none

/-- What the handler calls on schemas: `SchemaID` and `JSONToProto`. -/
structure SchemaOps (σ : Type) where
  schemaID : σ → UInt16
  jsonToProto : σ → Bytes → Option Bytes

/-- `effectiveRetransmitCount`. -/
def effectiveRetransmitCount (cfg : Settings) (qos : UInt8) : Int :=
  let base := cfg.retransmitCount
  if !cfg.promoteQoS then base
  else if qos = 0 then base
  else if qos = 1 then
    if base = -1 then -1 else if base < 3 then 3 else base
  else -1

/-- A message of the MQTT client, with the route it came on, and the time and the random
bytes that the handler reads. -/
structure Message (σ : Type) where
  mpubsubTopic : Bytes
  group : GroupAddr
  payload : Bytes
  qos : UInt8
  schema : Option σ := none
  now : UInt32 := 0
  nonce : Bytes := []

/-- An encoded message: `publish` numbers the messages in the order of their delivery. -/
structure Outgoing where
  publish : Nat
  mpubsubTopic : Bytes
  group : GroupAddr
  pkt : Bytes
  count : Int
deriving DecidableEq

/-- `handleMQTTMessage` up to the call of `cancelIndefinite`. -/
def encode (aeadSeal : AeadSeal) (ops : SchemaOps σ) (cfg : Settings) (publish : Nat)
    (msg : Message σ) : Option Outgoing :=
  let body : Option (Bytes × Encoding) :=
    match msg.schema with
    | none => some (msg.payload, .RAW)
    | some schema =>
      (ops.jsonToProto schema msg.payload).map fun protoBody =>
        (storeU16le (ops.schemaID schema) ++ protoBody, .PROTOBUF)
  -- A stamp is made for encrypted packets only.
  let (ts, nonce) := if cfg.encryptionKey.isSome then (msg.now, msg.nonce) else (0, [])
  body.bind fun (body, encoding) =>
    (encodePacket aeadSeal msg.mpubsubTopic body encoding.toUInt8 cfg.encryptionKey ts
      nonce).toOption.map fun pkt =>
        ⟨publish, msg.mpubsubTopic, msg.group, pkt, effectiveRetransmitCount cfg msg.qos⟩

/-! ## The threads -/

/-- Where the handler is: waiting for a message, before `cancelIndefinite`, before `SendTo`,
or in `SendTo`. -/
inductive Handler where
  | idle
  | encoded (out : Outgoing)
  | cancelled (out : Outgoing)
  | sending (out : Outgoing)
deriving DecidableEq

/-- Where a resend goroutine is: in the `select`, between a `select` that took the tick and
`SendTo`, in `SendTo`, or gone. -/
inductive ResendPc where
  | select
  | ticked
  | sending
  | exited
deriving DecidableEq

/-- A goroutine of `startIndefinite`: its captured variables, whether its cancel channel is
closed, and whether a tick waits in its ticker's channel. -/
structure Resender where
  publish : Nat
  mpubsubTopic : Bytes
  group : GroupAddr
  pkt : Bytes
  closed : Bool := false
  tick : Bool := false
  pc : ResendPc := .select
deriving DecidableEq

/-- A goroutine of `scheduleFiniteRetransmits`, with the sends it has still to make. -/
structure FiniteResender where
  publish : Nat
  mpubsubTopic : Bytes
  group : GroupAddr
  pkt : Bytes
  remaining : Nat
deriving DecidableEq

inductive Sender where
  | handler
  | resender
  | finite
deriving DecidableEq

/-- A datagram was handed to `SendTo`. -/
structure Hand where
  sender : Sender
  publish : Nat
  mpubsubTopic : Bytes
  group : GroupAddr
  pkt : Bytes
deriving DecidableEq

/-- The bridge. A goroutine is known by its place in `resenders`, and so is its cancel
channel in `indefiniteJobs`. -/
structure State where
  delivered : Nat := 0
  handler : Handler := .idle
  indefiniteJobs : Dict Bytes Nat := .empty
  resenders : List Resender := []
  finite : List FiniteResender := []
  handed : List Hand := []
deriving DecidableEq

/-- The two cases of the `select`. -/
inductive Case where
  | cancel
  | tick
deriving DecidableEq

/-- A step of one thread, or of the outside. A step that its thread cannot take changes
nothing. -/
inductive Event (σ : Type) where
  | deliver (msg : Message σ)
  | cancel
  | send
  | sent (ok : Bool)
  | tick (i : Nat)
  | select (i : Nat) (case : Case)
  | resend (i : Nat)
  | resent (i : Nat)
  | finiteResend (i : Nat) (ok : Bool)
  | shutdown

/-- The `select` takes a case that is ready. -/
def Resender.select (r : Resender) : Case → Resender
  | .cancel => if r.pc = .select ∧ r.closed then { r with pc := .exited } else r
  | .tick => if r.pc = .select ∧ r.tick then { r with pc := .ticked, tick := false } else r

/-- The ticker fires; it drops the tick if one waits, and is stopped when the goroutine
returns. -/
def Resender.fire (r : Resender) : Resender :=
  if r.pc = .exited then r else { r with tick := true }

/-- `SendTo` has returned, with or without an error. -/
def Resender.resent (r : Resender) : Resender :=
  if r.pc = .sending then { r with pc := .select } else r

def Resender.hand (r : Resender) : Hand :=
  ⟨.resender, r.publish, r.mpubsubTopic, r.group, r.pkt⟩

def FiniteResender.hand (r : FiniteResender) : Hand :=
  ⟨.finite, r.publish, r.mpubsubTopic, r.group, r.pkt⟩

def Outgoing.hand (out : Outgoing) : Hand :=
  ⟨.handler, out.publish, out.mpubsubTopic, out.group, out.pkt⟩

namespace State

/-- A step of the goroutine at `i` that changes its own state only. -/
def modify (s : State) (i : Nat) (f : Resender → Resender) : State :=
  { s with resenders := s.resenders.modify i f }

/-- `close` on the cancel channel of the goroutine at `i`. -/
def close (s : State) (i : Nat) : State := s.modify i fun r => { r with closed := true }

/-- `cancelIndefinite`. -/
def cancelIndefinite (s : State) (mpubsubTopic : Bytes) : State :=
  match s.indefiniteJobs.get? mpubsubTopic with
  | none => s
  | some i => { s.close i with indefiniteJobs := s.indefiniteJobs.erase mpubsubTopic }

/-- `startIndefinite`. -/
def startIndefinite (s : State) (out : Outgoing) : State :=
  { s with
    indefiniteJobs := s.indefiniteJobs.set out.mpubsubTopic s.resenders.length
    resenders := s.resenders ++
      [{ publish := out.publish, mpubsubTopic := out.mpubsubTopic, group := out.group
         pkt := out.pkt }] }

/-- `scheduleFiniteRetransmits`. -/
def scheduleFiniteRetransmits (s : State) (out : Outgoing) : State :=
  { s with
    finite := s.finite ++
      [⟨out.publish, out.mpubsubTopic, out.group, out.pkt, (out.count - 1).toNat⟩] }

/-- The rest of `handleMQTTMessage` when `SendTo` has returned. -/
def afterSend (s : State) (out : Outgoing) (ok : Bool) : State :=
  let s := { s with handler := .idle }
  if !ok then s
  else if out.count = -1 then s.startIndefinite out
  else if out.count > 1 then s.scheduleFiniteRetransmits out
  else s

/-- The end of `Run`: it closes the channels of all jobs. -/
def shutdown (s : State) : State :=
  { s.indefiniteJobs.values.foldl State.close s with indefiniteJobs := .empty }

/-- The resend goroutine at `i` calls `SendTo`. -/
def resend (s : State) (i : Nat) : State :=
  match s.resenders[i]? with
  | none => s
  | some r =>
    if r.pc = .ticked then
      { s.modify i fun r => { r with pc := .sending } with handed := s.handed ++ [r.hand] }
    else s

/-- The finite goroutine at `i` makes its next send, and returns on an error. -/
def finiteResend (s : State) (i : Nat) (ok : Bool) : State :=
  match s.finite[i]? with
  | none => s
  | some r =>
    if r.remaining = 0 then s
    else
      { s with
        finite := s.finite.set i { r with remaining := if ok then r.remaining - 1 else 0 }
        handed := s.handed ++ [r.hand] }

end State

variable (aeadSeal : AeadSeal) (ops : SchemaOps σ) (cfg : Settings)

/-- One step. -/
def step (s : State) : Event σ → State
  | .deliver msg =>
    match s.handler with
    | .idle =>
      { s with
        delivered := s.delivered + 1
        handler := ((encode aeadSeal ops cfg s.delivered msg).map .encoded).getD .idle }
    | _ => s
  | .cancel =>
    match s.handler with
    | .encoded out => { s.cancelIndefinite out.mpubsubTopic with handler := .cancelled out }
    | _ => s
  | .send =>
    match s.handler with
    | .cancelled out => { s with handler := .sending out, handed := s.handed ++ [out.hand] }
    | _ => s
  | .sent ok =>
    match s.handler with
    | .sending out => s.afterSend out ok
    | _ => s
  | .tick i => s.modify i Resender.fire
  | .select i case => s.modify i (·.select case)
  | .resend i => s.resend i
  | .resent i => s.modify i Resender.resent
  | .finiteResend i ok => s.finiteResend i ok
  | .shutdown => s.shutdown

def machine : Machine State (Event σ) Unit := ⟨fun s e => (step aeadSeal ops cfg s e, ())⟩

/-! ## What holds in every state -/

/-- The message that the handler is at. -/
def Handler.out? : Handler → Option Outgoing
  | .idle => none
  | .encoded out => some out
  | .cancelled out => some out
  | .sending out => some out

/-- The messages before this one have been handled. -/
def State.handledBelow (s : State) : Nat := (s.handler.out?.map Outgoing.publish).getD s.delivered

/-- A topic's job is the one goroutine of the topic whose channel is open. Everything but the
message at hand comes from messages that have been handled, and an open channel from the
newest that was sent on its topic. -/
structure Inv (s : State) : Prop where
  open_iff : ∀ i r, s.resenders[i]? = some r →
    (r.closed = false ↔ s.indefiniteJobs.get? r.mpubsubTopic = some i)
  job : ∀ topic i, s.indefiniteJobs.get? topic = some i →
    ∃ r, s.resenders[i]? = some r ∧ r.mpubsubTopic = topic
  current : ∀ out, s.handler.out? = some out → out.publish + 1 = s.delivered
  resenders_lt : ∀ r ∈ s.resenders, r.publish < s.handledBelow
  finite_lt : ∀ r ∈ s.finite, r.publish < s.handledBelow
  handed_lt : ∀ h ∈ s.handed,
    h.publish < s.handledBelow ∨ ∃ out, s.handler = .sending out ∧ h = out.hand
  cancelled : ∀ out, s.handler = .cancelled out ∨ s.handler = .sending out →
    s.indefiniteJobs.get? out.mpubsubTopic = none
  newest : ∀ r ∈ s.resenders, r.closed = false → ∀ h ∈ s.handed, h.sender = .handler →
    h.mpubsubTopic = r.mpubsubTopic → h.publish ≤ r.publish

theorem inv_init : Inv {} := by
  constructor
  · exact fun i r h => by cases h
  · exact fun topic i h => by cases h
  · exact fun out h => by cases h
  · exact fun r h => by cases h
  · exact fun r h => by cases h
  · exact fun h hh => by cases hh
  · exact fun out h => by rcases h with h | h <;> cases h
  · exact fun r h => by cases h

/-- A step of a goroutine that keeps what the goroutine is. -/
structure Local (f : Resender → Resender) : Prop where
  publish : ∀ r, (f r).publish = r.publish
  mpubsubTopic : ∀ r, (f r).mpubsubTopic = r.mpubsubTopic
  closed : ∀ r, (f r).closed = r.closed

theorem local_fire : Local Resender.fire := by
  constructor <;> intro r <;> unfold Resender.fire <;> split <;> rfl

theorem local_resent : Local Resender.resent := by
  constructor <;> intro r <;> unfold Resender.resent <;> split <;> rfl

theorem local_select (case : Case) : Local (·.select case) := by
  cases case <;> constructor <;> intro r <;> unfold Resender.select <;> dsimp only <;> split <;> rfl

theorem Inv.modify {s : State} (h : Inv s) (i : Nat) {f : Resender → Resender} (hf : Local f) :
    Inv (s.modify i f) := by
  have hmem : ∀ r ∈ (s.modify i f).resenders, ∃ r' ∈ s.resenders, r.publish = r'.publish ∧
      r.mpubsubTopic = r'.mpubsubTopic ∧ r.closed = r'.closed := by
    intro r hr
    obtain ⟨r', hr', rfl | rfl⟩ := mem_modify hr
    · exact ⟨r, hr', rfl, rfl, rfl⟩
    · exact ⟨r', hr', hf.publish r', hf.mpubsubTopic r', hf.closed r'⟩
  constructor
  · intro j r hr
    obtain ⟨r', hr', rfl⟩ := getElem?_modify_eq_some hr
    have hiff := h.open_iff j r' hr'
    split
    · rw [hf.closed, hf.mpubsubTopic]
      exact hiff
    · exact hiff
  · intro topic j hj
    obtain ⟨r, hr, htopic⟩ := h.job topic j hj
    refine ⟨if i = j then f r else r, ?_, ?_⟩
    · show (s.resenders.modify i f)[j]? = _
      rw [List.getElem?_modify, hr]
      rfl
    · split
      · rw [hf.mpubsubTopic, htopic]
      · exact htopic
  · exact h.current
  · intro r hr
    obtain ⟨r', hr', hpublish, -, -⟩ := hmem r hr
    rw [hpublish]
    exact h.resenders_lt r' hr'
  · exact h.finite_lt
  · exact h.handed_lt
  · exact h.cancelled
  · intro r hr hopen
    obtain ⟨r', hr', hpublish, htopic, hclosed⟩ := hmem r hr
    rw [hpublish, htopic]
    exact h.newest r' hr' (hclosed ▸ hopen)

/-- Closing channels changes the goroutines that they belong to. -/
theorem foldl_close (is : List Nat) (s : State) :
    ∃ rs : List Resender, is.foldl State.close s = { s with resenders := rs } ∧
      ∀ j : Nat, rs[j]? = (s.resenders[j]?).map fun r =>
        { r with closed := r.closed || is.contains j } := by
  induction is generalizing s with
  | nil => exact ⟨s.resenders, rfl, fun j => by simp⟩
  | cons i is ih =>
    obtain ⟨rs, heq, hrs⟩ := ih (s.close i)
    refine ⟨rs, heq, ?_⟩
    intro j
    rw [hrs]
    show ((s.resenders.modify i _)[j]?).map _ = _
    rw [List.getElem?_modify]
    cases s.resenders[j]? with
    | none => rfl
    | some r =>
      by_cases hij : i = j
      · simp [hij]
      · simp [hij, Ne.symm hij]

/-- Jobs go when their channels are closed. -/
theorem Inv.closing {s : State} (h : Inv s) {is : List Nat} {jobs : Dict Bytes Nat}
    (hjobs : ∀ topic j, jobs.get? topic = some j ↔
      s.indefiniteJobs.get? topic = some j ∧ j ∉ is) :
    Inv { is.foldl State.close s with indefiniteJobs := jobs } := by
  obtain ⟨rs, heq, hrs⟩ := foldl_close is s
  rw [heq]
  have hmem : ∀ r ∈ rs, ∃ r' ∈ s.resenders, r.publish = r'.publish ∧
      r.mpubsubTopic = r'.mpubsubTopic ∧ (r.closed = false → r'.closed = false) := by
    intro r hr
    obtain ⟨j, hj⟩ := List.mem_iff_getElem?.mp hr
    rw [hrs] at hj
    obtain ⟨r', hr', rfl⟩ := Option.map_eq_some_iff.mp hj
    exact ⟨r', List.mem_of_getElem? hr', rfl, rfl, fun hopen => (Bool.or_eq_false_iff.mp hopen).1⟩
  constructor
  · intro j r hj
    rw [hrs] at hj
    obtain ⟨r', hr', rfl⟩ := Option.map_eq_some_iff.mp hj
    show (r'.closed || is.contains j) = false ↔ jobs.get? r'.mpubsubTopic = some j
    rw [hjobs, Bool.or_eq_false_iff, h.open_iff j r' hr']
    simp
  · intro topic j hj
    obtain ⟨r, hr, htopic⟩ := h.job topic j ((hjobs topic j).mp hj).1
    refine ⟨{ r with closed := r.closed || is.contains j }, ?_, htopic⟩
    rw [hrs, hr]
    rfl
  · exact h.current
  · intro r hr
    obtain ⟨r', hr', hpublish, -, -⟩ := hmem r hr
    rw [hpublish]
    exact h.resenders_lt r' hr'
  · exact h.finite_lt
  · exact h.handed_lt
  · intro out hout
    cases hget : jobs.get? out.mpubsubTopic with
    | none => rfl
    | some j =>
      have hold := ((hjobs _ j).mp hget).1
      rw [h.cancelled out hout] at hold
      cases hold
  · intro r hr hopen
    obtain ⟨r', hr', hpublish, htopic, hclosed⟩ := hmem r hr
    rw [hpublish, htopic]
    exact h.newest r' hr' (hclosed hopen)

theorem Inv.cancelIndefinite {s : State} (h : Inv s) (topic : Bytes) :
    Inv (s.cancelIndefinite topic) ∧ (s.cancelIndefinite topic).indefiniteJobs.get? topic = none ∧
      (s.cancelIndefinite topic).handler = s.handler ∧
      (s.cancelIndefinite topic).delivered = s.delivered := by
  unfold State.cancelIndefinite
  cases hget : s.indefiniteJobs.get? topic with
  | none => exact ⟨h, hget, rfl, rfl⟩
  | some i =>
    refine ⟨?_, ?_, rfl, rfl⟩
    · refine @Inv.closing s h [i] _ ?_
      intro topic' j
      rw [Dict.get?_erase, List.mem_singleton]
      by_cases htopic : topic' = topic
      · rw [if_pos htopic, htopic, hget]
        simp [eq_comm]
      · rw [if_neg htopic]
        refine ⟨fun hj => ⟨hj, ?_⟩, And.left⟩
        -- The goroutine of another topic is another one.
        rintro rfl
        obtain ⟨r, hr, heq⟩ := h.job _ _ hget
        obtain ⟨r', hr', heq'⟩ := h.job _ _ hj
        rw [hr] at hr'
        cases hr'
        exact htopic (heq'.symm.trans heq)
    · rw [Dict.get?_erase, if_pos rfl]

/-- The handler is done with its message. -/
theorem Inv.finished {s : State} (h : Inv s) {out : Outgoing} (hout : s.handler = .sending out) :
    Inv { s with handler := .idle } := by
  have hbelow : s.handledBelow = out.publish := by simp [State.handledBelow, hout, Handler.out?]
  have hcurrent := h.current out (by rw [hout]; rfl)
  constructor
  · exact h.open_iff
  · exact h.job
  · exact fun _ h => by cases h
  · intro r hr
    show r.publish < s.delivered
    have := h.resenders_lt r hr
    omega
  · intro r hr
    show r.publish < s.delivered
    have := h.finite_lt r hr
    omega
  · intro x hx
    refine .inl (?_ : x.publish < s.delivered)
    rcases h.handed_lt x hx with hlt | ⟨out', hout', rfl⟩
    · omega
    · rw [hout] at hout'
      cases hout'
      show out.publish < s.delivered
      omega
  · exact fun _ h => by rcases h with h | h <;> cases h
  · exact h.newest

theorem Inv.startIndefinite {s : State} (h : Inv s) {out : Outgoing}
    (hout : s.handler = .sending out) :
    Inv ({ s with handler := .idle }.startIndefinite out) := by
  have hbelow : s.handledBelow = out.publish := by simp [State.handledBelow, hout, Handler.out?]
  have hcurrent := h.current out (by rw [hout]; rfl)
  have hfree := h.cancelled out (.inr hout)
  have hdone := h.finished hout
  have hhanded : ∀ x ∈ s.handed, x.publish ≤ out.publish := by
    intro x hx
    rcases h.handed_lt x hx with hlt | ⟨out', hout', rfl⟩
    · omega
    · rw [hout] at hout'
      cases hout'
      exact Nat.le_refl _
  -- The new goroutine comes last, with the number of the message.
  have hmem : ∀ r, r ∈ ({ s with handler := .idle }.startIndefinite out).resenders →
      r ∈ s.resenders ∨ (r.publish = out.publish ∧ r.mpubsubTopic = out.mpubsubTopic) := by
    intro r hr
    rcases List.mem_append.mp hr with hr | hr
    · exact .inl hr
    · rw [List.mem_singleton.mp hr]
      exact .inr ⟨rfl, rfl⟩
  constructor
  · intro j r hj
    have hj : (s.resenders ++ [_])[j]? = some r := hj
    show r.closed = false ↔ (s.indefiniteJobs.set out.mpubsubTopic s.resenders.length).get?
      r.mpubsubTopic = some j
    rw [Dict.get?_set]
    rcases getElem?_concat_eq_some_iff.mp hj with hj | ⟨rfl, rfl⟩
    · obtain ⟨hlt, -⟩ := List.getElem?_eq_some_iff.mp hj
      have hiff := h.open_iff j r hj
      by_cases htopic : r.mpubsubTopic = out.mpubsubTopic
      · rw [htopic, hfree] at hiff
        rw [if_pos htopic, hiff]
        simp
        omega
      · rw [if_neg htopic]
        exact hiff
    · simp
  · intro topic j hj
    have hj : (s.indefiniteJobs.set out.mpubsubTopic s.resenders.length).get? topic = some j := hj
    rw [Dict.get?_set] at hj
    show ∃ r, (s.resenders ++ [_])[j]? = some r ∧ _
    split at hj
    · rename_i htopic
      cases hj
      rw [List.getElem?_concat_length]
      exact ⟨_, rfl, htopic.symm⟩
    · obtain ⟨r, hr, htopic⟩ := h.job topic j hj
      exact ⟨r, getElem?_concat_eq_some_iff.mpr (.inl hr), htopic⟩
  · exact fun _ h => by cases h
  · intro r hr
    show r.publish < s.delivered
    rcases hmem r hr with hr | ⟨heq, -⟩
    · exact hdone.resenders_lt r hr
    · rw [heq]
      exact Nat.lt_of_lt_of_eq (Nat.lt_succ_self _) hcurrent
  · exact hdone.finite_lt
  · exact hdone.handed_lt
  · exact fun _ h => by rcases h with h | h <;> cases h
  · intro r hr hopen x hx hsender htopic
    rcases hmem r hr with hr | ⟨heq, -⟩
    · exact h.newest r hr hopen x hx hsender htopic
    · rw [heq]
      exact hhanded x hx

theorem Inv.afterSend {s : State} (h : Inv s) {out : Outgoing} (hout : s.handler = .sending out)
    (ok : Bool) : Inv (s.afterSend out ok) := by
  have hdone := h.finished hout
  unfold State.afterSend
  simp only
  split
  · exact hdone
  split
  · exact h.startIndefinite hout
  split
  · refine { hdone with finite_lt := ?_ }
    refine forall_mem_concat.mpr ⟨hdone.finite_lt, ?_⟩
    show out.publish < s.delivered
    have := h.current out (by rw [hout]; rfl)
    omega
  · exact hdone

/-- A datagram of a message that has been handled is handed over. -/
theorem Inv.hand {s : State} (h : Inv s) {x : Hand} (hx : x.publish < s.handledBelow)
    (hsender : x.sender ≠ .handler) : Inv { s with handed := s.handed ++ [x] } := by
  refine { h with handed_lt := ?_, newest := ?_ }
  · exact forall_mem_concat.mpr ⟨h.handed_lt, .inl hx⟩
  · intro r hr hopen
    exact forall_mem_concat.mpr ⟨h.newest r hr hopen, fun hhandler => absurd hhandler hsender⟩

theorem Inv.resend {s : State} (h : Inv s) (i : Nat) : Inv (s.resend i) := by
  unfold State.resend
  cases hr : s.resenders[i]? with
  | none => exact h
  | some r =>
    simp only
    split
    · have hlocal : Local fun r => { r with pc := .sending } := by
        constructor <;> intro r <;> rfl
      have hlt := h.resenders_lt r (List.mem_of_getElem? hr)
      exact (h.modify i hlocal).hand (x := r.hand) hlt (by simp [Resender.hand])
    · exact h

theorem Inv.finiteResend {s : State} (h : Inv s) (i : Nat) (ok : Bool) :
    Inv (s.finiteResend i ok) := by
  unfold State.finiteResend
  cases hr : s.finite[i]? with
  | none => exact h
  | some r =>
    simp only
    split
    · exact h
    · have hlt := h.finite_lt r (List.mem_of_getElem? hr)
      refine { h.hand (x := r.hand) hlt (by simp [FiniteResender.hand]) with finite_lt := ?_ }
      intro r' hr'
      rcases List.mem_or_eq_of_mem_set hr' with hr' | rfl
      · exact h.finite_lt r' hr'
      · exact hlt

theorem Inv.deliver {s : State} (h : Inv s) (hidle : s.handler = .idle) (out : Option Outgoing)
    (hout : ∀ o, out = some o → o.publish = s.delivered) :
    Inv { s with delivered := s.delivered + 1, handler := (out.map .encoded).getD .idle } := by
  have hbelow : s.handledBelow = s.delivered := by simp [State.handledBelow, hidle, Handler.out?]
  have hnext : s.handledBelow ≤
      { s with delivered := s.delivered + 1
               handler := (out.map Handler.encoded).getD .idle }.handledBelow := by
    rw [hbelow]
    cases out with
    | none => exact Nat.le_succ _
    | some o => exact (hout o rfl).ge
  constructor
  · exact h.open_iff
  · exact h.job
  · intro o ho
    cases out with
    | none => cases ho
    | some o' =>
      cases ho
      exact congrArg (· + 1) (hout _ rfl)
  · exact fun r hr => Nat.lt_of_lt_of_le (h.resenders_lt r hr) hnext
  · exact fun r hr => Nat.lt_of_lt_of_le (h.finite_lt r hr) hnext
  · intro x hx
    rcases h.handed_lt x hx with hlt | ⟨o, ho, -⟩
    · exact .inl (Nat.lt_of_lt_of_le hlt hnext)
    · rw [hidle] at ho
      cases ho
  · intro o ho
    cases out with
    | none => rcases ho with ho | ho <;> cases ho
    | some o' => rcases ho with ho | ho <;> cases ho
  · exact h.newest

/-- The handler has cancelled the chain of its topic. -/
theorem Inv.cancel {s : State} (h : Inv s) {out : Outgoing} (hout : s.handler = .encoded out) :
    Inv { s.cancelIndefinite out.mpubsubTopic with handler := .cancelled out } := by
  obtain ⟨hinv, hfree, hhandler, hdelivered⟩ := h.cancelIndefinite out.mpubsubTopic
  rw [hout] at hhandler
  have hbelow : (s.cancelIndefinite out.mpubsubTopic).handledBelow = out.publish := by
    simp [State.handledBelow, hhandler, Handler.out?]
  constructor
  · exact hinv.open_iff
  · exact hinv.job
  · intro o ho
    cases ho
    exact hinv.current out (by rw [hhandler]; rfl)
  · exact fun r hr => Nat.lt_of_lt_of_eq (hinv.resenders_lt r hr) hbelow
  · exact fun r hr => Nat.lt_of_lt_of_eq (hinv.finite_lt r hr) hbelow
  · intro x hx
    rcases hinv.handed_lt x hx with hlt | ⟨o, ho, -⟩
    · exact .inl (Nat.lt_of_lt_of_eq hlt hbelow)
    · rw [hhandler] at ho
      cases ho
  · intro o ho
    rcases ho with ho | ho <;> cases ho
    exact hfree
  · exact hinv.newest

/-- The handler hands its datagram over. -/
theorem Inv.send {s : State} (h : Inv s) {out : Outgoing} (hout : s.handler = .cancelled out) :
    Inv { s with handler := .sending out, handed := s.handed ++ [out.hand] } := by
  have hbelow : s.handledBelow = out.publish := by
    simp [State.handledBelow, hout, Handler.out?]
  constructor
  · exact h.open_iff
  · exact h.job
  · intro o ho
    cases ho
    exact h.current out (by rw [hout]; rfl)
  · exact fun r hr => Nat.lt_of_lt_of_eq (h.resenders_lt r hr) hbelow
  · exact fun r hr => Nat.lt_of_lt_of_eq (h.finite_lt r hr) hbelow
  · intro x hx
    rcases List.mem_append.mp hx with hx | hx
    · rcases h.handed_lt x hx with hlt | ⟨o, ho, -⟩
      · exact .inl (Nat.lt_of_lt_of_eq hlt hbelow)
      · rw [hout] at ho
        cases ho
    · exact .inr ⟨out, rfl, List.mem_singleton.mp hx⟩
  · intro o ho
    rcases ho with ho | ho <;> cases ho
    exact h.cancelled out (.inl hout)
  · intro r hr hopen x hx hsender htopic
    rcases List.mem_append.mp hx with hx | hx
    · exact h.newest r hr hopen x hx hsender htopic
    · -- The topic has no job any more, hence no open channel.
      obtain ⟨j, hj⟩ := List.mem_iff_getElem?.mp hr
      have hjob := (h.open_iff j r hj).mp hopen
      rw [List.mem_singleton.mp hx] at htopic
      rw [← htopic] at hjob
      rw [show s.indefiniteJobs.get? out.hand.mpubsubTopic = none from
        h.cancelled out (.inl hout)] at hjob
      cases hjob

theorem publish_of_encode {aeadSeal : AeadSeal} {ops : SchemaOps σ} {cfg : Settings}
    {publish : Nat} {msg : Message σ} {out : Outgoing}
    (h : encode aeadSeal ops cfg publish msg = some out) : out.publish = publish := by
  simp only [encode] at h
  obtain ⟨body, -, hbody⟩ := Option.bind_eq_some_iff.mp h
  obtain ⟨pkt, -, hpkt⟩ := Option.map_eq_some_iff.mp hbody
  exact congrArg Outgoing.publish hpkt.symm

theorem step_inv (s : State) (e : Event σ) (h : Inv s) : Inv (step aeadSeal ops cfg s e) := by
  cases e with
  | deliver msg =>
    simp only [step]
    cases hidle : s.handler with
    | idle => exact h.deliver hidle _ fun o ho => publish_of_encode ho
    | encoded out => exact h
    | cancelled out => exact h
    | sending out => exact h
  | cancel =>
    simp only [step]
    cases hout : s.handler with
    | idle => exact h
    | cancelled out => exact h
    | sending out => exact h
    | encoded out => exact h.cancel hout
  | send =>
    simp only [step]
    cases hout : s.handler with
    | idle => exact h
    | encoded out => exact h
    | sending out => exact h
    | cancelled out => exact h.send hout
  | sent ok =>
    simp only [step]
    cases hout : s.handler with
    | idle => exact h
    | encoded out => exact h
    | cancelled out => exact h
    | sending out => exact h.afterSend hout ok
  | tick i => exact h.modify i local_fire
  | select i case => exact h.modify i (local_select case)
  | resend i => exact h.resend i
  | resent i => exact h.modify i local_resent
  | finiteResend i ok => exact h.finiteResend i ok
  | shutdown =>
    refine h.closing ?_
    intro topic j
    rw [Dict.get?_empty]
    constructor
    · exact fun hj => by cases hj
    · rintro ⟨hj, hnot⟩
      exact absurd (Dict.mem_values_iff.mpr ⟨topic, hj⟩) hnot

/-- The invariant holds in every reachable state. -/
theorem exec_inv (events : List (Event σ)) :
    Inv ((machine aeadSeal ops cfg).exec {} events) :=
  Machine.exec_invariant (machine aeadSeal ops cfg) (step_inv aeadSeal ops cfg) inv_init events

end Mpubsub.Bridge.Resend
