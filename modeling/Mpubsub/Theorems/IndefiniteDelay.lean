import Mpubsub.Bridge.Config
import Mpubsub.Client.Config
import Mpubsub.Client.History

/-!
# The spacing of indefinite chains

Both the loader of the bridge and the constructor of the asyncio client ask for a delay of a
second when the configured count is indefinite. The count of a publish may be indefinite
without that: `promote_qos` raises it for a QoS of 2, and the delay is not looked at again.
The client's check also lets a delay pass that is not a number. Chains are spaced by a second
exactly when no publish is promoted with a shorter delay (`indefinite_delay_iff`).
-/

namespace Mpubsub.Theorems

open Mpubsub.Lib Mpubsub.Wire

variable {σ : Type}

/-! ## The property -/

/-- In every run whose messages have an allowed QoS, a resend goroutine has a ticker of a second
or more. -/
def BridgeSpaced (aeadSeal : Bridge.AeadSeal) (ops : Bridge.Resend.SchemaOps σ)
    (c : Bridge.LoadedConfig) (allowed : UInt8 → Prop) : Prop :=
  ∀ events : List (Bridge.Resend.Event σ),
    (∀ msg, .deliver msg ∈ events → allowed msg.qos) →
    ((Bridge.Resend.machine aeadSeal ops c.sender).exec {} events).resenders ≠ [] →
      Bridge.SECOND ≤ c.mpubsub.retransmitDelay

/-- In every run whose publishes have an allowed QoS, a pending tick was given to `call_later`
with a delay of a second or more. -/
def ClientSpaced (a : Client.Attributes) (allowed : Int → Prop) : Prop :=
  ∀ delay time (events : List Client.Event), a.retransmitDelay.TakenAs delay →
    (∀ call, .publish call ∈ events → allowed call.qos) →
    (∃ t ∈ ((Client.MpubsubClient.machine (a.settings delay)).exec (.new time)
        events).loop.scheduled, ∃ job, t.callback = .tick job) →
      a.retransmitDelay.ge Client.MIN_INDEFINITE_DELAY = true

/-! ## The bridge -/

section Bridge

open Mpubsub.Bridge Mpubsub.Bridge.Resend

variable {aeadSeal : AeadSeal} {ops : Resend.SchemaOps σ} {cfg : Resend.Settings}

theorem length_resenders_shutdown (s : Resend.State) :
    s.shutdown.resenders.length = s.resenders.length := by
  have hclose : ∀ (is : List Nat) (s : Resend.State),
      (is.foldl State.close s).resenders.length = s.resenders.length := by
    intro is
    induction is with
    | nil => exact fun s => rfl
    | cons i is ih => exact fun s => (ih _).trans (List.length_modify _ _ _)
  exact hclose _ s

theorem length_resenders_cancelIndefinite (s : Resend.State) (topic : Bytes) :
    (s.cancelIndefinite topic).resenders.length = s.resenders.length := by
  unfold State.cancelIndefinite
  split
  · rfl
  · exact List.length_modify _ _ _

theorem length_resenders_resend (s : Resend.State) (i : Nat) :
    (s.resend i).resenders.length = s.resenders.length := by
  unfold State.resend
  split
  · rfl
  split
  · exact List.length_modify _ _ _
  · rfl

/-- The handler's message was delivered, and has the count of its QoS; a goroutine comes from one
with an indefinite count. -/
structure Counted (cfg : Resend.Settings) (allowed : UInt8 → Prop) (s : Resend.State) : Prop where
  handler : ∀ out, s.handler.out? = some out →
    ∃ q, allowed q ∧ out.count = Resend.effectiveRetransmitCount cfg q
  resenders : s.resenders.length ≠ 0 →
    ∃ q, allowed q ∧ Resend.effectiveRetransmitCount cfg q = -1

theorem count_of_encode {publish : Nat} {msg : Resend.Message σ} {out : Outgoing}
    (h : encode aeadSeal ops cfg publish msg = some out) :
    out.count = Resend.effectiveRetransmitCount cfg msg.qos := by
  simp only [encode] at h
  obtain ⟨body, -, hbody⟩ := Option.bind_eq_some_iff.mp h
  obtain ⟨pkt, -, hpkt⟩ := Option.map_eq_some_iff.mp hbody
  exact congrArg Outgoing.count hpkt.symm

variable {allowed : UInt8 → Prop} {s s' : Resend.State}

/-- A step that starts no goroutine. -/
theorem Counted.frame (h : Counted cfg allowed s) (hhandler : s'.handler.out? = s.handler.out?)
    (hlength : s'.resenders.length = s.resenders.length) : Counted cfg allowed s' := by
  constructor
  · rw [hhandler]
    exact h.handler
  · rw [hlength]
    exact h.resenders

theorem Counted.deliver (h : Counted cfg allowed s) {msg : Resend.Message σ}
    (hmsg : allowed msg.qos) : Counted cfg allowed (step aeadSeal ops cfg s (.deliver msg)) := by
  simp only [step]
  cases s.handler with
  | idle =>
    refine ⟨?_, h.resenders⟩
    cases hout : encode aeadSeal ops cfg s.delivered msg with
    | none => exact fun out heq => by cases heq
    | some out =>
      intro out' heq
      cases heq
      exact ⟨msg.qos, hmsg, count_of_encode hout⟩
  | encoded out => exact h
  | cancelled out => exact h
  | sending out => exact h

theorem Counted.sent (h : Counted cfg allowed s) (ok : Bool) :
    Counted cfg allowed (step aeadSeal ops cfg s (.sent ok)) := by
  simp only [step]
  cases hhandler : s.handler with
  | idle => exact h
  | encoded out => exact h
  | cancelled out => exact h
  | sending out =>
    have hidle : Counted cfg allowed { s with handler := .idle } :=
      ⟨fun out heq => (by cases heq), h.resenders⟩
    simp only [State.afterSend]
    split
    · exact hidle
    split
    · rename_i hcount
      obtain ⟨q, hq, hqcount⟩ := h.handler out (by rw [hhandler]; rfl)
      exact ⟨hidle.handler, fun _ => ⟨q, hq, hqcount ▸ hcount⟩⟩
    split
    · exact ⟨hidle.handler, hidle.resenders⟩
    · exact hidle

theorem step_counted (h : Counted cfg allowed s) {e : Resend.Event σ}
    (he : ∀ msg, e = .deliver msg → allowed msg.qos) :
    Counted cfg allowed (step aeadSeal ops cfg s e) := by
  cases e with
  | deliver msg => exact h.deliver (he msg rfl)
  | sent ok => exact h.sent ok
  | cancel =>
    simp only [step]
    cases hhandler : s.handler with
    | encoded out =>
      exact h.frame (by rw [hhandler]; rfl) (length_resenders_cancelIndefinite s out.mpubsubTopic)
    | idle => exact h
    | cancelled out => exact h
    | sending out => exact h
  | send =>
    simp only [step]
    cases hhandler : s.handler with
    | cancelled out => exact h.frame (by rw [hhandler]; rfl) rfl
    | idle => exact h
    | encoded out => exact h
    | sending out => exact h
  | tick i => exact h.frame rfl (List.length_modify _ _ _)
  | select i case => exact h.frame rfl (List.length_modify _ _ _)
  | resent i => exact h.frame rfl (List.length_modify _ _ _)
  | resend i =>
    refine h.frame ?_ (length_resenders_resend s i)
    simp only [step, State.resend]
    split
    · rfl
    split <;> rfl
  | finiteResend i ok =>
    simp only [step, State.finiteResend]
    split
    · exact h
    split
    · exact h
    · exact h.frame rfl rfl
  | shutdown =>
    refine h.frame ?_ (length_resenders_shutdown s)
    have hclose : ∀ (is : List Nat) (s : Resend.State),
        (is.foldl State.close s).handler = s.handler := by
      intro is
      induction is with
      | nil => exact fun s => rfl
      | cons i is ih => exact fun s => ih _
    exact congrArg Handler.out? (hclose _ s)

variable (aeadSeal ops)

/-- An empty message without a schema is encoded. -/
theorem exists_encode_eq_some (hkey : ∀ k, cfg.encryptionKey = some k → k.length = 32)
    (publish : Nat) (msg : Resend.Message σ) (hschema : msg.schema = none)
    (hpayload : msg.payload = []) (hnonce : msg.nonce.length = AEAD_NONCE_LEN) :
    ∃ out, encode aeadSeal ops cfg publish msg = some out := by
  simp only [encode, hschema, hpayload]
  cases hk : cfg.encryptionKey with
  | none => exact ⟨_, rfl⟩
  | some k =>
    have hlength := hkey k hk
    simp only [Option.isSome_some, if_true, Option.bind_some, encodePacket, hlength, hnonce]
    exact ⟨_, rfl⟩

/-- When its count is indefinite and its first send succeeds, a goroutine is started. -/
theorem exists_resender {q : UInt8} (hcount : Resend.effectiveRetransmitCount cfg q = -1)
    (hkey : ∀ k, cfg.encryptionKey = some k → k.length = 32) :
    ∃ events : List (Resend.Event σ), (∀ msg, .deliver msg ∈ events → msg.qos = q) ∧
      ((machine aeadSeal ops cfg).exec {} events).resenders ≠ [] := by
  obtain ⟨msg, hmsg⟩ : ∃ msg : Resend.Message σ, msg =
      { mpubsubTopic := [116], group := Vector.replicate 16 0, payload := [], qos := q
        schema := none, nonce := List.replicate 12 0 } := ⟨_, rfl⟩
  obtain ⟨out, hout⟩ := exists_encode_eq_some aeadSeal ops hkey 0 msg
    (by rw [hmsg]) (by rw [hmsg]) (by rw [hmsg]; rfl)
  have hindefinite : out.count = -1 := by
    rw [count_of_encode hout, hmsg]
    exact hcount
  refine ⟨[.deliver msg, .cancel, .send, .sent true], ?_, ?_⟩
  · intro msg' hmem
    simp only [List.mem_cons, Event.deliver.injEq, reduceCtorEq, List.not_mem_nil,
      or_false] at hmem
    rw [hmem, hmsg]
  · -- The handler goes from the message to the start of the goroutine.
    have hdelivered : step aeadSeal ops cfg {} (.deliver msg) =
        { delivered := 1, handler := .encoded out } := by
      simp only [step, hout]
      rfl
    show (step aeadSeal ops cfg (step aeadSeal ops cfg (step aeadSeal ops cfg
      (step aeadSeal ops cfg {} (.deliver msg)) .cancel) .send) (.sent true)).resenders ≠ []
    rw [hdelivered]
    simp only [step, State.cancelIndefinite, Dict.get?_empty, State.afterSend, Bool.not_true,
      Bool.false_eq_true, if_false, hindefinite, if_true, State.startIndefinite]
    exact List.cons_ne_nil _ _

/-- The count of a QoS is indefinite when the configured one is, or when it is promoted. -/
theorem bridge_effective_eq_iff {q : UInt8} :
    Resend.effectiveRetransmitCount cfg q = -1 ↔
      cfg.retransmitCount = -1 ∨ cfg.promoteQoS = true ∧ ¬(q = 0 ∨ q = 1) := by
  unfold Resend.effectiveRetransmitCount
  cases cfg.promoteQoS with
  | false => simp
  | true =>
    simp only [Bool.not_true, Bool.false_eq_true, if_false]
    split
    · rename_i h0
      simp [h0]
    split
    · rename_i h1
      split
      · simp_all
      split <;> simp_all
    · rename_i h0 h1
      simp [h0, h1]

/-- Chains of the bridge are spaced exactly when no allowed QoS is promoted, or the delay is long
enough. -/
theorem bridgeSpaced_iff {c : LoadedConfig} (hc : c.Ok)
    (allowed : UInt8 → Prop) :
    BridgeSpaced aeadSeal ops c allowed ↔
      SECOND ≤ c.mpubsub.retransmitDelay ∨
        ∀ q, allowed q → c.mpubsub.promoteQoS = false ∨ q = 0 ∨ q = 1 := by
  constructor
  · intro hspaced
    by_contra hnot
    rw [not_or, not_forall] at hnot
    obtain ⟨hshort, q, hq⟩ := hnot
    obtain ⟨hq, hpromoted⟩ := Classical.not_imp.mp hq
    rw [not_or, Bool.not_eq_false] at hpromoted
    have hcount : Resend.effectiveRetransmitCount c.sender q = -1 :=
      bridge_effective_eq_iff.mpr (.inr hpromoted)
    obtain ⟨events, hevents, hstarted⟩ := exists_resender aeadSeal ops hcount hc.key
    exact hshort (hspaced events (fun msg hmsg => (hevents msg hmsg).symm ▸ hq) hstarted)
  · intro hcond events hevents hstarted
    have hcounted : Counted c.sender allowed ((machine aeadSeal ops c.sender).exec {} events) := by
      refine Machine.exec_invariant_along _ (I := Counted c.sender allowed)
        (P := fun _ (e : Event σ) => ∀ msg, e = .deliver msg → allowed msg.qos)
        (fun s e hs he => step_counted hs he) ?_ ?_
      · exact ⟨fun out h => (by cases h), fun h => absurd rfl h⟩
      · refine Machine.along_of_forall _ _ fun e he msg heq => ?_
        exact hevents msg (heq ▸ he)
    obtain ⟨q, hq, hcount⟩ := hcounted.resenders (mt List.eq_nil_of_length_eq_zero hstarted)
    rcases bridge_effective_eq_iff.mp hcount with hbase | ⟨hpromote, hqos⟩
    · exact hc.indefinite hbase
    · rcases hcond with hlong | hall
      · exact hlong
      · rcases hall q hq with hoff | hlow
        · exact absurd (hoff.symm.trans hpromote) (by decide)
        · exact absurd hlow hqos

end Bridge

/-! ## The client -/

section Client

open Mpubsub.Client Mpubsub.Client.MpubsubClient

variable {cfg : Client.Settings} {c : MpubsubClient} {allowed : Int → Prop}

/-- Every publish of the history has the count of an allowed QoS. -/
def Promoted (cfg : Client.Settings) (allowed : Int → Prop) (c : MpubsubClient) : Prop :=
  ∀ p ∈ c.published, ∃ q, allowed q ∧ p.count = Client.effectiveRetransmitCount cfg q

/-- What a step adds to the history of publishes. -/
theorem published_step (hc : Retransmits cfg c) (e : Client.Event) :
    (c.step cfg e).1.published = c.published ∨
      ∃ call p, e = .publish call ∧ (c.step cfg e).1.published = c.published ++ [p] ∧
        p.count = Client.effectiveRetransmitCount cfg call.qos := by
  cases e with
  | start ifindex =>
    refine .inl ?_
    simp only [MpubsubClient.step, MpubsubClient.start]
    split <;> rfl
  | stop => exact .inl rfl
  | advance time => exact .inl rfl
  | fire handle ok => exact .inl (fire_onlySends c handle ok).published
  | subscribe topic encoding known ok =>
    exact .inl (subscribe_sameSending hc.cached topic encoding known ok).published
  | unsubscribe sub =>
    exact .inl (unsubscribe_sameSending c sub).published
  | publish call =>
    obtain ⟨groups, -, heq | ⟨-, data, heq⟩⟩ := publish_cases hc.cached call
    · refine .inl ?_
      show (c.publish cfg call).1.published = c.published
      rw [heq]
    · have hentered := transmit_onlySends cfg { c with groups := groups } call
        (Reference.topicToGroup call.topic cfg.scope) data
      rw [← heq] at hentered
      exact .inr ⟨call, _, rfl, hentered.published, rfl⟩

theorem exec_promoted (time : Rat) {events : List Client.Event}
    (hevents : ∀ call, .publish call ∈ events → allowed call.qos) :
    Promoted cfg allowed ((Client.MpubsubClient.machine cfg).exec (.new time) events) := by
  refine (Machine.exec_invariant_along _
    (I := fun c => Retransmits cfg c ∧ Promoted cfg allowed c)
    (P := fun _ (e : Client.Event) => ∀ call, e = .publish call → allowed call.qos)
    ?_ ⟨retransmits_new cfg time, fun p hp => (by cases hp)⟩ ?_).2
  · rintro c e ⟨hc, hpromoted⟩ he
    refine ⟨step_retransmits c e hc, ?_⟩
    intro p hp
    change p ∈ (c.step cfg e).1.published at hp
    rcases published_step hc e with heq | ⟨call, new, rfl, heq, hcount⟩
    · exact hpromoted p (heq ▸ hp)
    · rw [heq] at hp
      rcases List.mem_append.mp hp with hp | hp
      · exact hpromoted p hp
      · rw [List.mem_singleton.mp hp]
        exact ⟨call.qos, he call rfl, hcount⟩
  · refine Machine.along_of_forall _ _ fun e he call heq => ?_
    exact hevents call (heq ▸ he)

/-- A pending tick comes from a publish with an indefinite count. -/
theorem published_of_tick (h : Retransmits cfg c)
    (hticks : ∃ t ∈ c.loop.scheduled, ∃ job, t.callback = .tick job) :
    ∃ p ∈ c.published, p.count = Client.RETRANSMIT_INDEFINITE := by
  obtain ⟨t, ht, job, hjob⟩ := hticks
  have hin : t.callback ∈ (chainOf c.loop.scheduled job.topic).map (·.callback) :=
    List.mem_map_of_mem (mem_chainOf.mpr ⟨ht, job, hjob, rfl⟩)
  rw [h.jobs] at hin
  obtain ⟨job', hdue, -⟩ := List.mem_map.mp hin
  obtain ⟨p, hp, -⟩ := Option.map_eq_some_iff.mp (Option.mem_toList.mp hdue)
  obtain ⟨hlatest, hcount⟩ := Option.filter_eq_some_iff.mp hp
  exact ⟨p, (mem_of_latest hlatest).1, (of_decide_eq_true hcount).1⟩

/-- A publish that is encoded leaves a tick when its count is indefinite. -/
theorem exists_tick_transmit (c : MpubsubClient) {call : PublishCall}
    (hcount : Client.effectiveRetransmitCount cfg call.qos = Client.RETRANSMIT_INDEFINITE)
    (group : GroupAddr) (data : Bytes) :
    ∃ t ∈ (c.transmit cfg call group data).loop.scheduled, ∃ job, t.callback = .tick job := by
  simp only [transmit, hcount, if_true, startIndefinite, EventLoop.scheduled_callLater]
  exact ⟨_, List.mem_append_right _ (List.mem_singleton_self _), _, rfl⟩

theorem exists_tick (a : Attributes) {q : Int} (delay : Rat)
    (hcount : Client.effectiveRetransmitCount (a.settings delay) q = Client.RETRANSMIT_INDEFINITE)
    (hkey : ∀ k, a.key = some k → k.length = 32) :
    ∃ events : List Client.Event, (∀ call, .publish call ∈ events → call.qos = q) ∧
      ∃ t ∈ ((Client.MpubsubClient.machine (a.settings delay)).exec (.new 0)
        events).loop.scheduled, ∃ job, t.callback = .tick job := by
  obtain ⟨call, hcall⟩ : ∃ call : PublishCall, call =
      { topic := "t", payload := .none, qos := q, urandom := List.replicate 12 0 } := ⟨_, rfl⟩
  refine ⟨[.start 0, .publish call], ?_, ?_⟩
  · intro call' hmem
    simp only [List.mem_cons, reduceCtorEq, Event.publish.injEq, List.not_mem_nil, or_false,
      false_or] at hmem
    rw [hmem, hcall]
  · obtain ⟨started, hstarted⟩ : ∃ started, started =
        (MpubsubClient.new 0).start (a.settings delay) 0 := ⟨_, rfl⟩
    have htransport : ¬started.transport.isNone = true := by
      rw [hstarted, MpubsubClient.start]
      exact Bool.false_ne_true
    show ∃ t ∈ (((MpubsubClient.new 0).start (a.settings delay) 0).publish (a.settings delay)
      call).1.loop.scheduled, _
    rw [← hstarted]
    have htopic : validateTopic call.topic = .ok "t" := by
      rw [hcall]
      show validateTopic "t" = .ok "t"
      decide +kernel
    have hdata : ∃ data, Reference.encode call.time call.urandom call.topic
        (Client.toBytes call.payload) Reference.ENCODING_RAW a.key
        ((a.key.filter (· ≠ [])).map fun _ => call.time) none = .ok data := by
      rw [hcall]
      unfold Reference.encode
      cases hk : a.key with
      | none => exact ⟨_, rfl⟩
      | some k =>
        simp only [hkey k hk]
        exact ⟨_, rfl⟩
    obtain ⟨data, hdata⟩ := hdata
    unfold publish
    simp only [htopic, if_neg htransport]
    have hkeys : (a.settings delay).key = a.key := rfl
    rw [hkeys, hdata]
    exact exists_tick_transmit _ (by rw [hcall]; exact hcount) _ _

/-- The count of a QoS is indefinite when the configured one is, or when it is promoted. -/
theorem client_effective_eq_iff {q : Int} :
    Client.effectiveRetransmitCount cfg q = Client.RETRANSMIT_INDEFINITE ↔
      cfg.retransmitCount = -1 ∨ cfg.promoteQos = true ∧ ¬(q = 0 ∨ q = 1) := by
  unfold Client.effectiveRetransmitCount Client.RETRANSMIT_INDEFINITE
  cases cfg.promoteQos with
  | false => simp
  | true =>
    simp only [Bool.not_true, Bool.false_eq_true, if_false]
    split
    · rename_i h0
      simp [h0]
    split
    · rename_i h1
      split
      · simp_all
      · rename_i hbase
        simp only [h1, hbase, or_true, not_true_eq_false, and_false, or_false, iff_false]
        omega
    · rename_i h0 h1
      simp [h0, h1]

/-- With a key of another length, every publish raises. -/
theorem published_eq_nil {k : Bytes} (hk : cfg.key = some k) (hlength : k.length ≠ 32) (time : Rat)
    (events : List Client.Event) :
    ((Client.MpubsubClient.machine cfg).exec (.new time) events).published = [] := by
  have hpublish (c : MpubsubClient) (call : PublishCall) :
      (c.publish cfg call).1.published = c.published := by
    unfold publish groupFor
    have hencode (topic : String) (payload : Bytes) (timestamp : Option Nat) :
        ∃ e, Reference.encode call.time call.urandom topic payload Reference.ENCODING_RAW cfg.key
          timestamp none = .error e := by
      unfold Reference.encode
      split
      · exact ⟨_, rfl⟩
      split
      · exact ⟨_, rfl⟩
      · simp only [hk, if_pos hlength]
        exact ⟨_, rfl⟩
    split
    · rfl
    split
    · rfl
    · obtain ⟨e, he⟩ := hencode call.topic (Client.toBytes call.payload)
        ((cfg.key.filter (· ≠ [])).map fun _ => call.time)
      cases c.groups.get? call.topic with
      | none => simp only [he]
      | some group => simp only [he]
  refine (Machine.exec_invariant _ (I := fun c => Retransmits cfg c ∧ c.published = []) ?_
    ⟨retransmits_new cfg time, rfl⟩ events).2
  rintro c e ⟨hc, hnil⟩
  refine ⟨step_retransmits c e hc, ?_⟩
  show (c.step cfg e).1.published = []
  rcases published_step hc e with heq | ⟨call, p, rfl, -, -⟩
  · rw [heq, hnil]
  · exact (hpublish c call).trans hnil

/-- Chains of the client are spaced exactly when the delay is long enough, or no publish with an
allowed QoS starts one. -/
theorem clientSpaced_iff {args : InitArgs} {a : Attributes} (ha : Client.init args = .ok a)
    (allowed : Int → Prop) :
    ClientSpaced a allowed ↔
      a.retransmitDelay.ge Client.MIN_INDEFINITE_DELAY = true ∨
      (∃ k, a.key = some k ∧ k.length ≠ 32) ∨
      ∀ q, allowed q → ¬(a.retransmitCount = -1 ∧ a.retransmitDelay = .nan) ∧
        (a.promoteQos = false ∨ q = 0 ∨ q = 1) := by
  have hchecked := (of_init ha).1
  constructor
  · intro hspaced
    by_contra hnot
    obtain ⟨hshort, hnot⟩ := not_or.mp hnot
    obtain ⟨hkey, hnot⟩ := not_or.mp hnot
    obtain ⟨q, hq⟩ := not_forall.mp hnot
    obtain ⟨hq, hpromoted⟩ := Classical.not_imp.mp hq
    obtain ⟨delay, hdelay⟩ := a.retransmitDelay.exists_takenAs
    have hkeys : ∀ k, a.key = some k → k.length = 32 := by
      intro k hk
      by_contra hlength
      exact hkey ⟨k, hk, hlength⟩
    have hcount : Client.effectiveRetransmitCount (a.settings delay) q =
        Client.RETRANSMIT_INDEFINITE := by
      refine client_effective_eq_iff.mpr ?_
      by_cases hbase : a.retransmitCount = -1
      · exact .inl hbase
      · have hcounted : ¬(a.retransmitCount = -1 ∧ a.retransmitDelay = .nan) := fun h => hbase h.1
        refine .inr ⟨?_, fun hlow => hpromoted ⟨hcounted, .inr hlow⟩⟩
        rw [← Bool.not_eq_false]
        exact fun hoff => hpromoted ⟨hcounted, .inl hoff⟩
    obtain ⟨events, hevents, hticks⟩ := exists_tick a delay hcount hkeys
    exact hshort (hspaced delay 0 events hdelay
      (fun call hcall => (hevents call hcall).symm ▸ hq) hticks)
  · intro hcond delay time events _ hevents hticks
    obtain ⟨p, hp, hcount⟩ :=
      published_of_tick (exec_retransmits (a.settings delay) time events) hticks
    rcases hcond with hlong | ⟨k, hk, hlength⟩ | hall
    · exact hlong
    · have hnil : ((Client.MpubsubClient.machine (a.settings delay)).exec (.new time)
          events).published = [] := published_eq_nil hk hlength time events
      rw [hnil] at hp
      cases hp
    · obtain ⟨q, hq, hpcount⟩ := exec_promoted time hevents p hp
      rw [hcount] at hpcount
      obtain ⟨hbase, hlow⟩ := hall q hq
      rcases client_effective_eq_iff.mp hpcount.symm with hindefinite | ⟨hpromote, hqos⟩
      · -- The constructor has checked the delay, which can only be no number.
        rcases hchecked hindefinite with hlong | hnan
        · exact hlong
        · exact absurd ⟨hindefinite, hnan⟩ hbase
      · rcases hlow with hoff | hlow
        · exact absurd (hoff.symm.trans hpromote) (by decide)
        · exact absurd hlow hqos

end Client

/-! ## The two together -/

/-- A file with `promote_qos` and the default count and delay, -/
def promotingFile : Bridge.ConfigFile where
  mqtt := { broker := [98] }
  mpubsub := { promoteQoS := true }
  bridges := [{ direction := Bridge.Direction.name .DirMQTTToMPubsub, mqttTopic := [116] }]

/-- what the loader makes of it, -/
def promotingConfig : Bridge.LoadedConfig where
  mqtt := { broker := [98], clientID := utf8 "mpubsub-bridge" }
  mpubsub :=
    { port := 18512, scope := utf8 "link-local", hops := 1, retransmitCount := 1
      retransmitDelay := 100000000, promoteQoS := true, encryptionKey := none
      replayWindowSeconds := 0 }
  bridges := [{ direction := Bridge.Direction.name .DirMQTTToMPubsub, mqttTopic := [116] }]

/-- and a client with the same settings. -/
def promotingClient : Client.Attributes where
  port := 18512
  scope := .LINK_LOCAL
  interface := none
  hops := 1
  key := none
  replayWindow := 0
  retransmitCount := 1
  retransmitDelay := .finite (1 / 10)
  promoteQos := true

theorem loadConfig_promotingFile (std : Bridge.Std) :
    Bridge.loadConfig std promotingFile = .ok promotingConfig := rfl

theorem init_promotingClient : Client.init { promoteQos := true } = .ok promotingClient := rfl

/-- Both are accepted, and start chains with a tenth of a second for messages of QoS 2. -/
theorem promoted_chains_too_fast :
    (∃ std file c, Bridge.loadConfig std file = .ok c ∧
      ¬BridgeSpaced (fun _ _ _ _ => []) (⟨fun _ : Unit => 0, fun _ _ => none⟩) c fun _ => True) ∧
    ∃ args a, Client.init args = .ok a ∧ ¬ClientSpaced a fun _ => True := by
  constructor
  · refine ⟨⟨fun _ => .error "", fun _ => 0⟩, _, _, loadConfig_promotingFile _, ?_⟩
    rw [bridgeSpaced_iff _ _ (Bridge.ok_of_loadConfig (loadConfig_promotingFile
      ⟨fun _ => .error "", fun _ => 0⟩))]
    rintro (hlong | hall)
    · exact absurd hlong (by decide)
    · rcases hall 2 trivial with h | h | h <;> cases h
  · refine ⟨_, _, init_promotingClient, ?_⟩
    rw [clientSpaced_iff init_promotingClient]
    rintro (hlong | ⟨k, hk, -⟩ | hall)
    · exact absurd hlong (by decide +kernel)
    · cases hk
    · rcases (hall 2 trivial).2 with h | h | h <;> cases h

/-- For every accepted configuration, and every set of QoS values that messages and publishes may
have: the chains of the bridge have a delay of a second or more if and only if the configured
delay is that long or no such QoS is promoted; and so for the client, when its publishes do not
all raise and the delay of an indefinite count is a number. -/
theorem indefinite_delay_iff (aeadSeal : Bridge.AeadSeal) (ops : Bridge.Resend.SchemaOps σ)
    {std : Bridge.Std} {file : Bridge.ConfigFile} {c : Bridge.LoadedConfig}
    (hc : Bridge.loadConfig std file = .ok c) {args : Client.InitArgs} {a : Client.Attributes}
    (ha : Client.init args = .ok a) (allowed : UInt8 → Prop) (allowed' : Int → Prop) :
    (BridgeSpaced aeadSeal ops c allowed ↔
      Bridge.SECOND ≤ c.mpubsub.retransmitDelay ∨
        ∀ q, allowed q → c.mpubsub.promoteQoS = false ∨ q = 0 ∨ q = 1) ∧
    (ClientSpaced a allowed' ↔
      a.retransmitDelay.ge Client.MIN_INDEFINITE_DELAY = true ∨
      (∃ k, a.key = some k ∧ k.length ≠ 32) ∨
      ∀ q, allowed' q → ¬(a.retransmitCount = -1 ∧ a.retransmitDelay = .nan) ∧
        (a.promoteQos = false ∨ q = 0 ∨ q = 1)) :=
  ⟨bridgeSpaced_iff aeadSeal ops (Bridge.ok_of_loadConfig hc) allowed,
    clientSpaced_iff ha allowed'⟩

/-- `indefinite_delay_iff` for messages of QoS 0. -/
theorem indefinite_delay_iff_unpromoted :
    BridgeSpaced (fun _ _ _ _ => []) (⟨fun _ : Unit => 0, fun _ _ => none⟩) promotingConfig
        (fun q => q = 0) ∧
      ClientSpaced promotingClient fun q => q = 0 := by
  have h := indefinite_delay_iff (fun _ _ _ _ => [])
    (⟨fun _ : Unit => 0, fun _ _ => none⟩)
    (loadConfig_promotingFile ⟨fun _ => .error "", fun _ => 0⟩) init_promotingClient
    (fun q => q = 0) (fun q => q = 0)
  refine ⟨h.1.mpr (.inr fun q hq => .inr (.inl hq)), h.2.mpr (.inr (.inr fun q hq => ?_))⟩
  exact ⟨fun hnan => absurd hnan.1 (by decide), .inr (.inl hq)⟩

end Mpubsub.Theorems
