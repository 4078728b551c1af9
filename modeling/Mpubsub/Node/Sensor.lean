import Mpubsub.Lib.NumberText
import Mpubsub.Node.Delivery

/-!
# Sensors of a node (`sensor.h`, `sensor.py`)

`MulticastSensor` sends its states to a topic as texts, or takes them from there. A state is a
`float`, given by its bits. `mirrored` is the state that a sensor takes from the text of a state
(`received_snprintf`); it has the same text (`snprintf_mirrored`).
-/

namespace Mpubsub.Node

open Mpubsub.Lib Mpubsub.Lib.Ieee754 Mpubsub.Wire

variable {κ : Type}

/-- `MODES`. -/
inductive SensorMode where
  | MODE_SUBSCRIBE
  | MODE_PUBLISH
deriving DecidableEq

structure MulticastSensor where
  topic : Bytes
  subscribe : Bool := true
  publish : Bool := false
  requireEncryption : Bool := false

/-- The sensor that `to_code` sets up. -/
def sensorToCode (topic : Bytes) (mode : SensorMode) (requireEncryption : Bool) :
    MulticastSensor where
  topic := topic
  subscribe := mode = .MODE_SUBSCRIBE
  publish := mode = .MODE_PUBLISH
  requireEncryption := requireEncryption

/-- The size of the buffers for texts. -/
def BUF_SIZE : Nat := 32

/-- `strtof`, and nothing where `end` stays at the beginning. -/
def strtof (nan : Bytes → binary32.NaN) (buf : Bytes) : Option UInt32 :=
  (binary32.strtod nan buf).map UInt32.ofNat

/-- `snprintf` of a state with `%.6g`. -/
def snprintf (state : UInt32) : Bytes := binary32.formatG 5 state.toNat

namespace MulticastSensor

/-- The callback that `setup` subscribes with: the state that it publishes on the sensor. -/
def received (nan : Bytes → binary32.NaN) (data : Bytes) : Option UInt32 :=
  let n := if data.length < BUF_SIZE - 1 then data.length else BUF_SIZE - 1
  let buf := data.take n ++ [0]
  strtof nan (buf.takeWhile (· ≠ 0))

/-- `setup`, as far as it subscribes. -/
def setup (sensor : MulticastSensor) (parent : MulticastPubSub κ) (cb : κ) : MulticastPubSub κ :=
  if sensor.subscribe then parent.subscribe sensor.topic cb sensor.requireEncryption else parent

/-- The callback that `setup` adds for new states. -/
def stateChanged (sensor : MulticastSensor) (parent : MulticastPubSub κ) (env : PublishEnv)
    (state : UInt32) : MulticastPubSub κ × List Sent :=
  if sensor.publish then
    let (parent, sent, _) := parent.publish env sensor.topic (snprintf state) .RAW
    (parent, sent)
  else (parent, [])

/-- What a state is when it has been sent and received. -/
def mirrored (nan : Bytes → binary32.NaN) (state : UInt32) : UInt32 :=
  UInt32.ofNat (binary32.rereadBits nan 5 state.toNat)

end MulticastSensor

open MulticastSensor

variable (nan : Bytes → binary32.NaN)

theorem rereadMagnitude_lt (m : Nat) : binary32.rereadMagnitude nan 5 m < 2 ^ 31 :=
  Format.rereadMagnitude_lt nan (fun _ hv hm => reread_lt_infinity hm hv) m (by decide)

theorem toNat_mirrored (state : UInt32) :
    (mirrored nan state).toNat = binary32.rereadBits nan 5 state.toNat := by
  have hlt := rereadMagnitude_lt nan (state.toNat % 2 ^ 31)
  refine UInt32.toNat_ofNat'.trans (Nat.mod_eq_of_lt ?_)
  show (if 2 ^ 31 ≤ state.toNat then 2 ^ 31 else 0) +
    binary32.rereadMagnitude nan 5 (state.toNat % 2 ^ 31) < 2 ^ 32
  split <;> omega

/-- The text is that of the state. -/
theorem snprintf_mirrored (state : UInt32) : snprintf (mirrored nan state) = snprintf state := by
  unfold snprintf
  rw [toNat_mirrored]
  exact Format.formatG_rereadBits nan binary32_reprints (fun _ hv hm => reread_lt_infinity hm hv)
    (by decide) _

/-- The text fits into the buffer. -/
theorem length_snprintf_lt (state : UInt32) : (snprintf state).length < BUF_SIZE := by
  have hle := length_formatG_le state.toNat
  unfold snprintf BUF_SIZE
  omega

/-- A text that fits into the buffer, and has no NUL, is read as it is. -/
theorem received_eq {data : Bytes} (hlength : data.length < BUF_SIZE) (hzero : 0 ∉ data) :
    received nan data = strtof nan data := by
  have htake : data.take (if data.length < BUF_SIZE - 1 then data.length else BUF_SIZE - 1) =
      data := by
    refine List.take_of_length_le ?_
    split
    · exact Nat.le_refl _
    · exact Nat.le_sub_one_of_lt hlength
  have hall : ∀ b ∈ data, decide (b ≠ 0) = true := by
    intro b hb
    refine decide_eq_true ?_
    rintro rfl
    exact hzero hb
  unfold received
  simp only [htake]
  rw [List.takeWhile_append_of_pos hall]
  simp

theorem received_snprintf (state : UInt32) :
    received nan (snprintf state) = some (mirrored nan state) := by
  rw [received_eq nan (length_snprintf_lt state) (zero_notMem_formatG state.toNat)]
  unfold strtof snprintf
  rw [Format.strtod_formatG]
  rfl

/-- What a sensor with a new state hands to the socket. -/
theorem mem_stateChanged {sensor : MulticastSensor} {parent : MulticastPubSub κ} {env : PublishEnv}
    {state : UInt32} {sent : Sent} (h : sent ∈ (sensor.stateChanged parent env state).2) :
    (snprintf state).length ≤ parent.effectiveMax ∧
      sent.datagram = parent.datagram env sensor.topic (snprintf state) .RAW := by
  unfold stateChanged at h
  split at h
  · obtain ⟨hsize, rfl⟩ := MulticastPubSub.sent_of_publish h
    exact ⟨hsize, rfl⟩
  · cases h

/-! ## Sensors on a topic -/

/-- The callback is subscribed to the topic. -/
def Subscribed (topic : Bytes) (cb : κ) (subs : List (Subscription κ)) : Prop :=
  ∃ sub ∈ subs, sub.topic = topic ∧ cb ∈ sub.rawCallbacks

section

variable {topic : Bytes} {cb : κ}

/-- It stays so when another callback is added. -/
theorem Subscribed.update {subs : List (Subscription κ)} (h : Subscribed topic cb subs)
    (topic' : Bytes) (requireEncryption : Bool) (scope : Scope)
    {update : Subscription κ → Subscription κ} (hadds : MulticastPubSub.AddsCallback update)
    (hkeeps : ∀ sub, ∀ cb ∈ sub.rawCallbacks, cb ∈ (update sub).rawCallbacks) :
    Subscribed topic cb
      (MulticastPubSub.updateSubscription topic' requireEncryption scope update subs) := by
  obtain ⟨s, hs, htopic, hcb⟩ := h
  rcases MulticastPubSub.updateSubscription_cases topic' requireEncryption scope update subs with
    ⟨before, sub, after, rfl, -, heq⟩ | ⟨-, heq⟩
  · rw [heq]
    rcases List.mem_append.mp hs with hs | hs
    · exact ⟨s, List.mem_append_left _ hs, htopic, hcb⟩
    · rcases List.mem_cons.mp hs with rfl | hs
      · refine ⟨_, List.mem_append_right _ List.mem_cons_self, ?_, hkeeps _ cb ?_⟩
        · rw [hadds.topic]
          split <;> exact htopic
        · split <;> exact hcb
      · exact ⟨s, List.mem_append_right _ (List.mem_cons_of_mem _ hs), htopic, hcb⟩
  · rw [heq]
    exact ⟨s, List.mem_append_left _ hs, htopic, hcb⟩

theorem Subscribed.step {node : MulticastPubSub κ} (h : Subscribed topic cb node.subscriptions)
    (e : Event κ) : Subscribed topic cb (node.step e).1.subscriptions := by
  cases e with
  | subscribe topic' cb' req =>
    exact h.update topic' req node.scope (MulticastPubSub.addsCallback_raw cb')
      fun _ _ hmem => List.mem_append_left _ hmem
  | subscribeTyped topic' sid cb' req =>
    exact h.update topic' req node.scope (MulticastPubSub.addsCallback_typed ⟨sid, cb'⟩)
      fun _ _ hmem => hmem
  | publish env topic' payload enc =>
    obtain ⟨_, _, _, heq⟩ := node.publish_frame env topic' payload enc
    show Subscribed topic cb (node.publish env topic' payload enc).1.subscriptions
    rw [heq]
    exact h
  | packet raw clock =>
    obtain ⟨_, _, _, _, heq, -⟩ := node.onPacket_frame raw clock
    show Subscribed topic cb (node.onPacket raw clock).1.subscriptions
    rw [heq]
    exact h
  | timeout sendOk i =>
    obtain ⟨_, _, heq⟩ := node.fireTimeout_frame sendOk i
    show Subscribed topic cb (node.fireTimeout sendOk i).1.subscriptions
    rw [heq]
    exact h

end

/-- The callback that is given to `subscribe` is subscribed. -/
theorem subscribed_subscribe (node : MulticastPubSub κ) (topic : Bytes) (cb : κ)
    (requireEncryption : Bool) :
    Subscribed topic cb (node.subscribe topic cb requireEncryption).subscriptions := by
  unfold MulticastPubSub.subscribe
  rcases MulticastPubSub.updateSubscription_cases topic requireEncryption node.scope
    (fun sub : Subscription κ => { sub with rawCallbacks := sub.rawCallbacks ++ [cb] })
    node.subscriptions with ⟨before, sub, after, -, htopic, heq⟩ | ⟨-, heq⟩
  · refine ⟨_, heq ▸ List.mem_append_right _ List.mem_cons_self, ?_,
      List.mem_append_right _ (List.mem_singleton_self _)⟩
    show (if requireEncryption then { sub with requireEncryption := true } else sub).topic = topic
    split <;> exact htopic
  · exact ⟨_, heq ▸ List.mem_append_right _ (List.mem_singleton_self _), rfl,
      List.mem_append_right _ (List.mem_singleton_self _)⟩

/-- Whatever the node does later, a receiving sensor that has been set up is subscribed. -/
theorem subscribed_setup (node : MulticastPubSub κ) (topic : Bytes) (cb : κ)
    (requireEncryption : Bool) (events : List (Event κ)) :
    Subscribed topic cb (MulticastPubSub.machine.exec ((sensorToCode topic .MODE_SUBSCRIBE
      requireEncryption).setup node cb) events).subscriptions :=
  Machine.exec_invariant MulticastPubSub.machine
    (I := fun n => Subscribed topic cb n.subscriptions) (fun _ e h => h.step e)
    (subscribed_subscribe node topic cb requireEncryption) events

end Mpubsub.Node
