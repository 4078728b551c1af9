import Mpubsub.HomeAssistant.Sensor
import Mpubsub.Theorems.SensorExpiry

/-!
# The values of sensors (`sensor.py`, `binary_sensor.py`)

A sensor shows the last value that a message brought until it expires, and nothing from then on
(`sensor_shows`): it never forgets a value early, and has forgotten it when no timer is overdue. A
binary sensor has two timers, and follows both: its state is that of the last recognised payload
until the first of them, and then that of the one that was due last (`binary_sensor_shows`).
-/

namespace Mpubsub.Theorems

open Mpubsub.Lib Mpubsub.HomeAssistant

/-! ## The property -/

/-- What a sensor shows, `last` being the last value that came and when. -/
structure ShowsLast {ω : Type} (cfg : SensorConfig ω) (s : MpubsubSensor)
    (last : Option (Rat × Payload)) : Prop where
  oneTimer : s.loop.scheduled.length ≤ 1
  unset : last = none → s.nativeValue = none
  fresh : ∀ time value, last = some (time, value) →
    (∀ after, cfg.expireAfter = some after → s.loop.time < time + after) →
    s.nativeValue = some value
  expired : ∀ time value after, last = some (time, value) → cfg.expireAfter = some after →
    time + after ≤ s.loop.time → s.loop.Settled → s.nativeValue = none

/-! ## Steps -/

section

variable {ω : Type} {cfg : SensorConfig ω} {s : MpubsubSensor} {last : Option (Rat × Payload)}

/-- The handle stands for the pending timer, and the value follows the plan. -/
structure FollowsLast (cfg : SensorConfig ω) (s : MpubsubSensor) (last : Option (Rat × Payload)) :
    Prop where
  handle : ∀ t ∈ s.loop.scheduled, s.expireCancel = some t.id ∧ cfg.expireAfter ≠ none
  unset : last = none → s.nativeValue = none ∧ s.loop.scheduled = []
  follows : ∀ time value, last = some (time, value) →
    (cfg.plan time value).Follows (fun _ => none) s.loop s.nativeValue

/-- The new expiry timer is the only one. -/
theorem message_armed (h : FollowsLast cfg s last) {world : ω} {payload value : Payload}
    (hvalue : cfg.valueOf world payload = some value) :
    (s.message cfg world payload).nativeValue = some value ∧
      (s.message cfg world payload).loop.scheduled =
        (cfg.expireAfter.map fun after => ⟨s.loop.next, s.loop.time + after, ()⟩).toList ∧
      (cfg.expireAfter ≠ none →
        (s.message cfg world payload).expireCancel = some s.loop.next) := by
  unfold MpubsubSensor.message MpubsubSensor.resetExpiry
  simp only [hvalue]
  cases hafter : cfg.expireAfter with
  | none =>
    refine ⟨rfl, List.eq_nil_iff_forall_not_mem.mpr ?_, fun hsome => absurd rfl hsome⟩
    exact fun t ht => (h.handle t ht).2 hafter
  | some after =>
    have hcancelled : (s.loop.cancel? s.expireCancel).scheduled = [] := by
      refine List.eq_nil_iff_forall_not_mem.mpr ?_
      intro t ht
      obtain ⟨ht, hother⟩ := EventLoop.mem_cancel?.mp ht
      exact hother (h.handle t ht).1
    have hnext : (s.loop.cancel? s.expireCancel).next = s.loop.next := by
      cases s.expireCancel <;> rfl
    refine ⟨rfl, ?_, fun _ => congrArg some hnext⟩
    show (s.loop.cancel? s.expireCancel).scheduled ++ [_] = [_]
    rw [hcancelled, hnext, EventLoop.time_cancel?]
    rfl

theorem FollowsLast.message (h : FollowsLast cfg s last) (world : ω) (payload : Payload) :
    FollowsLast cfg (s.message cfg world payload)
      (cfg.record s last (.message world payload)) := by
  simp only [SensorConfig.record]
  cases hvalue : cfg.valueOf world payload with
  | none =>
    unfold MpubsubSensor.message
    simp only [hvalue]
    exact h
  | some value =>
    obtain ⟨hshown, harmed, hhandle⟩ := message_armed h hvalue
    constructor
    · intro t ht
      rw [harmed] at ht
      obtain ⟨after, hafter, rfl⟩ := Option.map_eq_some_iff.mp (Option.mem_toList.mp ht)
      have hsome : cfg.expireAfter ≠ none := by
        rw [hafter]
        exact Option.some_ne_none after
      exact ⟨hhandle hsome, hsome⟩
    · intro hnone
      cases hnone
    · rintro time value' ⟨⟩
      rw [hshown]
      constructor
      · intro t ht
        rw [harmed] at ht
        obtain ⟨after, hafter, rfl⟩ := Option.map_eq_some_iff.mp (Option.mem_toList.mp ht)
        simp [SensorConfig.plan, hafter]
      · refine .inl ⟨rfl, ?_⟩
        intro c hc
        obtain ⟨after, hafter, rfl⟩ := Option.map_eq_some_iff.mp (Option.mem_toList.mp hc)
        refine ⟨⟨s.loop.next, s.loop.time + after, ()⟩, ?_, rfl⟩
        rw [harmed, hafter]
        exact List.mem_singleton_self _

theorem FollowsLast.fire (h : FollowsLast cfg s last) (handle : Nat) :
    FollowsLast cfg (s.fire handle) last := by
  unfold MpubsubSensor.fire
  cases hrun : s.loop.runnable? handle with
  | none => exact h
  | some t =>
    obtain ⟨ht, rfl, -⟩ := EventLoop.runnable?_eq_some_iff.mp hrun
    constructor
    · -- The timer that ran was the only one.
      intro t' ht'
      obtain ⟨ht', hne⟩ := EventLoop.mem_cancel.mp ht'
      have hsame := (h.handle t' ht').1.symm.trans (h.handle t ht).1
      exact absurd (Option.some.inj hsame) hne
    · intro hnone
      refine ⟨rfl, ?_⟩
      rw [(h.unset hnone).2] at ht
      cases ht
    · exact fun time value hlast => (h.follows time value hlast).run hrun

theorem FollowsLast.step (h : FollowsLast cfg s last) {e : SensorEvent ω} (he : e ≠ .remove) :
    FollowsLast cfg (s.step cfg e) (cfg.record s last e) := by
  cases e with
  | message world payload => exact h.message world payload
  | advance time =>
    exact ⟨h.handle, h.unset, fun time' value hlast => (h.follows time' value hlast).advance time⟩
  | fire handle => exact h.fire handle
  | remove => exact absurd rfl he

theorem FollowsLast.showsLast (h : FollowsLast cfg s last) : ShowsLast cfg s last where
  oneTimer := by
    have hone := EventLoop.length_filter_le_one (l := s.loop) (p := fun _ => true)
      fun t ht _ => (h.handle t ht).1
    rw [List.filter_true] at hone
    exact hone
  unset := fun hnone => (h.unset hnone).1
  fresh := by
    intro time value hlast hfresh
    refine (h.follows time value hlast).eq_value ?_
    intro c hc
    obtain ⟨after, hafter, rfl⟩ := Option.map_eq_some_iff.mp (Option.mem_toList.mp hc)
    exact hfresh after hafter
  expired := by
    intro time value after hlast hafter hdue hsettled
    have hgives := (h.follows time value hlast).gives hsettled
    generalize s.nativeValue = shown at hgives
    cases hgives with
    | unchanged hlater =>
      have hin : (time + (after : Rat), none) ∈ (cfg.plan time value).changes := by
        simp [SensorConfig.plan, hafter]
      exact absurd (hlater _ hin) (not_lt.mpr hdue)
    | changed c hc =>
      obtain ⟨after', -, rfl⟩ := Option.map_eq_some_iff.mp (Option.mem_toList.mp hc)
      rfl

end

/-! ## The theorem -/

/-- Until it is removed, a sensor shows the last value that it got, as long as that is fresh; with
its removal no timer is left. -/
theorem sensor_shows {ω : Type} (cfg : SensorConfig ω) (time : Rat) (events : List (SensorEvent ω))
    (hlive : ∀ e ∈ events, e ≠ .remove) :
    let r := cfg.machine.exec (.new time, none) events
    ShowsLast cfg r.1 r.2 ∧ r.1.willRemove.loop.scheduled = [] := by
  intro r
  have hkept : FollowsLast cfg r.1 r.2 := by
    refine cfg.machine.exec_invariant_along
      (I := fun s : MpubsubSensor × Option (Rat × Payload) => FollowsLast cfg s.1 s.2)
      (fun s e h he => h.step he) ?_ (cfg.machine.along_of_forall (.new time, none) hlive)
    exact ⟨List.forall_mem_nil _, fun _ => ⟨rfl, rfl⟩, fun _ _ hlast => by cases hlast⟩
  refine ⟨hkept.showsLast, List.eq_nil_iff_forall_not_mem.mpr ?_⟩
  intro t ht
  obtain ⟨ht, hother⟩ := EventLoop.mem_cancel?.mp ht
  exact hother (hkept.handle t ht).1

/-- A thermometer that expires. -/
def thermometer : SensorConfig Unit := { expireAfter := some 10 }

/-- `sensor_shows` with a value that expires. -/
theorem sensor_shows_thermometer :
    let r := thermometer.machine.exec (.new 0, none)
      [.message () (.str "21.5"), .advance 10, .fire 0]
    ShowsLast thermometer r.1 r.2 ∧ r.1.willRemove.loop.scheduled = [] := by
  refine sensor_shows thermometer 0 [.message () (.str "21.5"), .advance 10, .fire 0] ?_
  simp only [List.forall_mem_cons]
  exact ⟨fun h => (by cases h), fun h => (by cases h), fun h => (by cases h), List.forall_mem_nil _⟩

/-! ## Binary sensors -/

/-- What is planned when a payload has been recognised: the sensor expires, and is turned off if it
is on. -/
def binaryPlan {ω : Type} (cfg : BinarySensorConfig ω) (time : Rat) (isOn : Bool) :
    Plan Rat (Option Bool) where
  value := some isOn
  changes :=
    (cfg.expireAfter.map fun (after : Nat) => (time + (after : Rat), none)).toList ++
      if isOn then
        (cfg.offDelay.map fun (delay : Nat) => (time + (delay : Rat), some false)).toList
      else []

/-- What a timer does to the state. -/
def effect : TimerFunction → Option Bool
  | .expired => none
  | .off => some false

/-- The state of the last recognised payload, with its time. -/
def recordState {ω : Type} (cfg : BinarySensorConfig ω) (s : MpubsubBinarySensor)
    (last : Option (Rat × Bool)) : SensorEvent ω → Option (Rat × Bool)
  | .message world payload =>
    match cfg.recognise world payload with
    | none => last
    | some isOn => some (s.loop.time, isOn)
  | _ => last

/-- A binary sensor beside the last state that it got. -/
def binaryMachine {ω : Type} (cfg : BinarySensorConfig ω) :
    Machine (MpubsubBinarySensor × Option (Rat × Bool)) (SensorEvent ω) Unit :=
  ⟨fun s e => ((s.1.step cfg e, recordState cfg s.1 s.2 e), ())⟩

/-- What a binary sensor shows, `last` being the last state that came and when. -/
structure ShowsState {ω : Type} (cfg : BinarySensorConfig ω) (s : MpubsubBinarySensor)
    (last : Option (Rat × Bool)) : Prop where
  unset : last = none → s.isOn = none
  fresh : ∀ time isOn, last = some (time, isOn) →
    (∀ c ∈ (binaryPlan cfg time isOn).changes, s.loop.time < c.1) → s.isOn = some isOn
  settled : ∀ time isOn, last = some (time, isOn) → s.loop.Settled →
    (binaryPlan cfg time isOn).Gives s.loop.time s.isOn
  determined : ∀ time isOn, last = some (time, isOn) → s.loop.Settled →
    (∀ delay after, cfg.offDelay = some delay → cfg.expireAfter = some after → delay ≠ after) →
    ∀ v, (binaryPlan cfg time isOn).Gives s.loop.time v → v = s.isOn

section

variable {ω : Type} {cfg : BinarySensorConfig ω} {s : MpubsubBinarySensor}
  {last : Option (Rat × Bool)}

theorem mem_binaryPlan {time : Rat} {isOn : Bool} {c : Rat × Option Bool} :
    c ∈ (binaryPlan cfg time isOn).changes ↔
      (∃ after, cfg.expireAfter = some after ∧ c = (time + (after : Rat), none)) ∨
        isOn = true ∧ ∃ delay, cfg.offDelay = some delay ∧ c = (time + (delay : Rat), some false) := by
  unfold binaryPlan
  simp only [List.mem_append, Option.mem_toList, Option.map_eq_some_iff, eq_comm (a := c)]
  cases isOn with
  | false => simp
  | true => simp

/-- The new expiry timer is pending. -/
theorem resetExpiry_arms {after : Nat} (hafter : cfg.expireAfter = some after) :
    ⟨s.loop.next, s.loop.time + after, .expired⟩ ∈ (s.resetExpiry cfg).loop.scheduled := by
  unfold MpubsubBinarySensor.resetExpiry
  simp only [hafter]
  have hcancel : (s.cancel s.expireCancel).next = s.loop.next ∧
      (s.cancel s.expireCancel).time = s.loop.time := by
    cases s.expireCancel <;> exact ⟨rfl, rfl⟩
  refine List.mem_append_right _ ?_
  rw [hcancel.1, hcancel.2]
  exact List.mem_singleton_self _

theorem resetExpiry_next_le : s.loop.next ≤ (s.resetExpiry cfg).loop.next := by
  unfold MpubsubBinarySensor.resetExpiry
  cases cfg.expireAfter with
  | none => exact le_refl _
  | some after =>
    refine Nat.le_succ_of_le (le_of_eq ?_)
    cases s.expireCancel <;> rfl

/-- The new off-delay timer is pending, if the sensor is on. -/
theorem armOffDelay_arms {delay : Nat} (hdelay : cfg.offDelay = some delay)
    (hon : s.isOn = some true) :
    ∃ t ∈ (s.armOffDelay cfg).loop.scheduled, t.callback = .off ∧ t.when = s.loop.time + delay := by
  unfold MpubsubBinarySensor.armOffDelay
  simp only [hdelay, hon, ne_eq, not_true_eq_false, if_false]
  refine ⟨_, List.mem_append_right _ (List.mem_singleton_self _), rfl, ?_⟩
  exact congrArg (· + (delay : Rat)) (time_cancel s.offDelayCancel)

/-- It takes the place of the old one only. -/
theorem mem_armOffDelay {t : TimerHandle Rat TimerFunction} (ht : t ∈ s.loop.scheduled)
    (hother : s.offDelayCancel ≠ some t.id) : t ∈ (s.armOffDelay cfg).loop.scheduled := by
  unfold MpubsubBinarySensor.armOffDelay
  cases cfg.offDelay with
  | none => exact ht
  | some delay =>
    have hkept : t ∈ (s.cancel s.offDelayCancel).scheduled := mem_cancel.mpr ⟨ht, hother⟩
    simp only
    split
    · exact hkept
    · exact List.mem_append_left _ hkept

/-- The handle of the off-delay timer is one that the loop has given. -/
theorem armOffDelay_handle (hhandle : ∀ id, s.offDelayCancel = some id → id < s.loop.next)
    {id : Nat} (hid : (s.armOffDelay cfg).offDelayCancel = some id) :
    id < (s.armOffDelay cfg).loop.next := by
  revert hid
  unfold MpubsubBinarySensor.armOffDelay
  cases cfg.offDelay with
  | none => exact hhandle id
  | some delay =>
    simp only
    split
    · intro hid
      cases hid
    · intro hid
      cases hid
      exact Nat.lt_succ_self _

/-- The handles stand for the pending timers, and the state follows the plan. -/
structure FollowsState (cfg : BinarySensorConfig ω) (s : MpubsubBinarySensor)
    (last : Option (Rat × Bool)) : Prop where
  timers : TimersKept cfg s { last := s.isOn }
  handle : ∀ id, s.offDelayCancel = some id → id < s.loop.next
  unset : last = none → s.isOn = none ∧ s.loop.scheduled = []
  follows : ∀ time isOn, last = some (time, isOn) →
    (binaryPlan cfg time isOn).Follows effect s.loop s.isOn

theorem message_handle (hhandle : ∀ id, s.offDelayCancel = some id → id < s.loop.next)
    (hexpiry : ∀ t ∈ s.loop.scheduled, t.callback = .expired →
      s.expireCancel = some t.id ∧ cfg.expireAfter ≠ none) (world : ω) (payload : Payload) :
    ∀ id, (s.message cfg world payload).offDelayCancel = some id →
      id < (s.message cfg world payload).loop.next := by
  unfold MpubsubBinarySensor.message
  cases cfg.recognise world payload with
  | none => exact hhandle
  | some isOn =>
    intro id
    refine armOffDelay_handle ?_
    obtain ⟨-, hsame, -⟩ := resetExpiry_spec (s := { s with isOn := some isOn }) hexpiry
    intro id hid
    rw [hsame] at hid
    exact Nat.lt_of_lt_of_le (hhandle id hid)
      (resetExpiry_next_le (s := { s with isOn := some isOn }))

/-- A recognised payload: the changes that it plans are pending. -/
theorem message_pending (h : FollowsState cfg s last) {world : ω} {payload : Payload} {isOn : Bool}
    (hrecognise : cfg.recognise world payload = some isOn) :
    ∀ c ∈ (binaryPlan cfg s.loop.time isOn).changes,
      Plan.Pending effect (s.message cfg world payload).loop c := by
  obtain ⟨hisOn, hsame, htime, -⟩ :=
    resetExpiry_spec (s := { s with isOn := some isOn }) h.timers.expiry
  unfold MpubsubBinarySensor.message
  simp only [hrecognise]
  intro c hc
  rcases mem_binaryPlan.mp hc with ⟨after, hafter, rfl⟩ | ⟨rfl, delay, hdelay, rfl⟩
  · have harmed := resetExpiry_arms (s := { s with isOn := some isOn }) hafter
    refine ⟨_, mem_armOffDelay harmed ?_, rfl⟩
    rw [hsame]
    exact fun hid => absurd (h.handle _ hid) (Nat.lt_irrefl _)
  · obtain ⟨t, ht, hcallback, hwhen⟩ := armOffDelay_arms hdelay hisOn
    refine ⟨t, ht, ?_⟩
    rw [hcallback, hwhen, htime]
    rfl

/-- A recognised payload: the timers that are pending are planned. -/
theorem message_planned (h : FollowsState cfg s last) {world : ω} {payload : Payload} {isOn : Bool}
    (hrecognise : cfg.recognise world payload = some isOn) :
    ∀ t ∈ (s.message cfg world payload).loop.scheduled,
      (t.when, effect t.callback) ∈ (binaryPlan cfg s.loop.time isOn).changes := by
  obtain ⟨-, harmed⟩ := message_spec h.timers hrecognise
  intro t ht
  rcases harmed t ht with ⟨hcallback, -, after, hafter, hwhen⟩ |
    ⟨hcallback, hon, -, delay, hdelay, hwhen⟩
  · refine mem_binaryPlan.mpr (.inl ⟨after, hafter, ?_⟩)
    rw [hcallback, hwhen]
    rfl
  · refine mem_binaryPlan.mpr (.inr ⟨hon, delay, hdelay, ?_⟩)
    rw [hcallback, hwhen]
    rfl

theorem FollowsState.message (h : FollowsState cfg s last) (world : ω) (payload : Payload) :
    FollowsState cfg (s.message cfg world payload)
      (recordState cfg s last (.message world payload)) := by
  have htimers := record_timersKept h.timers (.message world payload)
  have hhandle := message_handle h.handle h.timers.expiry world payload
  refine ⟨⟨htimers.expiry, htimers.off, id⟩, hhandle, ?_, ?_⟩
  · simp only [recordState]
    cases hrecognise : cfg.recognise world payload with
    | none =>
      unfold MpubsubBinarySensor.message
      simp only [hrecognise]
      exact h.unset
    | some isOn =>
      intro hnone
      cases hnone
  · simp only [recordState]
    cases hrecognise : cfg.recognise world payload with
    | none =>
      unfold MpubsubBinarySensor.message
      simp only [hrecognise]
      exact h.follows
    | some isOn =>
      rintro time isOn' ⟨⟩
      rw [(message_spec h.timers hrecognise).1]
      exact ⟨message_planned h hrecognise, .inl ⟨rfl, message_pending h hrecognise⟩⟩

/-- A timer runs, and makes its change. -/
theorem fire_run {handle : Nat} {t : TimerHandle Rat TimerFunction}
    (hrun : s.loop.runnable? handle = some t) :
    (s.fire handle).loop = s.loop.cancel handle ∧ (s.fire handle).isOn = effect t.callback ∧
      ∀ id, (s.fire handle).offDelayCancel = some id → s.offDelayCancel = some id := by
  unfold MpubsubBinarySensor.fire
  simp only [hrun]
  cases t.callback with
  | expired => exact ⟨rfl, rfl, fun id hid => hid⟩
  | off => exact ⟨rfl, rfl, fun id hid => by cases hid⟩

theorem FollowsState.fire (h : FollowsState cfg s last) (handle : Nat) :
    FollowsState cfg (s.fire handle) last := by
  cases hrun : s.loop.runnable? handle with
  | none =>
    have hsame : s.fire handle = s := by
      unfold MpubsubBinarySensor.fire
      simp only [hrun]
    rw [hsame]
    exact h
  | some t =>
    obtain ⟨ht, -⟩ := EventLoop.runnable?_eq_some_iff.mp hrun
    obtain ⟨hloop, hisOn, hhandle⟩ := fire_run hrun
    have htimers := record_timersKept h.timers (.fire handle)
    refine ⟨⟨htimers.expiry, htimers.off, id⟩, ?_, ?_, ?_⟩
    · intro id hid
      rw [hloop]
      exact h.handle id (hhandle id hid)
    · intro hnone
      rw [(h.unset hnone).2] at ht
      cases ht
    · intro time isOn hlast
      rw [hloop, hisOn]
      exact (h.follows time isOn hlast).run hrun

theorem FollowsState.step (h : FollowsState cfg s last) {e : SensorEvent ω} (he : e ≠ .remove) :
    FollowsState cfg (s.step cfg e) (recordState cfg s last e) := by
  cases e with
  | message world payload => exact h.message world payload
  | advance time =>
    exact ⟨⟨h.timers.expiry, h.timers.off, id⟩, h.handle, h.unset,
      fun time' isOn hlast => (h.follows time' isOn hlast).advance time⟩
  | fire handle => exact h.fire handle
  | remove => exact absurd rfl he

/-- With different delays, the changes of a plan have different times. -/
theorem binaryPlan_times {time : Rat} {isOn : Bool}
    (hdelays : ∀ delay after, cfg.offDelay = some delay → cfg.expireAfter = some after →
      delay ≠ after) :
    ∀ c ∈ (binaryPlan cfg time isOn).changes, ∀ c' ∈ (binaryPlan cfg time isOn).changes,
      c.1 = c'.1 → c.2 = c'.2 := by
  have hapart {delay after : Nat} (hdelay : cfg.offDelay = some delay)
      (hafter : cfg.expireAfter = some after) : (time + delay : Rat) ≠ time + after := by
    intro heq
    exact hdelays delay after hdelay hafter (by exact_mod_cast add_left_cancel heq)
  intro c hc c' hc' heq
  rcases mem_binaryPlan.mp hc with ⟨after, hafter, rfl⟩ | ⟨-, delay, hdelay, rfl⟩
  · rcases mem_binaryPlan.mp hc' with ⟨after', -, rfl⟩ | ⟨-, delay, hdelay, rfl⟩
    · rfl
    · exact absurd heq.symm (hapart hdelay hafter)
  · rcases mem_binaryPlan.mp hc' with ⟨after, hafter, rfl⟩ | ⟨-, delay', -, rfl⟩
    · exact absurd heq (hapart hdelay hafter)
    · rfl

theorem FollowsState.showsState (h : FollowsState cfg s last) : ShowsState cfg s last where
  unset := fun hnone => (h.unset hnone).1
  fresh := fun time isOn hlast hfresh => (h.follows time isOn hlast).eq_value hfresh
  settled := fun time isOn hlast hsettled => (h.follows time isOn hlast).gives hsettled
  determined := by
    intro time isOn hlast hsettled hdelays v hgives
    exact hgives.unique (binaryPlan_times hdelays) ((h.follows time isOn hlast).gives hsettled)

end

/-- Until it is removed, a binary sensor shows what its last recognised payload has planned; with
its removal no timer is left. -/
theorem binary_sensor_shows {ω : Type} (cfg : BinarySensorConfig ω) (time : Rat)
    (events : List (SensorEvent ω)) (hlive : ∀ e ∈ events, e ≠ .remove) :
    let r := (binaryMachine cfg).exec (.new time, none) events
    ShowsState cfg r.1 r.2 ∧ r.1.willRemove.loop.scheduled = [] := by
  intro r
  have hkept : FollowsState cfg r.1 r.2 := by
    refine (binaryMachine cfg).exec_invariant_along
      (I := fun s : MpubsubBinarySensor × Option (Rat × Bool) => FollowsState cfg s.1 s.2)
      (fun s e h he => h.step he) ?_ ((binaryMachine cfg).along_of_forall (.new time, none) hlive)
    refine ⟨⟨List.forall_mem_nil _, List.forall_mem_nil _, id⟩, ?_, fun _ => ⟨rfl, rfl⟩, ?_⟩
    · exact fun id hid => by cases hid
    · exact fun time isOn hlast => by cases hlast
  refine ⟨hkept.showsState, List.eq_nil_iff_forall_not_mem.mpr ?_⟩
  intro t ht
  obtain ⟨ht, hoff⟩ := mem_cancel.mp ht
  obtain ⟨ht, hexpired⟩ := mem_cancel.mp ht
  cases hkind : t.callback with
  | expired => exact hexpired (hkept.timers.expiry t ht hkind).1
  | off => exact hoff (hkept.timers.off t ht hkind).1

/-- `binary_sensor_shows` with a doorbell that is turned off before it expires. -/
theorem binary_sensor_shows_doorbell :
    let cfg : BinarySensorConfig Unit := { offDelay := some 5, expireAfter := some 60 }
    let r := (binaryMachine cfg).exec (.new 0, none)
      [.message () (.str "ON"), .advance 5, .fire 1]
    ShowsState cfg r.1 r.2 ∧ r.1.willRemove.loop.scheduled = [] := by
  intro cfg
  refine binary_sensor_shows cfg 0 [.message () (.str "ON"), .advance 5, .fire 1] ?_
  simp only [List.forall_mem_cons]
  exact ⟨fun h => (by cases h), fun h => (by cases h), fun h => (by cases h), List.forall_mem_nil _⟩

end Mpubsub.Theorems
