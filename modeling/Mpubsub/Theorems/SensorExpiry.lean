import Mathlib.Tactic.Linarith
import Mpubsub.HomeAssistant.BinarySensor

/-!
# Expiry of binary sensors (`binary_sensor.py`)

A sensor that has expired should stay unknown until the next recognised payload. An expiry
leaves the off-delay timer pending, which then turns the sensor off: this happens when an ON
payload is followed by nothing and the off delay is not the shorter one (`expiry_final_iff`).
That there is one timer of each kind at most, and that a sensor is on only after an ON payload,
holds with every configuration (`exec_inv`).
-/

namespace Mpubsub.Theorems

open Mpubsub.Lib Mpubsub.HomeAssistant MpubsubBinarySensor

/-! ## The property -/

/-- The pending timers with a function. -/
def pending (s : MpubsubBinarySensor) (f : TimerFunction) :
    List (TimerHandle Rat TimerFunction) :=
  s.loop.scheduled.filter fun t => t.callback = f

/-- What should hold of a sensor with its history. -/
structure Final (s : MpubsubBinarySensor) (h : History) : Prop where
  oneExpiry : (pending s .expired).length ≤ 1
  oneOff : (pending s .off).length ≤ 1
  unknown : h.expired = true → s.isOn = none
  on : s.isOn = some true → h.last = some true

/-- A payload for ON can arrive only if the off delay is over before the sensor expires. -/
def OffFirst {ω : Type} (cfg : BinarySensorConfig ω) : Prop :=
  ∀ after ∈ cfg.expireAfter, ∀ delay ∈ cfg.offDelay,
    (∃ world payload, cfg.recognise world payload = some true) → delay < after

/-! ## Steps -/

section

variable {ω : Type} {cfg : BinarySensorConfig ω} {s : MpubsubBinarySensor} {h : History}

theorem mem_cancel {handle : Option Nat} {t : TimerHandle Rat TimerFunction} :
    t ∈ (s.cancel handle).scheduled ↔ t ∈ s.loop.scheduled ∧ handle ≠ some t.id := by
  cases handle with
  | none => exact ⟨fun ht => ⟨ht, fun h => by cases h⟩, fun ht => ht.1⟩
  | some handle =>
    rw [MpubsubBinarySensor.cancel, EventLoop.mem_cancel, ne_eq, ne_eq, Option.some.injEq, eq_comm]

theorem time_cancel (handle : Option Nat) : (s.cancel handle).time = s.loop.time := by
  cases handle <;> rfl

/-- What holds with every configuration: the handles stand for the pending timers. -/
structure TimersKept (cfg : BinarySensorConfig ω) (s : MpubsubBinarySensor) (h : History) : Prop where
  expiry : ∀ t ∈ s.loop.scheduled, t.callback = .expired →
    s.expireCancel = some t.id ∧ cfg.expireAfter ≠ none
  off : ∀ t ∈ s.loop.scheduled, t.callback = .off →
    s.offDelayCancel = some t.id ∧ cfg.offDelay ≠ none
  on : s.isOn = some true → h.last = some true

/-- A new expiry timer takes the place of the old one. -/
theorem resetExpiry_spec
    (hexpiry : ∀ t ∈ s.loop.scheduled, t.callback = .expired →
      s.expireCancel = some t.id ∧ cfg.expireAfter ≠ none) :
    (s.resetExpiry cfg).isOn = s.isOn ∧
      (s.resetExpiry cfg).offDelayCancel = s.offDelayCancel ∧
      (s.resetExpiry cfg).loop.time = s.loop.time ∧
      ∀ t ∈ (s.resetExpiry cfg).loop.scheduled, t ∈ s.loop.scheduled ∧ t.callback = .off ∨
        t.callback = .expired ∧ (s.resetExpiry cfg).expireCancel = some t.id ∧
          ∃ after, cfg.expireAfter = some after ∧ t.when = s.loop.time + after := by
  unfold resetExpiry
  cases hafter : cfg.expireAfter with
  | none =>
    refine ⟨rfl, rfl, rfl, fun t ht => .inl ⟨ht, TimerFunction.eq_off_of_ne fun hcallback => ?_⟩⟩
    exact (hexpiry t ht hcallback).2 hafter
  | some after =>
    refine ⟨rfl, rfl, time_cancel _, ?_⟩
    intro t ht
    rcases List.mem_append.mp ht with ht | ht
    · obtain ⟨ht, hother⟩ := mem_cancel.mp ht
      exact .inl ⟨ht, TimerFunction.eq_off_of_ne fun hcallback => hother (hexpiry t ht hcallback).1⟩
    · rw [List.mem_singleton.mp ht]
      exact .inr ⟨rfl, rfl, after, rfl, congrArg (· + (after : Rat)) (time_cancel _)⟩

/-- A new off-delay timer takes the place of the old one, if the sensor is on. -/
theorem armOffDelay_spec
    (hoff : ∀ t ∈ s.loop.scheduled, t.callback = .off →
      s.offDelayCancel = some t.id ∧ cfg.offDelay ≠ none) :
    (s.armOffDelay cfg).isOn = s.isOn ∧ (s.armOffDelay cfg).expireCancel = s.expireCancel ∧
      ∀ t ∈ (s.armOffDelay cfg).loop.scheduled, t ∈ s.loop.scheduled ∧ t.callback = .expired ∨
        t.callback = .off ∧ s.isOn = some true ∧ (s.armOffDelay cfg).offDelayCancel = some t.id ∧
          ∃ delay, cfg.offDelay = some delay ∧ t.when = s.loop.time + delay := by
  unfold armOffDelay
  cases hdelay : cfg.offDelay with
  | none =>
    refine ⟨rfl, rfl, fun t ht => .inl ⟨ht, TimerFunction.eq_expired_of_ne fun hcallback => ?_⟩⟩
    exact (hoff t ht hcallback).2 hdelay
  | some delay =>
    have hold (t : TimerHandle Rat TimerFunction)
        (ht : t ∈ (s.cancel s.offDelayCancel).scheduled) :
        t ∈ s.loop.scheduled ∧ t.callback = .expired := by
      obtain ⟨ht, hother⟩ := mem_cancel.mp ht
      exact ⟨ht, TimerFunction.eq_expired_of_ne fun hcallback => hother (hoff t ht hcallback).1⟩
    simp only
    split
    · exact ⟨rfl, rfl, fun t ht => .inl (hold t ht)⟩
    · rename_i hon
      refine ⟨rfl, rfl, ?_⟩
      intro t ht
      rcases List.mem_append.mp ht with ht | ht
      · exact .inl (hold t ht)
      · rw [List.mem_singleton.mp ht]
        exact .inr ⟨rfl, not_not.mp hon, rfl, delay, rfl,
          congrArg (· + (delay : Rat)) (time_cancel _)⟩

/-- A recognised payload: the timers that are pending then are those that it armed. -/
theorem message_spec (hinv : TimersKept cfg s h) {world : ω} {payload : Payload} {isOn : Bool}
    (hrecognise : cfg.recognise world payload = some isOn) :
    (s.message cfg world payload).isOn = some isOn ∧
      ∀ t ∈ (s.message cfg world payload).loop.scheduled,
        (t.callback = .expired ∧ (s.message cfg world payload).expireCancel = some t.id ∧
          ∃ after, cfg.expireAfter = some after ∧ t.when = s.loop.time + after) ∨
        t.callback = .off ∧ isOn = true ∧
          (s.message cfg world payload).offDelayCancel = some t.id ∧
          ∃ delay, cfg.offDelay = some delay ∧ t.when = s.loop.time + delay := by
  unfold message
  simp only [hrecognise]
  obtain ⟨hisOn, hhandle, htime, hreset⟩ :=
    resetExpiry_spec (s := { s with isOn := some isOn }) hinv.expiry
  generalize ({ s with isOn := some isOn } : MpubsubBinarySensor).resetExpiry cfg = s' at *
  have hoff : ∀ t ∈ s'.loop.scheduled, t.callback = .off →
      s'.offDelayCancel = some t.id ∧ cfg.offDelay ≠ none := by
    intro t ht hcallback
    rcases hreset t ht with ⟨hin, -⟩ | ⟨hexpired, -⟩
    · rw [hhandle]
      exact hinv.off t hin hcallback
    · cases hcallback.symm.trans hexpired
  obtain ⟨hisOn', hcancel, harm⟩ := armOffDelay_spec hoff
  refine ⟨hisOn'.trans hisOn, ?_⟩
  intro t ht
  rcases harm t ht with ⟨hin, hcallback⟩ | ⟨hcallback, hon, hid, delay, hdelay, hwhen⟩
  · rcases hreset t hin with ⟨-, hother⟩ | ⟨-, hid, after, hafter, hwhen⟩
    · cases hcallback.symm.trans hother
    · exact .inl ⟨hcallback, hcancel.trans hid, after, hafter, hwhen⟩
  · exact .inr ⟨hcallback, Option.some.inj (hisOn.symm.trans hon), hid, delay, hdelay,
      htime ▸ hwhen⟩

/-- A timer fires: it was pending, and none was due before it. -/
theorem fire_cases (s : MpubsubBinarySensor) (handle : Nat) :
    (s.loop.runnable? handle = none ∧ s.fire handle = s) ∨
      ∃ t, s.loop.runnable? handle = some t ∧ t ∈ s.loop.scheduled ∧
        (∀ t' ∈ s.loop.scheduled, t.when ≤ t'.when) ∧
        (∀ t' ∈ (s.fire handle).loop.scheduled, t' ∈ s.loop.scheduled ∧ t'.id ≠ t.id) ∧
        (t.callback = .expired ∧ (s.fire handle).isOn = none ∧
            (s.fire handle).offDelayCancel = s.offDelayCancel ∧
            (s.fire handle).expireCancel = none ∨
          t.callback = .off ∧ (s.fire handle).isOn = some false ∧
            (s.fire handle).expireCancel = s.expireCancel ∧
            (s.fire handle).offDelayCancel = none) := by
  unfold fire
  cases hrun : s.loop.runnable? handle with
  | none => exact .inl ⟨rfl, rfl⟩
  | some t =>
    obtain ⟨ht, rfl, -, hfirst⟩ := EventLoop.runnable?_eq_some_iff.mp hrun
    refine .inr ⟨t, rfl, ht, hfirst, ?_⟩
    obtain ⟨id, when, callback⟩ := t
    cases callback with
    | expired => exact ⟨fun t' => EventLoop.mem_cancel.mp, .inl ⟨rfl, rfl, rfl, rfl⟩⟩
    | off => exact ⟨fun t' => EventLoop.mem_cancel.mp, .inr ⟨rfl, rfl, rfl, rfl⟩⟩

/-- The timers of the same kind have the same handle. -/
theorem TimersKept.same (hkept : TimersKept cfg s h) {t t' : TimerHandle Rat TimerFunction}
    (ht : t ∈ s.loop.scheduled) (ht' : t' ∈ s.loop.scheduled)
    (hcallback : t'.callback = t.callback) : t'.id = t.id := by
  cases hkind : t.callback with
  | expired =>
    have hid := (hkept.expiry t ht hkind).1
    exact Option.some.inj ((hkept.expiry t' ht' (hcallback.trans hkind)).1.symm.trans hid)
  | off =>
    have hid := (hkept.off t ht hkind).1
    exact Option.some.inj ((hkept.off t' ht' (hcallback.trans hkind)).1.symm.trans hid)

theorem record_timersKept (hkept : TimersKept cfg s h) (e : SensorEvent ω) :
    TimersKept cfg (s.step cfg e) (h.record cfg s e) := by
  cases e with
  | message world payload =>
    simp only [MpubsubBinarySensor.step, History.record]
    cases hrecognise : cfg.recognise world payload with
    | none =>
      unfold message
      simp only [hrecognise]
      exact hkept
    | some isOn =>
      obtain ⟨hisOn, harmed⟩ := message_spec hkept hrecognise
      constructor
      · intro t ht hcallback
        rcases harmed t ht with ⟨-, hid, after, hafter, -⟩ | ⟨hoff, -⟩
        · exact ⟨hid, by rw [hafter]; exact Option.some_ne_none after⟩
        · cases hcallback.symm.trans hoff
      · intro t ht hcallback
        rcases harmed t ht with ⟨hexpired, -⟩ | ⟨-, -, hid, delay, hdelay, -⟩
        · cases hcallback.symm.trans hexpired
        · exact ⟨hid, by rw [hdelay]; exact Option.some_ne_none delay⟩
      · intro hon
        exact hisOn.symm.trans hon
  | advance time => exact ⟨hkept.expiry, hkept.off, hkept.on⟩
  | fire handle =>
    simp only [MpubsubBinarySensor.step, History.record]
    rcases fire_cases s handle with ⟨hnone, heq⟩ | ⟨t, hrun, ht, -, hrest, hfired⟩
    · rw [hnone, heq]
      exact hkept
    rw [hrun]
    -- The timer that ran was the only one of its kind.
    have hgone (t' : TimerHandle Rat TimerFunction) (ht' : t' ∈ (s.fire handle).loop.scheduled) :
        t'.callback ≠ t.callback :=
      fun hsame => (hrest t' ht').2 (hkept.same ht (hrest t' ht').1 hsame)
    rcases hfired with ⟨hcallback, hisOn, hoff, -⟩ | ⟨hcallback, hisOn, hexpire, -⟩
    · obtain ⟨id, when, callback⟩ := t
      cases hcallback
      constructor
      · exact fun t' ht' hexpired => absurd hexpired (hgone t' ht')
      · intro t' ht' hkind
        rw [hoff]
        exact hkept.off t' (hrest t' ht').1 hkind
      · rw [hisOn]
        exact fun hon => by cases hon
    · obtain ⟨id, when, callback⟩ := t
      cases hcallback
      constructor
      · intro t' ht' hkind
        rw [hexpire]
        exact hkept.expiry t' (hrest t' ht').1 hkind
      · exact fun t' ht' hoff => absurd hoff (hgone t' ht')
      · rw [hisOn]
        exact fun hon => by cases hon
  | remove =>
    have hnone (t : TimerHandle Rat TimerFunction) (ht : t ∈ s.willRemove.loop.scheduled) : False := by
      obtain ⟨ht, hoff⟩ := mem_cancel.mp ht
      obtain ⟨ht, hexpired⟩ := mem_cancel.mp ht
      cases hkind : t.callback with
      | expired => exact hexpired (hkept.expiry t ht hkind).1
      | off => exact hoff (hkept.off t ht hkind).1
    exact ⟨fun t ht => (hnone t ht).elim, fun t ht => (hnone t ht).elim, hkept.on⟩

/-- What holds besides when the off delay is over first: no off-delay timer outlives an expiry. -/
structure OffTimersFirst (s : MpubsubBinarySensor) (h : History) : Prop where
  before : ∀ t ∈ s.loop.scheduled, ∀ t' ∈ s.loop.scheduled, t.callback = .expired →
    t'.callback = .off → t'.when < t.when
  none_left : h.expired = true → ∀ t ∈ s.loop.scheduled, t.callback ≠ .off
  unknown : h.expired = true → s.isOn = none

theorem record_offTimersFirst (hoffFirst : OffFirst cfg) (hkept : TimersKept cfg s h)
    (hfirst : OffTimersFirst s h) (e : SensorEvent ω) :
    OffTimersFirst (s.step cfg e) (h.record cfg s e) := by
  cases e with
  | message world payload =>
    simp only [MpubsubBinarySensor.step, History.record]
    cases hrecognise : cfg.recognise world payload with
    | none =>
      unfold message
      simp only [hrecognise]
      exact hfirst
    | some isOn =>
      obtain ⟨-, harmed⟩ := message_spec hkept hrecognise
      have hno (hexpired : false = true) {P : Prop} : P := absurd hexpired Bool.false_ne_true
      refine ⟨?_, fun hexpired => hno hexpired, fun hexpired => hno hexpired⟩
      intro t ht t' ht' hexpired hoff
      rcases harmed t ht with ⟨-, -, after, hafter, hwhen⟩ | ⟨hother, -⟩
      · rcases harmed t' ht' with ⟨hother, -⟩ | ⟨-, rfl, -, delay, hdelay, hwhen'⟩
        · cases hoff.symm.trans hother
        · have hlt : delay < after :=
            hoffFirst after hafter delay hdelay ⟨world, payload, hrecognise⟩
          rw [hwhen, hwhen']
          have hcast : (delay : Rat) < after := by exact_mod_cast hlt
          linarith
      · cases hexpired.symm.trans hother
  | advance time => exact ⟨hfirst.before, hfirst.none_left, hfirst.unknown⟩
  | fire handle =>
    simp only [MpubsubBinarySensor.step, History.record]
    rcases fire_cases s handle with ⟨hnone, heq⟩ | ⟨t, hrun, ht, hleast, hrest, hfired⟩
    · rw [hnone, heq]
      exact hfirst
    rw [hrun]
    have hbefore : ∀ t₁ ∈ (s.fire handle).loop.scheduled, ∀ t₂ ∈ (s.fire handle).loop.scheduled,
        t₁.callback = .expired → t₂.callback = .off → t₂.when < t₁.when :=
      fun t₁ ht₁ t₂ ht₂ => hfirst.before t₁ (hrest t₁ ht₁).1 t₂ (hrest t₂ ht₂).1
    obtain ⟨id, when, callback⟩ := t
    rcases hfired with ⟨hcallback, hisOn, -⟩ | ⟨hcallback, -⟩
    · -- An off-delay timer would have been due before the expiry.
      cases hcallback
      refine ⟨hbefore, fun _ t' ht' hoff => ?_, fun _ => hisOn⟩
      have hlt := hfirst.before _ ht t' (hrest t' ht').1 rfl hoff
      exact absurd (hleast t' (hrest t' ht').1) (not_le.mpr hlt)
    · cases hcallback
      have hnot : h.expired ≠ true := fun hexpired => hfirst.none_left hexpired _ ht rfl
      exact ⟨hbefore, fun hexpired => absurd hexpired hnot, fun hexpired => absurd hexpired hnot⟩
  | remove =>
    have hsub (t : TimerHandle Rat TimerFunction) (ht : t ∈ s.willRemove.loop.scheduled) :
        t ∈ s.loop.scheduled := (mem_cancel.mp (mem_cancel.mp ht).1).1
    exact ⟨fun t ht t' ht' => hfirst.before t (hsub t ht) t' (hsub t' ht'),
      fun hexpired t ht => hfirst.none_left hexpired t (hsub t ht), hfirst.unknown⟩

/-! ## Runs -/

/-- With every configuration, over every run. -/
theorem exec_timersKept (time : Rat) (events : List (SensorEvent ω)) :
    TimersKept cfg ((recorded cfg).exec (new time, {}) events).1
      ((recorded cfg).exec (new time, {}) events).2 := by
  refine (recorded cfg).exec_invariant
    (I := fun s : MpubsubBinarySensor × History => TimersKept cfg s.1 s.2)
    (fun _ e hkept => record_timersKept hkept e) ?_ events
  exact ⟨List.forall_mem_nil _, List.forall_mem_nil _, fun hon => by cases hon⟩

theorem exec_offTimersFirst (hoffFirst : OffFirst cfg) (time : Rat)
    (events : List (SensorEvent ω)) :
    OffTimersFirst ((recorded cfg).exec (new time, {}) events).1
      ((recorded cfg).exec (new time, {}) events).2 := by
  have hboth := (recorded cfg).exec_invariant
    (I := fun s : MpubsubBinarySensor × History => TimersKept cfg s.1 s.2 ∧ OffTimersFirst s.1 s.2)
    (fun _ e h => ⟨record_timersKept h.1 e, record_offTimersFirst hoffFirst h.1 h.2 e⟩)
    (s := (new time, {}))
    ⟨exec_timersKept time [], List.forall_mem_nil _, fun _ => List.forall_mem_nil _, fun _ => rfl⟩
    events
  exact hboth.2

/-- The timers of each kind, and when the sensor is on. -/
theorem TimersKept.final (hkept : TimersKept cfg s h)
    (hunknown : h.expired = true → s.isOn = none) : Final s h where
  oneExpiry := EventLoop.length_filter_le_one
    fun t ht hcallback => (hkept.expiry t ht (of_decide_eq_true hcallback)).1
  oneOff := EventLoop.length_filter_le_one
    fun t ht hcallback => (hkept.off t ht (of_decide_eq_true hcallback)).1
  unknown := hunknown
  on := hkept.on

/-! ## The theorem -/

/-- An ON payload, the expiry, and the end of the off delay. -/
def turnedOff (world : ω) (payload : Payload) (after delay : Nat) : List (SensorEvent ω) :=
  [.message world payload, .advance after, .fire 0, .advance delay, .fire 1]

/-- Where the expiry comes first or with the off delay, the sensor is turned off after it. -/
theorem exec_turnedOff (world : ω) (payload : Payload) {after delay : Nat}
    (hafter : cfg.expireAfter = some after) (hdelay : cfg.offDelay = some delay)
    (hon : cfg.recognise world payload = some true) (hle : after ≤ delay) :
    ((recorded cfg).exec (new 0, {}) (turnedOff world payload after delay)).1.isOn = some false ∧
      ((recorded cfg).exec (new 0, {}) (turnedOff world payload after delay)).2.expired = true := by
  let l : EventLoop Rat TimerFunction :=
    ((EventLoop.idle 0).callLater (after : Rat) .expired).callLater (delay : Rat) .off
  have hmessage : (new 0).message cfg world payload =
      { isOn := some true, expireCancel := some 0, offDelayCancel := some 1, loop := l } := by
    simp only [message, hon, resetExpiry, hafter, armOffDelay, hdelay, new,
      MpubsubBinarySensor.cancel, ne_eq, not_true_eq_false, if_false]
    rfl
  have hafter' : (0 : Rat) + after ≤ max 0 (after : Rat) := by
    rw [zero_add]
    exact le_max_right _ _
  have hdelay' : (0 : Rat) + delay ≤ max (max 0 (after : Rat)) delay := by
    rw [zero_add]
    exact le_max_right _ _
  have hle' : (0 : Rat) + after ≤ 0 + delay := by
    have hcast : (after : Rat) ≤ delay := by exact_mod_cast hle
    linarith
  have hexpire : (l.advance (after : Rat)).runnable? 0 = some ⟨0, 0 + after, .expired⟩ := by
    refine EventLoop.runnable?_eq_some_iff.mpr ⟨List.mem_cons_self, rfl, hafter', ?_⟩
    exact List.forall_mem_cons.mpr ⟨le_refl _, List.forall_mem_singleton.mpr hle'⟩
  have hoff : (((l.advance (after : Rat)).cancel 0).advance (delay : Rat)).runnable? 1 =
      some ⟨1, 0 + delay, .off⟩ := by
    refine EventLoop.runnable?_eq_some_iff.mpr ⟨List.mem_cons_self, rfl, hdelay', ?_⟩
    exact List.forall_mem_singleton.mpr (le_refl _)
  simp only [turnedOff, Machine.exec_cons, Machine.exec_nil, recorded, MpubsubBinarySensor.step,
    History.record, hmessage, hon, fire, hexpire, hoff]
  exact ⟨trivial, trivial⟩

end

/-- A doorbell that expires before it is turned off. -/
def doorbell : BinarySensorConfig Unit := { offDelay := some 30, expireAfter := some 10 }

/-- It is off, not unknown, 30 s after an ON payload. -/
theorem off_after_expiry :
    ¬Final ((recorded doorbell).exec (new 0, {}) (turnedOff () (.str "ON") 10 30)).1
      ((recorded doorbell).exec (new 0, {}) (turnedOff () (.str "ON") 10 30)).2 := by
  intro hfinal
  obtain ⟨hisOn, hexpired⟩ := exec_turnedOff () (.str "ON")
    (rfl : doorbell.expireAfter = some 10) rfl (by decide) (by decide : 10 ≤ 30)
  cases (hfinal.unknown hexpired).symm.trans hisOn

/-- Every run keeps the property if and only if no payload for ON can arrive or the off delay is
over before the sensor expires. -/
theorem expiry_final_iff {ω : Type} (cfg : BinarySensorConfig ω) :
    (∀ time events, Final ((recorded cfg).exec (new time, {}) events).1
      ((recorded cfg).exec (new time, {}) events).2) ↔ OffFirst cfg := by
  constructor
  · rintro hfinal after hafter delay hdelay ⟨world, payload, hon⟩
    by_contra hle
    obtain ⟨hisOn, hexpired⟩ :=
      exec_turnedOff world payload hafter hdelay hon (Nat.le_of_not_lt hle)
    have hunknown := (hfinal 0 (turnedOff world payload after delay)).unknown hexpired
    cases hunknown.symm.trans hisOn
  · intro hoffFirst time events
    exact (exec_timersKept time events).final (exec_offTimersFirst hoffFirst time events).unknown

end Mpubsub.Theorems
