import Mathlib.Data.Rat.Defs
import Mathlib.Algebra.Order.Ring.Unbundled.Rat
import Mpubsub.Lib.Bytes
import Mpubsub.Lib.EventLoop
import Mpubsub.Lib.Machine

/-!
# Binary sensors of the Home Assistant integration (`binary_sensor.py`)

`MpubsubBinarySensor` with the loop that its timers are on. `async_call_later` runs its function
once the delay is over, unless it is cancelled, and the loop runs due timers in the order of
their times. What a value template may read of Home Assistant is of a type `ω`.
-/

namespace Mpubsub.HomeAssistant

open Mpubsub.Lib

/-- A payload, decoded or not. -/
inductive Payload where
  | str (payload : String)
  | bytes (payload : Bytes)
deriving DecidableEq

/-- What `PLATFORM_SCHEMA` accepts, as far as the state depends on it. -/
structure BinarySensorConfig (ω : Type) where
  payloadOn : String := "ON"
  payloadOff : String := "OFF"
  offDelay : Option Nat := none
  expireAfter : Option Nat := none
  valueTemplate : Option (ω → Payload → Option Payload) := none

/-- The functions that are given to `async_call_later`. -/
inductive TimerFunction where
  | expired
  | off
deriving DecidableEq

namespace TimerFunction

variable {f : TimerFunction}

theorem eq_off_of_ne (h : f ≠ expired) : f = off := by
  cases f with
  | expired => exact absurd rfl h
  | off => rfl

theorem eq_expired_of_ne (h : f ≠ off) : f = expired := by
  cases f with
  | expired => rfl
  | off => exact absurd rfl h

end TimerFunction

/-- `MpubsubBinarySensor`; a cancel function is known by the handle of its timer. -/
structure MpubsubBinarySensor where
  isOn : Option Bool := none
  expireCancel : Option Nat := none
  offDelayCancel : Option Nat := none
  loop : EventLoop Rat TimerFunction

/-- A message arrives, the clock goes on, a timer runs, or the entity is removed. -/
inductive SensorEvent (ω : Type) where
  | message (world : ω) (payload : Payload)
  | advance (time : Rat)
  | fire (handle : Nat)
  | remove

section

variable {ω : Type} (cfg : BinarySensorConfig ω) (s : MpubsubBinarySensor)

/-- `_render`. -/
def BinarySensorConfig.render (world : ω) (payload : Payload) : Option Payload :=
  match cfg.valueTemplate with
  | none => some payload
  | some template => template world payload

/-- The state that a payload stands for, if it is one that is recognised. -/
def BinarySensorConfig.recognise (world : ω) (payload : Payload) : Option Bool :=
  if cfg.render world payload = some (.str cfg.payloadOn) then some true
  else if cfg.render world payload = some (.str cfg.payloadOff) then some false
  else none

namespace MpubsubBinarySensor

/-- A cancel function is called, if there is one. -/
def cancel : Option Nat → EventLoop Rat TimerFunction
  | none => s.loop
  | some handle => s.loop.cancel handle

/-- `_arm_off_delay`. -/
def armOffDelay : MpubsubBinarySensor :=
  match cfg.offDelay with
  | none => s
  | some delay =>
    let s := { s with loop := s.cancel s.offDelayCancel, offDelayCancel := none }
    if s.isOn ≠ some true then s
    else { s with loop := s.loop.callLater delay .off, offDelayCancel := some s.loop.next }

/-- `_reset_expiry`. -/
def resetExpiry : MpubsubBinarySensor :=
  match cfg.expireAfter with
  | none => s
  | some after =>
    let s := { s with loop := s.cancel s.expireCancel }
    { s with loop := s.loop.callLater after .expired, expireCancel := some s.loop.next }

/-- `_message`. -/
def message (world : ω) (payload : Payload) : MpubsubBinarySensor :=
  match cfg.recognise world payload with
  | none => s
  | some isOn => ({ s with isOn := some isOn }.resetExpiry cfg).armOffDelay cfg

/-- `_expired` and `_off`. -/
def fire (handle : Nat) : MpubsubBinarySensor :=
  match s.loop.runnable? handle with
  | none => s
  | some timer =>
    let s := { s with loop := s.loop.cancel handle }
    match timer.callback with
    | .expired => { s with expireCancel := none, isOn := none }
    | .off => { s with offDelayCancel := none, isOn := some false }

/-- `async_will_remove_from_hass`. -/
def willRemove : MpubsubBinarySensor :=
  let s := { s with loop := s.cancel s.expireCancel }
  let s := { s with loop := s.cancel s.offDelayCancel }
  { s with expireCancel := none, offDelayCancel := none }

def step : SensorEvent ω → MpubsubBinarySensor
  | .message world payload => s.message cfg world payload
  | .advance time => { s with loop := s.loop.advance time }
  | .fire handle => s.fire handle
  | .remove => s.willRemove

/-- A sensor that has just been made. -/
def new (time : Rat) : MpubsubBinarySensor := { loop := .idle time }

end MpubsubBinarySensor

/-! ## History -/

/-- What has happened: the state that the last recognised payload stood for, and whether the
expiry timer has fired since. -/
structure History where
  last : Option Bool := none
  expired : Bool := false
deriving DecidableEq

/-- What an event adds to the history. -/
def History.record (h : History) : SensorEvent ω → History
  | .message world payload =>
    match cfg.recognise world payload with
    | none => h
    | some isOn => { last := some isOn, expired := false }
  | .fire handle =>
    match s.loop.runnable? handle with
    | some ⟨_, _, .expired⟩ => { h with expired := true }
    | _ => h
  | _ => h

end

/-- A sensor beside its history. -/
def recorded {ω : Type} (cfg : BinarySensorConfig ω) :
    Machine (MpubsubBinarySensor × History) (SensorEvent ω) Unit :=
  ⟨fun s e => ((s.1.step cfg e, s.2.record cfg s.1 e), ())⟩

end Mpubsub.HomeAssistant
