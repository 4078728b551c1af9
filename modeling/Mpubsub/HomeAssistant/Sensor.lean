import Mpubsub.HomeAssistant.BinarySensor
import Mpubsub.Lib.Plan

/-!
# Sensors of the Home Assistant integration (`sensor.py`)

`MpubsubSensor` with the loop that its expiry timer is on. It sees the messages and the timers that
a binary sensor sees.
-/

namespace Mpubsub.HomeAssistant

open Mpubsub.Lib

/-- What `PLATFORM_SCHEMA` accepts, as far as the value depends on it. -/
structure SensorConfig (ω : Type) where
  expireAfter : Option Nat := none
  valueTemplate : Option (ω → Payload → Option Payload) := none

/-- `MpubsubSensor`; `_expired` is the only function that it gives to `async_call_later`. -/
structure MpubsubSensor where
  nativeValue : Option Payload := none
  expireCancel : Option Nat := none
  loop : EventLoop Rat Unit

section

variable {ω : Type} (cfg : SensorConfig ω) (s : MpubsubSensor)

/-- `_render`. -/
def SensorConfig.render (world : ω) (payload : Payload) : Option Payload :=
  match cfg.valueTemplate with
  | none => some payload
  | some template => template world payload

/-- The value that a payload stands for. `b""` is one, and `""` is not. -/
def SensorConfig.valueOf (world : ω) (payload : Payload) : Option Payload :=
  (cfg.render world payload).filter (· ≠ .str "")

namespace MpubsubSensor

/-- `_reset_expiry`. -/
def resetExpiry : MpubsubSensor :=
  match cfg.expireAfter with
  | none => s
  | some after =>
    let s := { s with loop := s.loop.cancel? s.expireCancel }
    { s with loop := s.loop.callLater after (), expireCancel := some s.loop.next }

/-- `_message`. -/
def message (world : ω) (payload : Payload) : MpubsubSensor :=
  match cfg.valueOf world payload with
  | none => s
  | some value => { s with nativeValue := some value }.resetExpiry cfg

/-- `_expired`. -/
def fire (handle : Nat) : MpubsubSensor :=
  match s.loop.runnable? handle with
  | none => s
  | some _ => { loop := s.loop.cancel handle, expireCancel := none, nativeValue := none }

/-- `async_will_remove_from_hass`. -/
def willRemove : MpubsubSensor :=
  { s with loop := s.loop.cancel? s.expireCancel, expireCancel := none }

def step : SensorEvent ω → MpubsubSensor
  | .message world payload => s.message cfg world payload
  | .advance time => { s with loop := s.loop.advance time }
  | .fire handle => s.fire handle
  | .remove => s.willRemove

/-- A sensor that has just been made. -/
def new (time : Rat) : MpubsubSensor := { loop := .idle time }

end MpubsubSensor

/-! ## History -/

/-- The last value that a message brought, with its time. -/
def SensorConfig.record (last : Option (Rat × Payload)) : SensorEvent ω → Option (Rat × Payload)
  | .message world payload =>
    match cfg.valueOf world payload with
    | none => last
    | some value => some (s.loop.time, value)
  | _ => last

/-- A sensor beside the last value that it got. -/
def SensorConfig.machine : Machine (MpubsubSensor × Option (Rat × Payload)) (SensorEvent ω) Unit :=
  ⟨fun s e => ((s.1.step cfg e, cfg.record s.1 s.2 e), ())⟩

/-- What is planned when a value has come: it expires. -/
def SensorConfig.plan (time : Rat) (value : Payload) : Plan Rat (Option Payload) where
  value := some value
  changes := (cfg.expireAfter.map fun (after : Nat) => (time + (after : Rat), none)).toList

end

end Mpubsub.HomeAssistant
