import Mpubsub.Component.Setup

/-!
# The publish action (`__init__.py`, `automation.h`)

A raw `mpubsub.publish`: the validator of a payload that is written out in the configuration, and
what the action does each time it plays.
-/

namespace Mpubsub.Component

open Mpubsub.Lib Mpubsub.Node

def MAX_DATAGRAM : Nat := 1232
def HEADER_LEN : Nat := 12
def MAX_PAYLOAD : Nat := MAX_DATAGRAM - HEADER_LEN

/-- The `cv.Invalid` of `_static_payload_validator`. -/
structure PayloadTooLong where
  encodedLen : Nat
deriving DecidableEq

def PayloadTooLong.text (e : PayloadTooLong) : String :=
  "payload is " ++ toString e.encodedLen ++ " bytes but the maximum publishable size is " ++
    toString MAX_PAYLOAD ++ " bytes (UDP datagram limit " ++ toString MAX_DATAGRAM ++
    " minus the " ++ toString HEADER_LEN ++ "-byte header)"

/-- `_static_payload_validator`. -/
def staticPayloadValidator (value : String) : Except PayloadTooLong String :=
  if (utf8 value).length > MAX_PAYLOAD then .error ⟨(utf8 value).length⟩ else .ok value

theorem staticPayloadValidator_ok_iff {value : String} :
    staticPayloadValidator value = .ok value ↔ (utf8 value).length ≤ MAX_PAYLOAD := by
  unfold staticPayloadValidator
  split
  · rename_i hlong
    exact ⟨fun h => (by cases h), fun hle => absurd hle (Nat.not_le.mpr hlong)⟩
  · rename_i hle
    exact ⟨fun _ => Nat.not_lt.mp hle, fun _ => rfl⟩

variable {κ : Type}

/-- `PublishAction::play`, with what its templates give, and with the result of `publish`, which
it drops. The count is put back behind the call. -/
def play (parent : MulticastPubSub κ) (env : PublishEnv) (topic payload : Bytes)
    (retransmitCount : Option Int16) : MulticastPubSub κ × List Sent × Bool :=
  match retransmitCount with
  | none => parent.publish env topic payload .RAW
  | some count =>
    let saved := parent.retransmitCount
    let (parent, sent, ok) :=
      { parent with retransmitCount := count }.publish env topic payload .RAW
    ({ parent with retransmitCount := saved }, sent, ok)

/-- What leaves the node is what `publish` sends, of a node that differs in the count. -/
theorem play_eq (parent : MulticastPubSub κ) (env : PublishEnv) (topic payload : Bytes)
    (retransmitCount : Option Int16) :
    ∃ count, (play parent env topic payload retransmitCount).2 =
      ({ parent with retransmitCount := count }.publish env topic payload .RAW).2 := by
  cases retransmitCount with
  | none => exact ⟨parent.retransmitCount, rfl⟩
  | some count => exact ⟨count, rfl⟩

end Mpubsub.Component
