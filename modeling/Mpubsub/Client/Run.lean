import Mpubsub.Lib.Machine
import Mpubsub.Client.Publish
import Mpubsub.Client.Subscribe

/-!
# Runs of the asyncio client

The calls on one client, the clock, and the timers that the loop runs, in any order. The
client's code has no `await` between two of its steps, except in `start`; a `start` that
fails or is interrupted is left out.
-/

namespace Mpubsub.Client

open Mpubsub.Lib

/-- `advance` lets the clock go on to a time, `fire` runs a timer's callback. -/
inductive Event where
  | start (ifindex : Nat)
  | stop
  | subscribe (topic : String) (encoding : Option String) (known ok : Bool)
  | unsubscribe (sub : Nat)
  | publish (call : PublishCall)
  | advance (time : Rat)
  | fire (handle : Nat) (ok : Bool)
deriving DecidableEq

namespace MpubsubClient

variable (cfg : Settings)

def step (c : MpubsubClient) : Event → MpubsubClient × Outcome
  | .start ifindex => (c.start cfg ifindex, .done)
  | .stop => (c.stop, .done)
  | .subscribe topic encoding known ok => c.subscribe cfg topic encoding known ok
  | .unsubscribe sub => (c.unsubscribe sub, .done)
  | .publish call => c.publish cfg call
  | .advance time => ({ c with loop := c.loop.advance time }, .done)
  | .fire handle ok => (c.fire cfg handle ok, .done)

def machine : Machine MpubsubClient Event Outcome := ⟨step cfg⟩

/-- A client that has just been made. -/
def new (time : Rat) : MpubsubClient := { loop := .idle time }

end MpubsubClient

end Mpubsub.Client
