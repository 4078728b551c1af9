import Mpubsub.Node.InMemory

/-!
# The receive path stays inside its buffers

`on_packet_` on a datagram of any length, with any key, replay guard and subscriptions, and
whatever the stack holds: no access of `decode`, `handle_encrypted_`,
`chacha20poly1305_decrypt` and `deliver_` leaves its buffer, and the node does what the model
without buffers says (`receive_in_bounds`).

`decode` accepts an encrypted datagram only if its body is as long as the header declares, so the
ciphertext is the prefix and the declared payload, exactly; `handle_encrypted_` itself only checks
for a nonce and a tag.
-/

namespace Mpubsub.Theorems

open Mpubsub.Lib Mpubsub.Wire.InMemory Mpubsub.Node

variable {κ : Type}

/-- The run is not `none`: every access is inside its buffer. -/
theorem receive_in_bounds (node : MulticastPubSub κ) (raw : Bytes) (clock : Option UInt32)
    (stack : Heap Object) :
    InMemory.onPacket node (Object.raw.data : Ptr raw.length) clock
        (InMemory.heapOf node raw stack) =
      some (node.onPacket raw clock, InMemory.heapOf node raw stack) := by
  have hkey := InMemory.read_key raw.length node raw stack
  rw [InMemory.onPacket_eq node rfl clock _ hkey, InMemory.read_raw]

/-- A read behind the end of a ciphertext of 7 bytes is out of bounds, though the work array goes
on. -/
example (heap : Heap Object) :
    InMemory.loadU32leAt (⟨.work, 0, 7, by decide⟩ : Ptr 0) 4 heap = none := rfl

end Mpubsub.Theorems
