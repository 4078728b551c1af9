import Mpubsub.Node.Transmissions

/-!
# Every transmission is accounted for

What a publisher owes its datagrams and what it has handed to the socket balance over every run, the
resends that are still pending included: no resend is lost, doubled or cancelled, whatever is
published, subscribed or set in between, on the same topic or another. The counter behind
`packets_sent_` counts the sends that succeeded.
-/

namespace Mpubsub.Theorems

open Mpubsub.Lib Mpubsub.Wire Mpubsub.Node Mpubsub.Node.MulticastPubSub

variable {κ : Type}

/-- **Transmissions over a run.** A datagram has been handed to the socket, or waits to be, as often
as it was due: `retransmit_count_` times for each publish whose first send succeeded, once for one
whose first send failed or that started a chain, and once for each link of the chain that fired.
The counter has gone up by the sends that succeeded. -/
theorem transmissions_balance {node : MulticastPubSub κ} (hfresh : Fresh node)
    (hsocket : node.socket = true) (run : List (Call κ)) :
    (∀ sent : Sent,
      publisher.total (attempts sent) node run + (publisher.exec node run).pendingResends sent =
        publisher.total (dues sent) node run) ∧
      (publisher.exec node run).packetsSent =
        node.packetsSent + UInt32.ofNat (publisher.total successes node run) := by
  have hnone : node.timeouts = [] := hfresh.timeouts
  constructor
  · intro sent
    have hcounting : node.Counting := by
      refine ⟨hsocket, ?_⟩
      intro t ht
      rw [hnone] at ht
      cases ht
    have hstart : node.pendingResends sent = 0 := by
      rw [pendingResends, hnone]
      rfl
    have hbalance := Machine.total_balance publisher (fun s c hs => Counting.call hs c)
      (fun s c hs => call_balance hs sent c) hcounting run
    rw [hstart, Nat.zero_add] at hbalance
    exact hbalance
  · clear hfresh hsocket hnone
    induction run generalizing node with
    | nil => exact (UInt32.add_zero _).symm
    | cons c run ih =>
      rw [Machine.exec_cons, ih, Machine.total, UInt32.ofNat_add, ← UInt32.add_assoc]
      exact congrArg (· + _) (node.packetsSent_call c)

/-- Three transmissions of a publish, two of them resends, one of which is still to come. -/
theorem transmissions_balance_finite :
    publisher.total (attempts ⟨({} : MulticastPubSub Unit).datagram {} [97] [1] .RAW,
        topicToGroup [97] .LINK_LOCAL⟩)
      ({ socket := true, retransmitCount := 3 } : MulticastPubSub Unit)
      [.event (.publish {} [97] [1] .RAW), .event (.timeout true 0)] +
      (publisher.exec ({ socket := true, retransmitCount := 3 } : MulticastPubSub Unit)
        [.event (.publish {} [97] [1] .RAW), .event (.timeout true 0)]).pendingResends
        ⟨({} : MulticastPubSub Unit).datagram {} [97] [1] .RAW, topicToGroup [97] .LINK_LOCAL⟩ =
    publisher.total (dues ⟨({} : MulticastPubSub Unit).datagram {} [97] [1] .RAW,
        topicToGroup [97] .LINK_LOCAL⟩)
      ({ socket := true, retransmitCount := 3 } : MulticastPubSub Unit)
      [.event (.publish {} [97] [1] .RAW), .event (.timeout true 0)] := by
  have hfresh : Fresh ({ socket := true, retransmitCount := 3 } : MulticastPubSub Unit) :=
    ⟨rfl, rfl, rfl, 0, rfl⟩
  exact (transmissions_balance hfresh rfl
    [.event (.publish {} [97] [1] .RAW), .event (.timeout true 0)]).1 _

end Mpubsub.Theorems
