import Mpubsub.Node.Delivery
import Mpubsub.Node.Simulation

/-!
# The two builds agree

What the step lemma of the builds says of one entry holds along every run that sets the component
up once, and the first `loop` with an interface closes the gap between the groups
(`builds_agree`). Where binding fails the builds part: only the ESP8266 gives its pcb up
(`unbound_builds_part`).
-/

namespace Mpubsub.Theorems

open Mpubsub.Lib Mpubsub.Wire Mpubsub.Node

variable {κ : Type}

/-- **The builds agree.** Along every run that sets the component up once, with datagrams that come
in as a `loop` starts, the two builds have the same effects and end in the same node. The ESP8266
has joined the first of the groups that the socket build has joined, and after a `loop` with a
network interface all of them. -/
theorem builds_agree {node : MulticastPubSub κ} (hsubs : node.subscriptions = [])
    (hsocket : node.socket = false) (metrics : Metrics) {run : List (Entry κ)}
    (hrun : Esp8266Build.machine.Along Esp8266Build.Admits
      { node := node, metrics := metrics } run) :
    let e := Esp8266Build.machine.exec { node := node, metrics := metrics } run
    let s := SocketBuild.machine.exec { node := node, metrics := metrics } (run.map Entry.onSocket)
    Esp8266Build.machine.trace { node := node, metrics := metrics } run =
        SocketBuild.machine.trace { node := node, metrics := metrics } (run.map Entry.onSocket) ∧
      e.node = s.node ∧ e.groups <+: s.groups ∧
      ∀ (lwip : Lwip) (clock : Nat → Option UInt32) (arrivals : List Bytes), lwip.netif = true →
        (e.step (.loop lwip clock arrivals)).1.groups = s.groups := by
  have hstart : Agrees { node := node, metrics := metrics }
      { node := node, metrics := metrics } :=
    ⟨rfl, rfl, rfl, ⟨[], by simp [hsubs], rfl⟩, fun _ => ⟨rfl, rfl⟩, fun h => by
      rw [hsocket] at h
      cases h⟩
  obtain ⟨htrace, hagrees⟩ := Machine.trace_eq_of_sim_along
    (n := SocketBuild.machine.comap Entry.onSocket) step_agrees hstart hrun
  rw [Machine.trace_comap] at htrace
  rw [Machine.exec_comap] at hagrees
  exact ⟨htrace, hagrees.node, hagrees.groups_prefix, fun _ clock arrivals hnetif =>
    hagrees.groups_loop hnetif clock arrivals⟩

/-- A run with a publish that finds no interface, and a subscription before the interface is up. -/
theorem builds_agree_late_netif :
    Esp8266Build.machine.trace ({ node := {} } : Esp8266Build Unit)
      [.subscribe [97] () false, .setup true true, .publish { netif := false } {} [97] [1] .RAW,
        .loop { netif := false } (fun _ => none) [[0]], .subscribe [98] () true] =
    SocketBuild.machine.trace ({ node := {} } : SocketBuild Unit)
      [.subscribe [97] () false, .setup true true,
        .publish { netif := false } { sendOk := false } [97] [1] .RAW,
        .loop { netif := false } (fun _ => none) [[0]], .subscribe [98] () true] := by
  have hrun : Esp8266Build.machine.Along Esp8266Build.Admits ({ node := {} } : Esp8266Build Unit)
      [.subscribe [97] () false, .setup true true, .publish { netif := false } {} [97] [1] .RAW,
        .loop { netif := false } (fun _ => none) [[0]], .subscribe [98] () true] :=
    ⟨trivial, ⟨rfl, fun _ => rfl⟩, trivial, by simp [Esp8266Build.Admits], trivial, trivial⟩
  exact (builds_agree rfl rfl {} hrun).1

/-- **After a failed bind** the ESP8266 has no pcb: it refuses every publish and transmits nothing,
in any later run. The socket build has kept its socket, and goes on sending from it. -/
theorem unbound_builds_part {κ : Type} :
    (∀ (e : Esp8266Build κ) (run : List (Entry κ)), (∀ entry ∈ run, entry.Later) →
      ∀ effects ∈ Esp8266Build.machine.trace (e.step (.setup true false)).1 run,
        effects.transmitted = [] ∧ effects.invocations = [] ∧ effects.result ≠ some true) ∧
    ∀ (s : SocketBuild κ) (run : List (Entry κ)), (∀ entry ∈ run, entry.Later) →
      ∀ (lwip : Lwip) (env : PublishEnv) (topic payload : Bytes) (encoding : Encoding),
        let b := SocketBuild.machine.exec (s.step (.setup true false)).1 run
        payload.length ≤ b.node.effectiveMax → env.sendOk = true →
        (b.step (.publish lwip env topic payload encoding)).2 =
          { result := some true
            transmitted := [⟨b.node.datagram env topic payload encoding,
              topicToGroup topic b.node.scope⟩] } := by
  constructor
  · intro e run hlater
    have hclosed : (e.step (.setup true false)).1.node.socket = false := rfl
    revert hclosed
    generalize (e.step (.setup true false)).1 = b
    induction run generalizing b with
    | nil =>
      intro _ effects heffects
      cases heffects
    | cons entry run ih =>
      obtain ⟨hentry, hrun⟩ := List.forall_mem_cons.mp hlater
      intro hclosed effects heffects
      obtain ⟨hnext, hnone⟩ := Esp8266Build.closed_step hclosed hentry
      rcases List.mem_cons.mp heffects with rfl | hlast
      · exact hnone
      · exact ih hrun _ hnext effects hlast
  · intro s run hlater lwip env topic payload encoding b hsize hsendOk
    have hopen : b.node.socket = true :=
      Machine.exec_invariant_along SocketBuild.machine
        (fun b entry h hentry => (b.socket_step hentry).trans h) rfl
        (Machine.along_of_forall SocketBuild.machine _ hlater)
    have hsends := MulticastPubSub.publish_sends hopen hsize env topic encoding
    simp only [SocketBuild.step, hsends, hsendOk, if_true]

/-- A publish after a failed bind, on either build. -/
theorem unbound_builds_part_publish :
    (∀ effects ∈ Esp8266Build.machine.trace
        (({ node := {} } : Esp8266Build Unit).step (.setup true false)).1
        [.publish {} {} [97] [1] .RAW], effects.result ≠ some true) ∧
      ((({ node := {} } : SocketBuild Unit).step (.setup true false)).1.step
        (.publish {} {} [97] [1] .RAW)).2.result = some true := by
  constructor
  · intro effects heffects
    have hrefused := unbound_builds_part.1 { node := {} } [.publish {} {} [97] [1] .RAW]
      (by simp [Entry.Later]) effects heffects
    exact hrefused.2.2
  · have hsends := unbound_builds_part.2 ({ node := {} } : SocketBuild Unit) [] nofun {} {} [97] [1]
      .RAW (by decide) rfl
    exact congrArg Effects.result hsends

end Mpubsub.Theorems
