import Mpubsub.Node.Passes

/-!
# What `loop` does over a run

Of what the socket receives nothing is lost or overtaken, but what is behind an empty datagram waits
for the next pass (`loop_reads_in_order`). A sensor sees the values of its counter at the passes,
without the repetitions (`sensor_states`).
-/

namespace Mpubsub.Theorems

open Mpubsub.Lib Mpubsub.Wire Mpubsub.Node

variable {κ : Type}

/-- **Reading over a run.** On an open socket every datagram that is not empty is handed to
`on_packet_` once and in the order of arrival, or is still to be read; a pass does to the node, and
calls, what `on_packet_` does on the datagrams it reads; and where nothing more comes in, as many
passes as there are empty datagrams, and one more, read everything. -/
theorem loop_reads_in_order {b : SocketBuild κ} (hopen : b.node.socket = true)
    {run : List (Entry κ)} (hrun : ∀ entry ∈ run, entry.Later) :
    let b' := SocketBuild.machine.exec b run
    b.handled run ++ nonempty b'.queue = nonempty (b.queue ++ arrivals run) ∧
      ∀ (lwip : Lwip) (clock : Nat → Option UInt32),
        (∀ datagrams,
          ((b'.step (.loop lwip clock datagrams)).1.node,
            (b'.step (.loop lwip clock datagrams)).2.invocations) =
              Esp8266Build.recvTrampoline b'.node clock 0 (b'.reads datagrams)) ∧
        ∀ n, b'.queue.count [] < n →
          (SocketBuild.machine.exec b' (List.replicate n (.loop lwip clock []))).queue = [] := by
  intro b'
  have hstill : b'.node.socket = true :=
    Machine.exec_invariant_along SocketBuild.machine
      (fun b entry h hentry => (b.socket_step hentry).trans h) hopen
      (Machine.along_of_forall SocketBuild.machine _ hrun)
  have hpass (lwip : Lwip) (clock : Nat → Option UInt32) (datagrams : List Bytes) :
      ((b'.step (.loop lwip clock datagrams)).1.node,
        (b'.step (.loop lwip clock datagrams)).2.invocations) =
          Esp8266Build.recvTrampoline b'.node clock 0 (b'.reads datagrams) := by
    obtain ⟨hnode, hinvocations, -⟩ := SocketBuild.step_loop hstill lwip clock datagrams
    exact Prod.ext hnode hinvocations
  refine ⟨?_, fun lwip clock => ⟨hpass lwip clock, fun n hn =>
    SocketBuild.queue_drained hstill lwip clock hn⟩⟩
  clear hpass
  clear hstill
  show b.handled run ++ nonempty (SocketBuild.machine.exec b run).queue = _
  clear b'
  induction run generalizing b with
  | nil => simp [SocketBuild.handled, arrivals]
  | cons entry run ih =>
    obtain ⟨hentry, hrest⟩ := List.forall_mem_cons.mp hrun
    have hnext := ih ((b.socket_step hentry).trans hopen) hrest
    rw [Machine.exec_cons]
    cases entry with
    | loop lwip clock datagrams =>
      obtain ⟨-, -, hqueue⟩ := SocketBuild.step_loop hopen lwip clock datagrams
      show b.reads datagrams ++ (b.step _).1.handled run ++ nonempty _ = _
      rw [List.append_assoc]
      refine (congrArg (b.reads datagrams ++ ·) hnext).trans ?_
      rw [hqueue, arrivals, ← List.append_assoc]
      have hsplit := nonempty_eq (b.queue ++ datagrams)
      simp only [nonempty, List.filter_append, SocketBuild.reads] at hsplit ⊢
      rw [hsplit, List.append_assoc]
    | setup created bound => exact hentry.elim
    | subscribe | subscribeTyped | setRetransmitCount | setRetransmitDelayMs | publish | timeout =>
      exact hnext

/-- An empty datagram between two others, and a pass that ends at it. -/
theorem loop_reads_in_order_empty :
    ({ node := { socket := true } } : SocketBuild Unit).handled
        [.loop {} (fun _ => none) [[1], [], [2]]] ++
      nonempty (SocketBuild.machine.exec ({ node := { socket := true } } : SocketBuild Unit)
        [.loop {} (fun _ => none) [[1], [], [2]]]).queue = [[1], [2]] :=
  (loop_reads_in_order rfl (by simp [Entry.Later])).1

/-- **A sensor over a run** publishes the values of its counter at the passes, but none twice in a
row, and the last one that it has published is the counter's value at the last pass. -/
theorem sensor_states {b : SocketBuild κ} {c : Counter}
    (hsensor : (b.metrics.metric c).sensor = true) (run : List (Entry κ)) :
    let last := (b.metrics.metric c).lastPublished
    let counters := (b.samples run).map fun node => node.counter c
    statesOf c (SocketBuild.machine.trace b run) = (changes last counters).map toFloat ∧
      (last :: changes last counters).IsChain (· ≠ ·) ∧ (changes last counters).Sublist counters ∧
      (last :: changes last counters).getLast? = (last :: counters).getLast? := by
  intro last counters
  refine ⟨?_, ?_, ?_, getLast?_changes last counters⟩
  · show statesOf c _ = (changes last ((b.samples run).map _)).map toFloat
    clear counters
    induction run generalizing b with
    | nil => rfl
    | cons entry run ih =>
      have hother (h : ∀ lwip clock arrivals, entry ≠ .loop lwip clock arrivals)
          (hsamples : b.samples (entry :: run) = (b.step entry).1.samples run) :
          statesOf c (SocketBuild.machine.trace b (entry :: run)) =
            (changes last ((b.samples (entry :: run)).map fun node => node.counter c)).map
              toFloat := by
        obtain ⟨hmetrics, hstates⟩ := b.metrics_step h
        have hnext := @ih (b.step entry).1 (by rw [hmetrics, hsensor])
        rw [hmetrics] at hnext
        rw [hsamples, ← hnext, Machine.trace_cons, statesOf, List.flatMap_cons]
        show List.filterMap _ (b.step entry).2.states ++ _ = _
        rw [hstates]
        rfl
      cases entry with
      | loop lwip clock arrivals =>
        obtain ⟨node, hnode⟩ : ∃ node, node = (b.step (.loop lwip clock arrivals)).1.node :=
          ⟨_, rfl⟩
        have hmetrics : (b.step (.loop lwip clock arrivals)).1.metrics =
            (b.metrics.publish node).1 := by
          rw [hnode]
          rfl
        have hstates : (b.step (.loop lwip clock arrivals)).2.states =
            (b.metrics.publish node).2 := by
          rw [hnode]
          rfl
        have hnext := @ih (b.step (.loop lwip clock arrivals)).1 (by
          rw [hmetrics, Metrics.metric_publish, sensor_publish, hsensor])
        rw [hmetrics, Metrics.metric_publish] at hnext
        have hpass := b.metrics.filter_publish node c
        rw [← hstates] at hpass
        calc statesOf c (SocketBuild.machine.trace b (.loop lwip clock arrivals :: run))
            = ((b.metrics.metric c).publish (node.counter c)).2.toList ++
                statesOf c (SocketBuild.machine.trace (b.step (.loop lwip clock arrivals)).1 run) :=
              congrArg (· ++ _) hpass
          _ = ((b.metrics.metric c).publish (node.counter c)).2.toList ++ _ :=
              congrArg (_ ++ ·) hnext
          _ = _ := publish_changes _ _ _ hsensor
          _ = _ := by rw [SocketBuild.samples, List.map_cons, ← hnode]
      | setup | subscribe | subscribeTyped | setRetransmitCount | setRetransmitDelayMs | publish
        | timeout =>
        exact hother nofun rfl
  · rw [← destutter'_eq_cons]
    exact List.isChain_destutter' _ _ _
  · exact (List.destutter'_sublist counters (· ≠ ·) last).tail

/-- A sensor whose counter stays at 0 over two passes publishes it once. -/
theorem sensor_states_idle :
    statesOf .packetsReceived (SocketBuild.machine.trace
      ({ node := { socket := true }, metrics := { packetsReceived := ⟨true, 0xFFFFFFFF⟩ } } :
        SocketBuild Unit) [.loop {} (fun _ => none) [], .loop {} (fun _ => none) []]) =
      [toFloat 0] := by
  have hsensor : (({ node := { socket := true }
                     metrics := { packetsReceived := ⟨true, 0xFFFFFFFF⟩ } } :
      SocketBuild Unit).metrics.metric .packetsReceived).sensor = true := rfl
  exact (sensor_states hsensor [.loop {} (fun _ => none) [], .loop {} (fun _ => none) []]).1

end Mpubsub.Theorems
