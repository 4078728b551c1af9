import Mathlib.Data.List.Destutter
import Mpubsub.Node.Simulation

/-!
# What a pass of `loop` does

The read loop of the socket build takes an empty datagram for the end of what there is to read, so
a pass hands in what is ahead of it and drops it (`readLoop_eq`). `publish_metrics_` publishes a
counter where it has changed since it was published last, and remembers it (`publish_changes`).
-/

namespace Mpubsub.Node

open Mpubsub.Lib Mpubsub.Wire

variable {κ : Type}

/-! ## Reading -/

/-- The datagrams of a queue that are not empty. -/
def nonempty (queue : List Bytes) : List Bytes := queue.filter fun datagram => datagram ≠ []

/-- The read loop hands in what is ahead of the first empty datagram, and drops that one. -/
theorem readLoop_eq (node : MulticastPubSub κ) (clock : Nat → Option UInt32) (i : Nat)
    (queue : List Bytes) :
    readLoop node clock i queue =
      ((Esp8266Build.recvTrampoline node clock i (queue.takeWhile fun d => d ≠ [])).1,
        (Esp8266Build.recvTrampoline node clock i (queue.takeWhile fun d => d ≠ [])).2,
        (queue.dropWhile fun d => d ≠ []).tail) := by
  induction queue generalizing node i with
  | nil => rfl
  | cons datagram queue ih =>
    by_cases hempty : datagram = []
    · subst hempty
      simp [readLoop, Esp8266Build.recvTrampoline]
    · have hlength : ¬(datagram.take MAX_DATAGRAM).length = 0 := by
        simp [hempty, MAX_DATAGRAM]
      rw [readLoop, List.takeWhile_cons_of_pos (by simpa using hempty),
        List.dropWhile_cons_of_pos (by simpa using hempty), Esp8266Build.recvTrampoline]
      simp only [if_neg hlength, ih]

namespace SocketBuild

/-- The datagrams that a pass hands to `on_packet_`. -/
def reads (b : SocketBuild κ) (arrivals : List Bytes) : List Bytes :=
  (b.queue ++ arrivals).takeWhile fun datagram => datagram ≠ []

/-- Those of all passes of a run. -/
def handled : SocketBuild κ → List (Entry κ) → List Bytes
  | _, [] => []
  | b, .loop lwip clock arrivals :: run =>
    b.reads arrivals ++ handled (b.step (.loop lwip clock arrivals)).1 run
  | b, entry :: run => handled (b.step entry).1 run

end SocketBuild

/-- The datagrams that come in during a run. -/
def arrivals : List (Entry κ) → List Bytes
  | [] => []
  | .loop _ _ datagrams :: run => datagrams ++ arrivals run
  | _ :: run => arrivals run

/-- A queue is what comes ahead of its first empty datagram, and what the pass leaves. -/
theorem nonempty_eq (queue : List Bytes) :
    nonempty queue =
      queue.takeWhile (fun d => d ≠ []) ++ nonempty (queue.dropWhile fun d => d ≠ []).tail := by
  induction queue with
  | nil => rfl
  | cons datagram queue ih =>
    by_cases hempty : datagram = []
    · simp [nonempty, hempty]
    · rw [List.takeWhile_cons_of_pos (by simpa using hempty),
        List.dropWhile_cons_of_pos (by simpa using hempty), List.cons_append, ← ih]
      exact List.filter_cons_of_pos (by simpa using hempty)

theorem count_dropWhile (queue : List Bytes) :
    (queue.dropWhile fun d => d ≠ []).tail = [] ∨
      (queue.dropWhile fun d => d ≠ []).tail.count [] + 1 = queue.count [] := by
  induction queue with
  | nil => exact .inl rfl
  | cons datagram queue ih =>
    by_cases hempty : datagram = []
    · simp [hempty]
    · rw [List.dropWhile_cons_of_pos (by simpa using hempty), List.count_cons_of_ne hempty]
      exact ih

/-- What a pass does on an open socket. -/
theorem SocketBuild.step_loop {b : SocketBuild κ} (hopen : b.node.socket = true) (lwip : Lwip)
    (clock : Nat → Option UInt32) (arrivals : List Bytes) :
    (b.step (.loop lwip clock arrivals)).1.node =
        (Esp8266Build.recvTrampoline b.node clock 0 (b.reads arrivals)).1 ∧
      (b.step (.loop lwip clock arrivals)).2.invocations =
        (Esp8266Build.recvTrampoline b.node clock 0 (b.reads arrivals)).2 ∧
      (b.step (.loop lwip clock arrivals)).1.queue =
        ((b.queue ++ arrivals).dropWhile fun d => d ≠ []).tail := by
  simp only [step, hopen, if_true, readLoop_eq, reads]
  exact ⟨trivial, trivial, trivial⟩

/-- Passes with nothing coming in drain the queue: one for each empty datagram, and one more. -/
theorem SocketBuild.queue_drained {b : SocketBuild κ} (hopen : b.node.socket = true) (lwip : Lwip)
    (clock : Nat → Option UInt32) {n : Nat} (hn : b.queue.count [] < n) :
    (machine.exec b (List.replicate n (.loop lwip clock []))).queue = [] := by
  induction n generalizing b with
  | zero => exact absurd hn (Nat.not_lt_zero _)
  | succ n ih =>
    obtain ⟨hnode, -, hqueue⟩ := step_loop hopen lwip clock []
    have hlater : (Entry.loop lwip clock [] : Entry κ).Later := trivial
    have hstill := (b.socket_step hlater).trans hopen
    rw [List.append_nil] at hqueue
    rw [List.replicate_succ, Machine.exec_cons]
    rcases count_dropWhile b.queue with hempty | hcount
    · cases n with
      | zero =>
        show (b.step _).1.queue = []
        rw [hqueue, hempty]
      | succ n =>
        refine ih hstill ?_
        show List.count [] (b.step _).1.queue < n + 1
        rw [hqueue, hempty]
        exact Nat.succ_pos n
    · refine ih hstill ?_
      show List.count [] (b.step _).1.queue < n
      rw [hqueue]
      omega

/-! ## The sensors -/

/-- The nodes whose counters `publish_metrics_` looks at. -/
def SocketBuild.samples : SocketBuild κ → List (Entry κ) → List (MulticastPubSub κ)
  | _, [] => []
  | b, .loop lwip clock arrivals :: run =>
    (b.step (.loop lwip clock arrivals)).1.node ::
      samples (b.step (.loop lwip clock arrivals)).1 run
  | b, entry :: run => samples (b.step entry).1 run

/-- What one sensor published. -/
def statesOf (c : Counter) (trace : List (Effects κ)) : List UInt32 :=
  trace.flatMap fun effects =>
    effects.states.filterMap fun state => if state.1 = c then some state.2 else none

/-- The values of a counter that its sensor publishes, where it has last published `last`. -/
def changes (last : UInt32) (counters : List UInt32) : List UInt32 :=
  (List.destutter' (· ≠ ·) last counters).tail

theorem destutter'_eq_cons (last : UInt32) (counters : List UInt32) :
    List.destutter' (· ≠ ·) last counters = last :: changes last counters := by
  induction counters with
  | nil => rfl
  | cons counter counters ih =>
    rw [changes, List.destutter'_cons]
    split
    · rfl
    · rw [ih, List.tail_cons]

theorem changes_cons (last counter : UInt32) (counters : List UInt32) :
    changes last (counter :: counters) =
      if last ≠ counter then counter :: changes counter counters else changes last counters := by
  rw [changes, List.destutter'_cons]
  split
  · rw [List.tail_cons, destutter'_eq_cons]
  · rfl

/-- The value that was published last is the counter's last. -/
theorem getLast?_changes (last : UInt32) (counters : List UInt32) :
    (last :: changes last counters).getLast? = (last :: counters).getLast? := by
  induction counters generalizing last with
  | nil => rfl
  | cons counter counters ih =>
    rw [changes_cons]
    by_cases hsame : last = counter
    · rw [if_neg (not_not.mpr hsame), ih, ← hsame, List.getLast?_cons_cons]
    · rw [if_pos hsame, List.getLast?_cons_cons, ih, List.getLast?_cons_cons]

/-- One pass publishes a counter that has changed, and remembers it. -/
theorem publish_changes (m : Metric) (counter : UInt32) (counters : List UInt32)
    (hsensor : m.sensor = true) :
    (m.publish counter).2.toList ++
        (changes (m.publish counter).1.lastPublished counters).map toFloat =
      (changes m.lastPublished (counter :: counters)).map toFloat := by
  rw [changes_cons, Metric.publish]
  by_cases hsame : counter = m.lastPublished
  · rw [if_neg (by simp [hsame]), if_neg (not_not.mpr hsame.symm)]
    rfl
  · rw [if_pos ⟨hsensor, hsame⟩, if_pos (Ne.symm hsame)]
    rfl

theorem sensor_publish (m : Metric) (counter : UInt32) :
    (m.publish counter).1.sensor = m.sensor := by
  unfold Metric.publish
  split <;> rfl

/-- An entry that is no pass publishes nothing, and leaves the sensors alone. -/
theorem SocketBuild.metrics_step (b : SocketBuild κ) {entry : Entry κ}
    (h : ∀ lwip clock arrivals, entry ≠ .loop lwip clock arrivals) :
    (b.step entry).1.metrics = b.metrics ∧ (b.step entry).2.states = [] := by
  cases entry with
  | loop lwip clock arrivals => exact absurd rfl (h lwip clock arrivals)
  | setup created bound =>
    simp only [step]
    split <;> exact ⟨rfl, rfl⟩
  | subscribe | subscribeTyped | setRetransmitCount | setRetransmitDelayMs | publish | timeout =>
    exact ⟨rfl, rfl⟩

end Mpubsub.Node
