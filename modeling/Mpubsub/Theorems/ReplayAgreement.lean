import Mpubsub.Replay.Cpp
import Mpubsub.Replay.Python
import Mpubsub.Replay.Go

/-!
# The three replay guards agree

Each guard is compared with the abstract one, and so with the others. The C++
and the Python guard answer alike along every run. The Go guard does when no
call prunes with a cutoff that wrapped around below zero and hits an entry
(`CutoffSound`); without this it forgets live entries while the clock reads
less than the window.
-/

namespace Mpubsub.Theorems

open Mpubsub.Lib Mpubsub.Replay

/-- The C++ and the Python guard, started empty with the same window and
capacity, give the same answer at every call. -/
theorem cpp_python_agree {K : Nat} [NeZero K] (window : UInt32) (calls : List Call) :
    (ReplayGuardT.machine K).trace (ReplayGuardT.init K window) calls =
      Python.ReplayGuard.machine.trace (Python.ReplayGuard.init window.toNat K) calls := by
  rw [(ReplayGuardT.run_refines K window calls).1,
    Python.ReplayGuard.run_refines window (Nat.pos_of_neZero K) calls]

/-- `cpp_python_agree` for a ring of two entries that overflows, with a clock
that is set back. -/
theorem cpp_python_agree_overflow :
    (ReplayGuardT.machine 2).trace (ReplayGuardT.init 2 10)
        [⟨100, true, 100, 1⟩, ⟨101, true, 101, 2⟩, ⟨102, true, 102, 3⟩, ⟨95, true, 100, 1⟩] =
      Python.ReplayGuard.machine.trace (Python.ReplayGuard.init 10 2)
        [⟨100, true, 100, 1⟩, ⟨101, true, 101, 2⟩, ⟨102, true, 102, 3⟩, ⟨95, true, 100, 1⟩] :=
  cpp_python_agree (K := 2) 10 _

/-- With a window of 100 seconds and a clock that reads 50, the Go guard accepts
a packet twice: the cutoff wraps around to `2^32 - 50` and prunes it. -/
theorem go_accepts_twice_before_window :
    ¬∀ (K : Nat) (window : UInt32) (calls : List Call), 1 ≤ K →
      Go.ReplayGuard.machine.trace (Go.ReplayGuard.new window K) calls =
        Python.ReplayGuard.machine.trace (Python.ReplayGuard.init window.toNat K) calls := by
  intro h
  exact absurd (h 128 100 [⟨50, true, 50, 1⟩, ⟨50, true, 50, 1⟩] (by decide)) (by decide)

/-- Along calls whose cutoff is sound, the Go and the Python guard, started empty
with the same window and capacity, give the same answer at every call. -/
theorem go_python_agree {K : Nat} (hK : 1 ≤ K) (window : UInt32) {calls : List Call}
    (hcalls : Go.ReplayGuard.machine.Along Go.ReplayGuard.CutoffSound
      (Go.ReplayGuard.new window K) calls) :
    Go.ReplayGuard.machine.trace (Go.ReplayGuard.new window K) calls =
      Python.ReplayGuard.machine.trace (Python.ReplayGuard.init window.toNat K) calls := by
  rw [Go.ReplayGuard.run_refines hK hcalls, Python.ReplayGuard.run_refines window hK calls]

/-- `go_python_agree` across a prune and an overflow, and once before the clock
has reached the window. -/
theorem go_python_agree_overflow :
    Go.ReplayGuard.machine.trace (Go.ReplayGuard.new 10 1)
        [⟨5, true, 5, 1⟩, ⟨100, true, 100, 1⟩, ⟨101, true, 101, 2⟩, ⟨102, true, 100, 1⟩] =
      Python.ReplayGuard.machine.trace (Python.ReplayGuard.init 10 1)
        [⟨5, true, 5, 1⟩, ⟨100, true, 100, 1⟩, ⟨101, true, 101, 2⟩, ⟨102, true, 100, 1⟩] :=
  go_python_agree (K := 1) (by decide) 10 (by decide)

end Mpubsub.Theorems
