import Mathlib.Data.List.Perm.Basic

/-!
# Timers in numbered slots

A scheduler's pending timers as a list. Some of them sit in a slot, which holds one at
a time: arming a timer for a slot puts out the one that sits there, and a timer leaves
the list when it fires. `occupants` are the timers in a slot; the lemmas say what
cancelling, arming and firing do to the occupants of each slot.
-/

namespace Mpubsub.Lib.Timers

variable {τ ι : Type*} [DecidableEq ι] (slot : τ → Option ι)

/-- The pending timers in the slot. -/
def occupants (ts : List τ) (i : ι) : List τ := ts.filter fun t => slot t = some i

/-- Cancel what is in the slot. -/
def cancel (ts : List τ) (i : ι) : List τ := ts.filter fun t => slot t ≠ some i

variable {slot} {ts : List τ} {i j : ι} {t : τ} {n : Nat}

theorem occupants_append (ts us : List τ) (i : ι) :
    occupants slot (ts ++ us) i = occupants slot ts i ++ occupants slot us i :=
  List.filter_append ..

theorem occupants_concat_self (ts : List τ) (h : slot t = some i) :
    occupants slot (ts ++ [t]) i = occupants slot ts i ++ [t] := by
  simp [occupants, h]

theorem occupants_concat_of_ne (ts : List τ) (h : slot t ≠ some i) :
    occupants slot (ts ++ [t]) i = occupants slot ts i := by
  simp [occupants, h]

theorem occupants_eq_nil (h : ∀ t ∈ ts, slot t ≠ some i) : occupants slot ts i = [] :=
  List.filter_eq_nil_iff.mpr fun t ht => by simpa using h t ht

theorem mem_occupants : t ∈ occupants slot ts i ↔ t ∈ ts ∧ slot t = some i := by
  simp [occupants]

theorem mem_cancel : t ∈ cancel slot ts i ↔ t ∈ ts ∧ slot t ≠ some i := by
  simp [cancel]

theorem occupants_cancel_self (ts : List τ) (i : ι) : occupants slot (cancel slot ts i) i = [] :=
  occupants_eq_nil fun _ ht => (mem_cancel.mp ht).2

theorem occupants_cancel_of_ne (h : i ≠ j) (ts : List τ) :
    occupants slot (cancel slot ts j) i = occupants slot ts i := by
  rw [occupants, cancel, List.filter_filter]
  apply List.filter_congr
  intro t _
  by_cases hslot : slot t = some i
  · simp [hslot, h]
  · simp [hslot]

/-- Nothing to cancel. -/
theorem cancel_eq_self (h : occupants slot ts i = []) : cancel slot ts i = ts := by
  refine List.filter_eq_self.mpr fun t ht => ?_
  have hnot := List.filter_eq_nil_iff.mp h t ht
  simpa using hnot

/-- The rest of the list when a timer has fired. -/
theorem occupants_perm_eraseIdx (h : ts[n]? = some t) (i : ι) :
    (occupants slot ts i).Perm (occupants slot (t :: ts.eraseIdx n) i) := by
  obtain ⟨hn, rfl⟩ := List.getElem?_eq_some_iff.mp h
  exact ((List.getElem_cons_eraseIdx_perm hn).symm).filter _

/-- A timer that fires leaves the other slots alone. -/
theorem occupants_eraseIdx_of_ne (h : ts[n]? = some t) (hslot : slot t ≠ some i) :
    occupants slot (ts.eraseIdx n) i = occupants slot ts i := by
  have hperm : (occupants slot ts i).Perm (occupants slot (t :: ts.eraseIdx n) i) :=
    occupants_perm_eraseIdx h i
  have hskip : occupants slot (t :: ts.eraseIdx n) i = occupants slot (ts.eraseIdx n) i :=
    List.filter_cons_of_neg (by simpa using hslot)
  rw [hskip] at hperm
  exact ((List.eraseIdx_sublist ts n).filter _).eq_of_length hperm.length_eq.symm

end Mpubsub.Lib.Timers
