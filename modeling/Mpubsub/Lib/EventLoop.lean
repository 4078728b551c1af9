import Mathlib.Data.List.Nodup
import Mathlib.Order.Lattice

/-!
# Event loops with timers

A single-threaded loop (`EventLoop`): its clock, and the timers that are pending, in the
order in which they were made. Every timer has its own handle. A pending timer leaves the
loop when it is cancelled or when its callback runs, whatever the loop does in between;
so the pending timers are what the lemmas speak about (`mem_callLater`, `mem_cancel`,
`mem_cancelAll`).
-/

namespace Mpubsub.Lib

/-- A pending timer: `id` is its handle. -/
structure TimerHandle (τ κ : Type*) where
  id : Nat
  when : τ
  callback : κ
deriving DecidableEq

/-- A loop; `next` is the handle of the next timer. -/
structure EventLoop (τ κ : Type*) where
  time : τ
  next : Nat
  scheduled : List (TimerHandle τ κ)
  nodup : (scheduled.map TimerHandle.id).Nodup
  id_lt_next : ∀ h ∈ scheduled, h.id < next

namespace EventLoop

variable {τ κ : Type*}

/-- A loop with nothing to do. -/
def idle (time : τ) : EventLoop τ κ := ⟨time, 0, [], List.nodup_nil, fun h hh => by cases hh⟩

variable (l : EventLoop τ κ)

/-- `call_later`: the handle of the new timer is `l.next`. -/
def callLater [Add τ] (delay : τ) (callback : κ) : EventLoop τ κ where
  time := l.time
  next := l.next + 1
  scheduled := l.scheduled ++ [⟨l.next, l.time + delay, callback⟩]
  nodup := by
    rw [List.map_append]
    refine l.nodup.append (List.nodup_singleton _) ?_
    intro id hid hnew
    obtain ⟨h, hh, rfl⟩ := List.mem_map.mp hid
    exact Nat.ne_of_lt (l.id_lt_next h hh) (List.mem_singleton.mp hnew)
  id_lt_next := by
    intro h hh
    rcases List.mem_append.mp hh with hh | hh
    · exact Nat.lt_succ_of_lt (l.id_lt_next h hh)
    · rw [List.mem_singleton.mp hh]
      exact Nat.lt_succ_self _

/-- `cancel` on a handle, and the end of a timer that has run. -/
def cancel (id : Nat) : EventLoop τ κ where
  time := l.time
  next := l.next
  scheduled := l.scheduled.filter fun h => h.id ≠ id
  nodup := l.nodup.sublist (List.filter_sublist.map _)
  id_lt_next := fun h hh => l.id_lt_next h (List.mem_filter.mp hh).1

/-- `cancel` on a handle, if there is one. -/
def cancel? : Option Nat → EventLoop τ κ
  | none => l
  | some id => l.cancel id

/-- `cancel` on several handles. -/
def cancelAll (ids : List Nat) : EventLoop τ κ := ids.foldl cancel l

/-- The clock goes on. -/
def advance [Max τ] (time : τ) : EventLoop τ κ := { l with time := max l.time time }

/-- The pending timer of a handle. -/
def find? (id : Nat) : Option (TimerHandle τ κ) := l.scheduled.find? fun h => h.id = id

/-- The pending timer of a handle that the loop can run now: it is due, and none is due before
it. -/
def runnable? [LE τ] [DecidableLE τ] (id : Nat) : Option (TimerHandle τ κ) :=
  (l.find? id).filter fun h => h.when ≤ l.time ∧ ∀ h' ∈ l.scheduled, h.when ≤ h'.when

variable {l}

@[simp] theorem scheduled_callLater [Add τ] (delay : τ) (callback : κ) :
    (l.callLater delay callback).scheduled =
      l.scheduled ++ [⟨l.next, l.time + delay, callback⟩] := rfl

@[simp] theorem time_cancel (id : Nat) : (l.cancel id).time = l.time := rfl

theorem time_cancelAll (ids : List Nat) : (l.cancelAll ids).time = l.time := by
  induction ids generalizing l with
  | nil => rfl
  | cons id ids ih => exact ih

theorem mem_cancel {id : Nat} {h : TimerHandle τ κ} :
    h ∈ (l.cancel id).scheduled ↔ h ∈ l.scheduled ∧ h.id ≠ id := by
  simp [cancel]

/-- A timer is known by its handle. -/
theorem eq_of_id_eq {h h' : TimerHandle τ κ} (hh : h ∈ l.scheduled) (hh' : h' ∈ l.scheduled)
    (hid : h.id = h'.id) : h = h' :=
  List.inj_on_of_nodup_map l.nodup hh hh' hid

theorem find?_eq_some_iff {id : Nat} {h : TimerHandle τ κ} :
    l.find? id = some h ↔ h ∈ l.scheduled ∧ h.id = id := by
  unfold find?
  constructor
  · intro hfind
    have hid := List.find?_some hfind
    exact ⟨List.mem_of_find?_eq_some hfind, of_decide_eq_true hid⟩
  · rintro ⟨hh, rfl⟩
    cases hfind : l.scheduled.find? fun h' => decide (h'.id = h.id) with
    | none => exact absurd (decide_eq_true rfl) (List.find?_eq_none.mp hfind h hh)
    | some h' =>
      have hid := List.find?_some hfind
      rw [eq_of_id_eq (List.mem_of_find?_eq_some hfind) hh (of_decide_eq_true hid)]

theorem runnable?_eq_some_iff [LE τ] [DecidableLE τ] {id : Nat} {h : TimerHandle τ κ} :
    l.runnable? id = some h ↔
      h ∈ l.scheduled ∧ h.id = id ∧ h.when ≤ l.time ∧ ∀ h' ∈ l.scheduled, h.when ≤ h'.when := by
  rw [runnable?, Option.filter_eq_some_iff, find?_eq_some_iff, decide_eq_true_iff, and_assoc]

/-- The timers of a kind, when a handle stands for each of them. -/
theorem length_filter_le_one {p : TimerHandle τ κ → Bool} {id : Option Nat}
    (h : ∀ t ∈ l.scheduled, p t = true → id = some t.id) : (l.scheduled.filter p).length ≤ 1 := by
  have hnodup := (List.Nodup.of_map _ l.nodup).filter p
  rcases hfilter : l.scheduled.filter p with _ | ⟨t, _ | ⟨t', rest⟩⟩
  · exact Nat.zero_le 1
  · exact Nat.le_refl 1
  · have hmem (t'' : TimerHandle τ κ) (hin : t'' ∈ l.scheduled.filter p) :
        t'' ∈ l.scheduled ∧ id = some t''.id :=
      ⟨(List.mem_filter.mp hin).1, h t'' (List.mem_filter.mp hin).1 (List.mem_filter.mp hin).2⟩
    rw [hfilter] at hnodup hmem
    obtain ⟨ht, hid⟩ := hmem t List.mem_cons_self
    obtain ⟨ht', hid'⟩ := hmem t' (List.mem_cons_of_mem _ List.mem_cons_self)
    have hsame := eq_of_id_eq ht ht' (Option.some.inj (hid.symm.trans hid'))
    exact absurd (hsame ▸ List.mem_cons_self) (List.nodup_cons.mp hnodup).1

theorem mem_cancel? {id : Option Nat} {h : TimerHandle τ κ} :
    h ∈ (l.cancel? id).scheduled ↔ h ∈ l.scheduled ∧ id ≠ some h.id := by
  cases id with
  | none => exact ⟨fun hh => ⟨hh, fun hid => by cases hid⟩, fun hh => hh.1⟩
  | some id => rw [cancel?, mem_cancel, ne_eq, ne_eq, Option.some.injEq, eq_comm (a := id)]

theorem time_cancel? (id : Option Nat) : (l.cancel? id).time = l.time := by
  cases id <;> rfl

theorem mem_cancelAll {ids : List Nat} {h : TimerHandle τ κ} :
    h ∈ (l.cancelAll ids).scheduled ↔ h ∈ l.scheduled ∧ h.id ∉ ids := by
  induction ids generalizing l with
  | nil => simp [cancelAll]
  | cons id ids ih =>
    show h ∈ ((l.cancel id).cancelAll ids).scheduled ↔ _
    rw [ih, mem_cancel, List.mem_cons, not_or, and_assoc]

/-- Cancelling a timer leaves those of another kind. -/
theorem filter_cancel {t : TimerHandle τ κ} (ht : t ∈ l.scheduled) {p : TimerHandle τ κ → Bool}
    (hp : p t = false) : (l.cancel t.id).scheduled.filter p = l.scheduled.filter p := by
  rw [cancel, List.filter_filter]
  apply List.filter_congr
  intro t' ht'
  by_cases hid : t'.id = t.id
  · rw [eq_of_id_eq ht' ht hid, hp]
    rfl
  · simp [hid]

/-- Cancelling a timer leaves the others of its kind. -/
theorem filter_perm_cancel {t : TimerHandle τ κ} (ht : t ∈ l.scheduled)
    {p : TimerHandle τ κ → Bool} (hp : p t = true) :
    (l.scheduled.filter p).Perm (t :: (l.cancel t.id).scheduled.filter p) := by
  have hnodup := (List.Nodup.of_map _ l.nodup).filter p
  refine (List.perm_ext_iff_of_nodup hnodup ?_).mpr ?_
  · refine List.nodup_cons.mpr ⟨?_, (List.Nodup.of_map _ (l.cancel t.id).nodup).filter p⟩
    intro hmem
    exact (mem_cancel.mp (List.mem_filter.mp hmem).1).2 rfl
  · intro t'
    rw [List.mem_cons, List.mem_filter, List.mem_filter, mem_cancel]
    constructor
    · rintro ⟨ht', hpt⟩
      by_cases hsame : t'.id = t.id
      · exact .inl (eq_of_id_eq ht' ht hsame)
      · exact .inr ⟨⟨ht', hsame⟩, hpt⟩
    · rintro (rfl | ⟨⟨ht', -⟩, hpt⟩)
      · exact ⟨ht, hp⟩
      · exact ⟨ht', hpt⟩

end EventLoop

end Mpubsub.Lib
