import Mathlib.Data.Nat.ModEq
import Mathlib.Data.List.Basic
import Mathlib.Data.Vector.Basic

/-!
# Fixed-capacity rings

A ring is an array of `K` slots, the index `head` of its oldest entry and the
number `count` of entries; entry `i` lives in slot `(head + i) % K`. `toList`
reads the entries off, oldest first. The three updates a bounded log needs act
on that list as expected:

* `dropFront` removes the oldest entry;
* `pushBack` appends, while there is room;
* `overwrite` reuses the oldest entry's slot for the new one, when full.
-/

namespace Mpubsub.Lib

/-- A circular buffer over `K` slots. Slots outside the entries keep whatever
they last held. -/
structure Ring (α : Type*) (K : Nat) where
  head : Nat
  count : Nat
  slots : Vector α K
deriving DecidableEq

namespace Ring

variable {α : Type*} {K : Nat}

/-- The indices stay inside the array. -/
structure InRange (r : Ring α K) : Prop where
  head_lt : r.head < K
  count_le : r.count ≤ K

/-- Distinct offsets within one revolution name distinct slots. -/
theorem add_mod_inj {head i j : Nat} (hi : i < K) (hj : j < K)
    (h : (head + i) % K = (head + j) % K) : i = j := by
  have hmod : i % K = j % K := Nat.ModEq.add_left_cancel' head h
  rwa [Nat.mod_eq_of_lt hi, Nat.mod_eq_of_lt hj] at hmod

variable [NeZero K]

/-- Slot `i`. An index in range is its own remainder. -/
def slot (r : Ring α K) (i : Nat) : α :=
  have := Nat.mod_lt i (Nat.pos_of_neZero K)
  r.slots[i % K]

/-- Replace slot `i`. An index in range is its own remainder. -/
def setSlot (r : Ring α K) (i : Nat) (a : α) : Ring α K :=
  { r with slots := r.slots.set (i % K) a (Nat.mod_lt i (Nat.pos_of_neZero K)) }

/-- Entry `i`, counted from the oldest. -/
def entry (r : Ring α K) (i : Nat) : α := r.slot ((r.head + i) % K)

/-- The entries, oldest first. -/
def toList (r : Ring α K) : List α := (List.range r.count).map r.entry

/-- Forget the oldest entry. -/
def dropFront (r : Ring α K) : Ring α K :=
  { r with head := (r.head + 1) % K, count := r.count - 1 }

/-- Write `a` into the first free slot. -/
def pushBack (r : Ring α K) (a : α) : Ring α K :=
  { r.setSlot ((r.head + r.count) % K) a with count := r.count + 1 }

/-- Write `a` over the oldest entry and make it the newest. -/
def overwrite (r : Ring α K) (a : α) : Ring α K :=
  { r.setSlot r.head a with head := (r.head + 1) % K }

@[simp] theorem length_toList (r : Ring α K) : r.toList.length = r.count := by
  simp [toList]

@[simp] theorem setSlot_head (r : Ring α K) (i : Nat) (a : α) :
    (r.setSlot i a).head = r.head := rfl

theorem slot_setSlot (r : Ring α K) (i j : Nat) (a : α) :
    (r.setSlot i a).slot j = if i % K = j % K then a else r.slot j := by
  simp only [slot, setSlot, Vector.getElem_set]

/-- Advancing the head by one shifts every offset by one. -/
theorem entry_dropFront (r : Ring α K) (i : Nat) : r.dropFront.entry i = r.entry (i + 1) := by
  have hidx : ((r.head + 1) % K + i) % K = (r.head + (i + 1)) % K := by
    rw [Nat.mod_add_mod, show r.head + 1 + i = r.head + (i + 1) by omega]
  show r.slot (((r.head + 1) % K + i) % K) = r.slot ((r.head + (i + 1)) % K)
  rw [hidx]

theorem toList_dropFront {r : Ring α K} : r.dropFront.toList = r.toList.tail := by
  apply List.ext_getElem
  · simp [dropFront]
  · intro i _ _
    simp only [toList, List.getElem_map, List.getElem_range, List.getElem_tail, entry_dropFront]

/-- A ring with an entry starts with its oldest one. -/
theorem toList_eq_cons {r : Ring α K} (h : 0 < r.count) :
    r.toList = r.entry 0 :: r.dropFront.toList := by
  rw [toList_dropFront]
  obtain ⟨n, hn⟩ : ∃ n, r.count = n + 1 := ⟨r.count - 1, by omega⟩
  simp [toList, hn, List.range_succ_eq_map]

/-- A write outside the entries is not seen by them. -/
theorem entry_setSlot_of_ne {r : Ring α K} {i j : Nat} {a : α}
    (h : i % K ≠ (r.head + j) % K) : (r.setSlot i a).entry j = r.entry j := by
  simp only [entry, setSlot_head, slot_setSlot, Nat.mod_mod, if_neg h]

theorem toList_pushBack {r : Ring α K} (hroom : r.count < K) (a : α) :
    (r.pushBack a).toList = r.toList ++ [a] := by
  have hlast : (r.setSlot ((r.head + r.count) % K) a).entry r.count = a := by
    simp [entry, slot_setSlot]
  have hold : ∀ i ∈ List.range r.count,
      (r.setSlot ((r.head + r.count) % K) a).entry i = r.entry i := by
    intro i hi
    apply entry_setSlot_of_ne
    intro heq
    rw [Nat.mod_mod] at heq
    have := add_mod_inj hroom (by have := List.mem_range.mp hi; omega) heq
    have := List.mem_range.mp hi
    omega
  change (List.range (r.count + 1)).map (r.setSlot ((r.head + r.count) % K) a).entry = _
  rw [List.range_succ, List.map_append, List.map_singleton, hlast, List.map_congr_left hold]
  rfl

theorem toList_overwrite {r : Ring α K} (hr : r.InRange) (hfull : r.count = K) (a : α) :
    (r.overwrite a).toList = r.toList.tail ++ [a] := by
  have hK : 0 < K := Nat.pos_of_neZero K
  -- Dropping the front frees exactly the slot that `pushBack` then fills.
  have hslot : (r.dropFront.head + r.dropFront.count) % K = r.head := by
    simp only [dropFront, Nat.mod_add_mod]
    rw [hfull, show r.head + 1 + (K - 1) = r.head + K by omega, Nat.add_mod_right,
      Nat.mod_eq_of_lt hr.head_lt]
  have hover : r.overwrite a = r.dropFront.pushBack a := by
    simp only [pushBack, hslot]
    simp only [overwrite, dropFront, setSlot, Ring.mk.injEq, and_true, true_and]
    omega
  rw [hover, toList_pushBack (by simp only [dropFront]; omega), toList_dropFront]

theorem InRange.dropFront {r : Ring α K} (hr : r.InRange) : r.dropFront.InRange :=
  ⟨Nat.mod_lt _ (Nat.pos_of_neZero K), by have := hr.count_le; simp only [Ring.dropFront]; omega⟩

theorem InRange.pushBack {r : Ring α K} (hr : r.InRange) (hroom : r.count < K) (a : α) :
    (r.pushBack a).InRange :=
  ⟨hr.head_lt, hroom⟩

theorem InRange.overwrite {r : Ring α K} (hr : r.InRange) (a : α) : (r.overwrite a).InRange :=
  ⟨Nat.mod_lt _ (Nat.pos_of_neZero K), hr.count_le⟩

end Ring

end Mpubsub.Lib
