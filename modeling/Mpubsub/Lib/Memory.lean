import Mpubsub.Lib.Bytes
import Mathlib.Data.List.Range

/-!
# Flat memory

Memory without bounds: a store writes where it is told to, whatever lies there.
A `Cursor` is a position that moves over the bytes it writes; writing two
strings is writing their concatenation (`write_write`), and what was written is
read back (`load_write`).
-/

namespace Mpubsub.Lib

/-- A memory, from some address on. -/
abbrev Mem := Nat → UInt8

namespace Mem

def store (m : Mem) (pos : Nat) (bytes : Bytes) : Mem := fun i =>
  if pos ≤ i ∧ i < pos + bytes.length then bytes.getD (i - pos) 0 else m i

def load (m : Mem) (pos len : Nat) : Bytes := (List.range len).map fun i => m (pos + i)

@[simp] theorem length_load (m : Mem) (pos len : Nat) : (m.load pos len).length = len := by
  rw [load, List.length_map, List.length_range]

theorem take_load (m : Mem) (pos len n : Nat) :
    (m.load pos len).take n = m.load pos (min n len) := by
  rw [load, load, ← List.map_take, List.take_range]

theorem drop_load (m : Mem) (pos len n : Nat) :
    (m.load pos len).drop n = m.load (pos + n) (len - n) := by
  apply List.ext_getElem (by simp)
  intro i hi hi'
  simp [load, Nat.add_assoc]

/-- What is loaded in two parts lies one behind the other. -/
theorem load_eq_append {m : Mem} {pos len : Nat} {a b : Bytes} (h : m.load pos len = a ++ b) :
    m.load pos a.length = a ∧ m.load (pos + a.length) (len - a.length) = b := by
  have hlen := congrArg List.length h
  rw [length_load, List.length_append] at hlen
  have htake := take_load m pos len a.length
  have hdrop := drop_load m pos len a.length
  rw [h, List.take_left, Nat.min_eq_left (by omega)] at htake
  rw [h, List.drop_left] at hdrop
  exact ⟨htake.symm, hdrop.symm⟩

theorem getD_load (m : Mem) (pos : Nat) {len i : Nat} (h : i < len) :
    (m.load pos len).getD i 0 = m (pos + i) := by
  rw [List.getD_eq_getElem _ _ (by rw [length_load]; exact h)]
  simp [load]

theorem load_getD (bytes : Bytes) : load (fun i => bytes.getD i 0) 0 bytes.length = bytes := by
  apply List.ext_getElem (length_load ..)
  intro i hi hi'
  simp only [load, List.getElem_map, List.getElem_range, Nat.zero_add,
    List.getD_eq_getElem _ _ hi']

/-- A store behind the bytes. -/
theorem load_store_of_le (m : Mem) {pos len pos' : Nat} (h : pos + len ≤ pos') (bytes : Bytes) :
    (m.store pos' bytes).load pos len = m.load pos len := by
  apply List.map_congr_left
  intro i hi
  have := List.mem_range.mp hi
  exact if_neg (by omega)

/-- A store among the bytes. -/
theorem load_store_inside (m : Mem) (pos : Nat) {len off : Nat} {bytes : Bytes}
    (h : off + bytes.length ≤ len) :
    (m.store (pos + off) bytes).load pos len =
      (m.load pos len).take off ++ bytes ++ (m.load pos len).drop (off + bytes.length) := by
  apply List.ext_getElem
  · simp only [List.length_append, List.length_take, List.length_drop, length_load]
    omega
  · intro i hi hi'
    rw [length_load] at hi
    simp only [List.getElem_append, List.length_append, List.length_take, length_load,
      Nat.min_eq_left (show off ≤ len by omega)]
    simp only [load, List.getElem_map, List.getElem_range, List.getElem_take, List.getElem_drop,
      store]
    split
    · rename_i hstored
      rw [dif_pos (by omega), dif_neg (by omega), List.getD_eq_getElem _ _ (by omega)]
      congr 1
      omega
    · split
      · rw [dif_pos (by omega)]
      · congr 1
        omega

/-- A store is read back. -/
theorem load_store (m : Mem) (pos : Nat) (bytes : Bytes) :
    (m.store pos bytes).load pos bytes.length = bytes := by
  apply List.ext_getElem (length_load ..)
  intro i hi hi'
  simp only [load, List.getElem_map, List.getElem_range, store]
  rw [if_pos ⟨Nat.le_add_right .., by omega⟩, Nat.add_sub_cancel_left,
    List.getD_eq_getElem _ _ hi']

theorem store_nil (m : Mem) (pos : Nat) : m.store pos [] = m :=
  funext fun i => if_neg (by simp only [List.length_nil]; omega)

theorem store_store (m : Mem) (pos : Nat) (a b : Bytes) :
    (m.store pos a).store (pos + a.length) b = m.store pos (a ++ b) := by
  funext i
  simp only [store, List.length_append]
  by_cases hb : pos + a.length ≤ i ∧ i < pos + a.length + b.length
  · rw [if_pos hb, if_pos (by omega), List.getD_append_right _ _ _ _ (by omega)]
    congr 1
    omega
  · rw [if_neg hb]
    by_cases ha : pos ≤ i ∧ i < pos + a.length
    · rw [if_pos ha, if_pos (by omega), List.getD_append _ _ _ _ (by omega)]
    · rw [if_neg ha, if_neg (by omega)]

end Mem

/-- A memory and a position to write at. -/
structure Cursor where
  mem : Mem
  pos : Nat

namespace Cursor

/-- Writes `bytes` and moves behind them. -/
def write (c : Cursor) (bytes : Bytes) : Cursor :=
  ⟨c.mem.store c.pos bytes, c.pos + bytes.length⟩

@[simp] theorem pos_write (c : Cursor) (bytes : Bytes) :
    (c.write bytes).pos = c.pos + bytes.length := rfl

@[simp] theorem write_nil (c : Cursor) : c.write [] = c := by
  rw [write, Mem.store_nil]
  rfl

@[simp] theorem write_write (c : Cursor) (a b : Bytes) :
    (c.write a).write b = c.write (a ++ b) := by
  simp only [write, Mem.store_store, List.length_append, Nat.add_assoc]

/-- Steps that each write something write all of it, in order. -/
theorem foldl_write {α : Type*} {step : Cursor → α → Cursor} {bytes : α → Bytes}
    (h : ∀ c a, step c a = c.write (bytes a)) (c : Cursor) (as : List α) :
    as.foldl step c = c.write (as.flatMap bytes) := by
  induction as generalizing c with
  | nil => exact (write_nil c).symm
  | cons a as ih => rw [List.foldl_cons, ih, h, write_write, List.flatMap_cons]

end Cursor

end Mpubsub.Lib
