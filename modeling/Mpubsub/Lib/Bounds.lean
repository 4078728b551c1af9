import Mpubsub.Lib.Memory
import Mathlib.Logic.Function.Basic

/-!
# Memory with bounds

Separate objects, each with a size, and spans: pointers that know how far they
reach. A span lies inside its object (`Span.inside`), and is only made from a
wider one. A computation is `none` from the first access, part of a span or
difference of sizes that leaves its bounds; so an equation `c heap = some _`
says that `c` stays inside. The lemmas run a computation step by step: each
operation has one equation, to be used through `bind_eq`, `iterate_eq` and
`scope_eq`.
-/

namespace Mpubsub.Lib

/-- The contents of every object. -/
abbrev Heap (ι : Type) := ι → Mem

/-- Part of an object. -/
structure Span {ι : Type} (size : ι → Nat) where
  obj : ι
  off : Nat
  len : Nat
  inside : off + len ≤ size obj

/-- A computation on the heap, `none` when it leaves its bounds. -/
def Access (ι α : Type) := Heap ι → Option (α × Heap ι)

variable {ι α β : Type} {size : ι → Nat}

instance : Monad (Access ι) where
  pure a heap := some (a, heap)
  bind c f heap := (c heap).bind fun r => f r.1 r.2

namespace Span

/-- A whole object. -/
def whole (size : ι → Nat) (o : ι) : Span size := ⟨o, 0, size o, (Nat.zero_add _).le⟩

/-- The `len` bytes from the `off`-th on. -/
def part (s : Span size) (off len : Nat) (h : off + len ≤ s.len) : Span size :=
  ⟨s.obj, s.off + off, len, by have := s.inside; omega⟩

end Span

namespace Heap

variable [DecidableEq ι]

def read (heap : Heap ι) (s : Span size) : Bytes := (heap s.obj).load s.off s.len

/-- The heap with `bytes` from the `off`-th byte of a span on. -/
def write (heap : Heap ι) (s : Span size) (off : Nat) (bytes : Bytes) : Heap ι :=
  Function.update heap s.obj ((heap s.obj).store (s.off + off) bytes)

theorem write_part (heap : Heap ι) (s : Span size) {off len : Nat} (h : off + len ≤ s.len)
    (bytes : Bytes) : heap.write (s.part off len h) 0 bytes = heap.write s off bytes := rfl

end Heap

namespace Access

/-- Out of bounds. -/
def fault : Access ι α := fun _ => none

/-- A difference of sizes, which must not wrap. -/
def subtract (a b : Nat) : Access ι Nat := if b ≤ a then pure (a - b) else fault

/-- A loop with an accumulator, for the indices below `n`. -/
def iterate (body : Nat → α → Access ι α) : Nat → α → Access ι α
  | 0, a => pure a
  | n + 1, a => do
    let a ← iterate body n a
    body n a

/-- A computation with a local object, which is gone when it returns. -/
def scope [DecidableEq ι] (o : ι) (c : Access ι α) : Access ι α := fun heap =>
  (c heap).map fun r => (r.1, Function.update r.2 o (heap o))

end Access

namespace Span

/-- The part of a span. -/
def sub (s : Span size) (off len : Nat) : Access ι (Span size) :=
  if h : off + len ≤ s.len then pure (s.part off len h) else Access.fault

/-- The span without its first `off` bytes. -/
def drop (s : Span size) (off : Nat) : Access ι (Span size) := do
  let len ← Access.subtract s.len off
  s.sub off len

/-- The first `n` bytes. -/
def load (s : Span size) (n : Nat) : Access ι Bytes := fun heap =>
  if n ≤ s.len then some ((heap s.obj).load s.off n, heap) else none

def get (s : Span size) (i : Nat) : Access ι UInt8 := fun heap =>
  if i < s.len then some (heap s.obj (s.off + i), heap) else none

variable [DecidableEq ι]

/-- Stores at the start. -/
def store (s : Span size) (bytes : Bytes) : Access ι Unit := fun heap =>
  if bytes.length ≤ s.len then some ((), heap.write s 0 bytes) else none

def set (s : Span size) (i : Nat) (v : UInt8) : Access ι Unit := do
  let p ← s.sub i 1
  p.store [v]

/-- `memcpy`. -/
def copy (dst src : Span size) (n : Nat) : Access ι Unit := do
  let bytes ← src.load n
  dst.store bytes

end Span

/-! ## Running a computation -/

namespace Access

theorem pure_eq (a : α) (heap : Heap ι) : (pure a : Access ι α) heap = some (a, heap) := rfl

theorem bind_eq {c : Access ι α} {f : α → Access ι β} {heap heap' : Heap ι} {a : α}
    (h : c heap = some (a, heap')) : (c >>= f) heap = f a heap' := by
  show (c heap).bind _ = _
  rw [h]
  rfl

theorem subtract_eq {a b : Nat} (h : b ≤ a) (heap : Heap ι) :
    subtract a b heap = some (a - b, heap) := by
  rw [subtract, if_pos h, pure_eq]

/-- A loop runs when each iteration does. -/
theorem iterate_eq {n : Nat} {body : Nat → α → Access ι α} (acc : Nat → α) (heaps : Nat → Heap ι)
    (h : ∀ i < n, body i (acc i) (heaps i) = some (acc (i + 1), heaps (i + 1))) :
    iterate body n (acc 0) (heaps 0) = some (acc n, heaps n) := by
  induction n with
  | zero => rfl
  | succ n ih =>
    rw [iterate, bind_eq (ih fun i hi => h i (Nat.lt_succ_of_lt hi)), h n (Nat.lt_succ_self n)]

theorem iterate_unit_eq {n : Nat} {body : Nat → Access ι Unit} (heaps : Nat → Heap ι)
    (h : ∀ i < n, body i (heaps i) = some ((), heaps (i + 1))) :
    iterate (fun i _ => body i) n () (heaps 0) = some ((), heaps n) :=
  iterate_eq (fun _ => ()) heaps h

/-- What a local object holds at the end does not matter. -/
theorem scope_eq [DecidableEq ι] {o : ι} {c : Access ι α} {heap heap' : Heap ι} {a : α} {m : Mem}
    (h : c heap = some (a, Function.update heap' o m)) (ho : heap' o = heap o) :
    scope o c heap = some (a, heap') := by
  rw [scope, h, Option.map_some, Function.update_idem, ← ho, Function.update_eq_self]

end Access

namespace Span

theorem sub_eq {s : Span size} {off len : Nat} (h : off + len ≤ s.len) (heap : Heap ι) :
    s.sub off len heap = some (s.part off len h, heap) := by
  rw [sub, dif_pos h, Access.pure_eq]

theorem drop_eq {s : Span size} {off : Nat} (h : off + (s.len - off) ≤ s.len) (heap : Heap ι) :
    s.drop off heap = some (s.part off (s.len - off) h, heap) := by
  rw [drop, Access.bind_eq (Access.subtract_eq (by omega) heap), sub_eq h]

theorem load_eq {s : Span size} {n : Nat} (h : n ≤ s.len) (heap : Heap ι) :
    s.load n heap = some ((heap.read s).take n, heap) := by
  rw [load, if_pos h, Heap.read, Mem.take_load, Nat.min_eq_left h]

theorem get_eq {s : Span size} {i : Nat} (h : i < s.len) (heap : Heap ι) :
    s.get i heap = some ((heap.read s).getD i 0, heap) := by
  rw [get, if_pos h, Heap.read, Mem.getD_load _ _ h]

variable [DecidableEq ι]

theorem store_eq {s : Span size} {bytes : Bytes} (h : bytes.length ≤ s.len) (heap : Heap ι) :
    s.store bytes heap = some ((), heap.write s 0 bytes) := if_pos h

theorem set_eq {s : Span size} {i : Nat} (h : i < s.len) (v : UInt8) (heap : Heap ι) :
    s.set i v heap = some ((), heap.write s i [v]) := by
  have hpart : i + 1 ≤ s.len := h
  rw [set, Access.bind_eq (sub_eq hpart heap), ← heap.write_part s hpart]
  exact if_pos (Nat.le_refl 1)

theorem copy_eq {dst src : Span size} {n : Nat} (hsrc : n ≤ src.len) (hdst : n ≤ dst.len)
    (heap : Heap ι) :
    dst.copy src n heap = some ((), heap.write dst 0 ((heap.read src).take n)) := by
  rw [copy, Access.bind_eq (load_eq hsrc heap), store_eq ((List.length_take_le ..).trans hdst)]

end Span

/-! ## Reading what was written -/

namespace Heap

@[simp] theorem length_read (heap : Heap ι) (s : Span size) : (heap.read s).length = s.len :=
  Mem.length_load ..

theorem read_part (heap : Heap ι) (s : Span size) {off len : Nat} (h : off + len ≤ s.len) :
    heap.read (s.part off len h) = ((heap.read s).drop off).take len := by
  unfold read Span.part
  rw [Mem.drop_load, Mem.take_load, Nat.min_eq_left (by omega)]

theorem read_rest (heap : Heap ι) (s : Span size) {off : Nat} (h : off + (s.len - off) ≤ s.len) :
    heap.read (s.part off (s.len - off) h) = (heap.read s).drop off := by
  rw [read_part, List.take_of_length_le (by rw [List.length_drop, length_read])]

variable [DecidableEq ι]

theorem read_update (heap : Heap ι) {s : Span size} {o : ι} (h : s.obj ≠ o) (m : Mem) :
    Heap.read (Function.update heap o m) s = heap.read s := by
  rw [read, Function.update_of_ne h, read]

theorem write_update (heap : Heap ι) {s : Span size} {o : ι} (h : s.obj ≠ o) (m : Mem)
    (off : Nat) (bytes : Bytes) :
    Heap.write (Function.update heap o m) s off bytes =
      Function.update (heap.write s off bytes) o m := by
  rw [write, Function.update_of_ne h, Function.update_comm h.symm, write]

@[simp] theorem write_nil (heap : Heap ι) (s : Span size) (off : Nat) :
    heap.write s off [] = heap := by
  rw [write, Mem.store_nil, Function.update_eq_self]

/-- Two stores behind each other are one. -/
theorem write_write (heap : Heap ι) (s : Span size) (off : Nat) (a b : Bytes) :
    (heap.write s off a).write s (off + a.length) b = heap.write s off (a ++ b) := by
  unfold write
  rw [Function.update_self, Function.update_idem, ← Nat.add_assoc, Mem.store_store]

theorem read_write (heap : Heap ι) {s : Span size} {off : Nat} {bytes : Bytes}
    (h : off + bytes.length ≤ s.len) :
    (heap.write s off bytes).read s =
      (heap.read s).take off ++ bytes ++ (heap.read s).drop (off + bytes.length) := by
  rw [read, write, Function.update_self, Mem.load_store_inside _ _ h, read]

theorem read_write_self (heap : Heap ι) {s : Span size} {bytes : Bytes}
    (h : bytes.length = s.len) : (heap.write s 0 bytes).read s = bytes := by
  rw [read_write heap (by omega), List.take_zero, List.nil_append,
    List.drop_eq_nil_of_le (by rw [length_read]; omega), List.append_nil]

/-- Behind a store, nothing changes. -/
theorem drop_read_write (heap : Heap ι) {s : Span size} {off k : Nat} {bytes : Bytes}
    (h : off + bytes.length ≤ s.len) (hk : off + bytes.length ≤ k) :
    ((heap.write s off bytes).read s).drop k = (heap.read s).drop k := by
  have hlen : ((heap.read s).take off ++ bytes).length = off + bytes.length := by
    rw [List.length_append, List.length_take_of_le (by rw [length_read]; omega)]
  rw [read_write heap h, List.drop_append, hlen, List.drop_eq_nil_of_le (by omega),
    List.nil_append, List.drop_drop, Nat.add_sub_cancel' hk]

theorem read_write_of_ne (heap : Heap ι) {s t : Span size} (h : t.obj ≠ s.obj) (off : Nat)
    (bytes : Bytes) : (heap.write s off bytes).read t = heap.read t :=
  read_update heap h _

/-- A store behind a span does not change it. -/
theorem read_write_of_le (heap : Heap ι) {s t : Span size} (h : t.off + t.len ≤ s.off) (off : Nat)
    (bytes : Bytes) : (heap.write s off bytes).read t = heap.read t := by
  by_cases hobj : t.obj = s.obj
  · rw [read, write, hobj, Function.update_self, Mem.load_store_of_le _ (by omega), read, hobj]
  · exact read_write_of_ne heap hobj off bytes

end Heap

end Mpubsub.Lib
