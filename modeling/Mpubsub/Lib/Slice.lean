import Mpubsub.Lib.Bytes

/-!
# Slices of a buffer

A slice is a view of part of a buffer, or has bytes of its own. What a view
reads depends on what the buffer holds at that moment; what an owned slice
reads does not. A `Buffer` keeps its size: filling it overwrites its start and
leaves the rest.
-/

namespace Mpubsub.Lib

/-- A buffer of `n` bytes. -/
abbrev Buffer (n : Nat) := { mem : Bytes // mem.length = n }

namespace Buffer

variable {n : Nat}

/-- Copies as much of `data` as fits to the start of the buffer. -/
def fill (buf : Buffer n) (data : Bytes) : Buffer n :=
  ⟨data.take n ++ buf.val.drop data.length, by
    rw [List.length_append, List.length_take, List.length_drop, buf.property]
    omega⟩

/-- How many bytes of `data` fit. -/
def filled (n : Nat) (data : Bytes) : Nat := min data.length n

end Buffer

/-- A view of a buffer, or owned bytes. -/
inductive Slice where
  | view (off len : Nat)
  | owned (bytes : Bytes)
deriving DecidableEq

namespace Slice

/-- The bytes of a slice while the buffer holds `mem`. -/
def read (mem : Bytes) : Slice → Bytes
  | view off len => (mem.drop off).take len
  | owned bytes => bytes

/-- The slice from its `k`-th byte on. -/
def drop (k : Nat) : Slice → Slice
  | view off len => view (off + k) (len - k)
  | owned bytes => owned (bytes.drop k)

@[simp] theorem read_owned (mem bytes : Bytes) : (owned bytes).read mem = bytes := rfl

@[simp] theorem read_drop (mem : Bytes) (k : Nat) (s : Slice) :
    (s.drop k).read mem = (s.read mem).drop k := by
  cases s with
  | view off len => simp only [drop, read, List.drop_take, List.drop_drop]
  | owned bytes => rfl

/-- The filled part of a buffer reads what it was filled with. -/
@[simp] theorem read_fill {n : Nat} (buf : Buffer n) (data : Bytes) :
    (view 0 (Buffer.filled n data)).read (buf.fill data).val = data.take n := by
  show ((data.take n ++ buf.val.drop data.length).drop 0).take (min data.length n) = data.take n
  rw [List.drop_zero, Nat.min_comm, ← List.length_take, List.take_left]

/-- Where the slice and the part of the buffer that `data` fills overlap, the buffer holds
`data` already. -/
def Untouched {n : Nat} (buf : Buffer n) (data : Bytes) : Slice → Prop
  | view off len =>
    ∀ i < n, off ≤ i → i < off + len → i < data.length → buf.val[i]? = data[i]?
  | owned _ => True

instance {n : Nat} (buf : Buffer n) (data : Bytes) : ∀ s : Slice, Decidable (s.Untouched buf data)
  | view off _ => inferInstanceAs (Decidable (∀ i < n, off ≤ i → _))
  | owned _ => isTrue trivial

/-- Such a slice reads the same after the buffer is filled. -/
theorem read_fill_of_untouched {n : Nat} {buf : Buffer n} {data : Bytes} {s : Slice}
    (h : s.Untouched buf data) : s.read (buf.fill data).val = s.read buf.val := by
  cases s with
  | owned bytes => rfl
  | view off len =>
    have hlen : buf.val.length = n := buf.property
    apply List.ext_getElem?
    intro j
    unfold read Buffer.fill
    rw [List.getElem?_take, List.getElem?_take, List.getElem?_drop, List.getElem?_drop,
      List.getElem?_append]
    split
    · rename_i hj
      rw [List.length_take]
      split
      · -- In the filled part, where the buffer held `data` already.
        rename_i hfilled
        rw [List.getElem?_take_of_lt (by omega)]
        exact (h (off + j) (by omega) (by omega) (by omega) (by omega)).symm
      · -- Behind it, where the fill left the buffer alone.
        rename_i hfilled
        rw [List.getElem?_drop]
        by_cases hin : data.length ≤ n
        · congr 1
          omega
        · rw [List.getElem?_eq_none (by omega), List.getElem?_eq_none (by omega)]
    · rfl

end Slice

end Mpubsub.Lib
