import Mathlib.Data.List.Basic
import Mathlib.Algebra.Order.Ring.Nat

/-!
# Block by block

A function that takes a state and a block of `n` elements, over the blocks of a list
(`foldBlocks`), and a stream that holds back what is not a whole block yet (`Taken`). What a
stream holds after a list depends on the list alone (`Taken.ext`): it does not matter how the list
came in.
-/

namespace Mpubsub.Lib

variable {σ α : Type*} (f : σ → List α → σ) (n : Nat)

/-- `f` over the whole blocks of `l`, the first one first. -/
def foldBlocks (s : σ) (l : List α) : σ :=
  (List.range (l.length / n)).foldl (fun s i => f s ((l.drop (n * i)).take n)) s

theorem foldBlocks_of_lt {l : List α} (h : l.length < n) (s : σ) : foldBlocks f n s l = s := by
  rw [foldBlocks, Nat.div_eq_of_lt h]
  rfl

theorem foldBlocks_block {l : List α} (hn : 0 < n) (h : l.length = n) (s : σ) :
    foldBlocks f n s l = f s l := by
  rw [foldBlocks, h, Nat.div_self hn]
  show f s ((l.drop (n * 0)).take n) = _
  rw [Nat.mul_zero, List.drop_zero, List.take_of_length_le (Nat.le_of_eq h)]

theorem foldBlocks_append {l : List α} (hn : 0 < n) (h : n ∣ l.length) (s : σ) (l' : List α) :
    foldBlocks f n s (l ++ l') = foldBlocks f n (foldBlocks f n s l) l' := by
  obtain ⟨k, hk⟩ := h
  have hdiv : (l ++ l').length / n = k + l'.length / n := by
    rw [List.length_append, hk, Nat.add_comm, Nat.add_mul_div_left _ _ hn, Nat.add_comm]
  have hleft : ∀ s, ∀ i ∈ List.range k, f s (((l ++ l').drop (n * i)).take n) =
      f s ((l.drop (n * i)).take n) := by
    intro s i hi
    have hroom : n * i + n ≤ l.length := by
      rw [hk, ← Nat.mul_succ]
      exact Nat.mul_le_mul_left n (List.mem_range.mp hi)
    rw [List.drop_append_of_le_length (by omega), List.take_append_of_le_length]
    rw [List.length_drop]
    omega
  have hright : ∀ s, ∀ i ∈ List.range (l'.length / n),
      f s (((l ++ l').drop (n * (k + i))).take n) = f s ((l'.drop (n * i)).take n) := by
    intro s i _
    rw [Nat.mul_add, ← hk, List.drop_length_add_append]
  rw [foldBlocks, hdiv, List.range_add, List.foldl_append, List.foldl_map, foldBlocks, foldBlocks,
    hk, Nat.mul_div_cancel_left k hn, List.foldl_ext _ _ _ hleft, List.foldl_ext _ _ _ hright]

/-- The same blocks, seen as longer lists. -/
theorem foldBlocks_map {τ β : Type*} {g : τ → List β → τ} {k : Nat} (hk : 0 < k)
    {r : σ → τ} {bits : List α → List β} (hlen : ∀ l, (bits l).length = k * l.length)
    (hdrop : ∀ l i, (bits l).drop (k * i) = bits (l.drop i))
    (htake : ∀ l i, (bits l).take (k * i) = bits (l.take i))
    (hstep : ∀ s l, l.length = n → r (f s l) = g (r s) (bits l)) (s : σ) (l : List α) :
    r (foldBlocks f n s l) = foldBlocks g (k * n) (r s) (bits l) := by
  have hblocks (is : List Nat) (his : ∀ i ∈ is, i < l.length / n) (s : σ) :
      r (is.foldl (fun s i => f s ((l.drop (n * i)).take n)) s) =
        is.foldl (fun s i => g s (((bits l).drop (k * n * i)).take (k * n))) (r s) := by
    induction is generalizing s with
    | nil => rfl
    | cons i is ih =>
      rw [List.forall_mem_cons] at his
      have hroom : n * i + n ≤ l.length := by
        rw [← Nat.mul_succ]
        exact Nat.le_trans (Nat.mul_le_mul_left n his.1) (Nat.mul_div_le _ _)
      rw [List.foldl_cons, List.foldl_cons, ih his.2, hstep, Nat.mul_assoc, hdrop, htake]
      rw [List.length_take, List.length_drop]
      omega
  rw [foldBlocks, foldBlocks, hlen, Nat.mul_div_mul_left _ _ hk,
    hblocks _ fun i hi => List.mem_range.mp hi]

/-! ## Streams -/

/-- A stream that started with `s₀` and has taken `l`: whole blocks of it are in the state `s`, and
the rest waits in `buffer`. -/
structure Taken (s₀ : σ) (l : List α) (s : σ) (buffer : List α) : Prop where
  lt : buffer.length < n
  blocks : ∃ whole, l = whole ++ buffer ∧ n ∣ whole.length ∧ s = foldBlocks f n s₀ whole

variable {f n} {s₀ s s' : σ} {l part buffer buffer' : List α}

theorem taken_nil (hn : 0 < n) : Taken f n s₀ [] s₀ [] :=
  ⟨hn, [], rfl, Nat.dvd_zero n, (foldBlocks_of_lt f n (l := []) hn s₀).symm⟩

/-- Elements that do not complete the block wait. -/
theorem Taken.wait (h : Taken f n s₀ l s buffer) (hlt : (buffer ++ part).length < n) :
    Taken f n s₀ (l ++ part) s (buffer ++ part) := by
  obtain ⟨-, whole, rfl, hdvd, hs⟩ := h
  exact ⟨hlt, whole, List.append_assoc .., hdvd, hs⟩

/-- A complete block goes into the state. -/
theorem Taken.complete (h : Taken f n s₀ l s buffer) (hlen : (buffer ++ part).length = n) :
    Taken f n s₀ (l ++ part) (f s (buffer ++ part)) [] := by
  obtain ⟨hlt, whole, rfl, hdvd, rfl⟩ := h
  have hn : 0 < n := Nat.zero_lt_of_lt hlt
  refine ⟨hn, whole ++ (buffer ++ part), by simp, ?_, ?_⟩
  · rw [List.length_append, hlen]
    exact (Nat.dvd_add_self_right).mpr hdvd
  · rw [foldBlocks_append f n hn hdvd, foldBlocks_block f n hn hlen]

/-- What is appended to the buffer is appended to the list. -/
theorem Taken.foldBlocks_append (h : Taken f n s₀ l s buffer) (rest : List α) :
    foldBlocks f n s₀ (l ++ rest) = foldBlocks f n s (buffer ++ rest) := by
  obtain ⟨hlt, whole, rfl, hdvd, rfl⟩ := h
  rw [List.append_assoc, Lib.foldBlocks_append f n (Nat.zero_lt_of_lt hlt) hdvd]

/-- The list alone says what the stream holds. -/
theorem Taken.ext (h : Taken f n s₀ l s buffer) (h' : Taken f n s₀ l s' buffer') :
    s = s' ∧ buffer = buffer' := by
  have hlength {s : σ} {buffer : List α} (h : Taken f n s₀ l s buffer) :
      buffer = l.drop (n * (l.length / n)) := by
    obtain ⟨hlt, whole, rfl, ⟨k, hk⟩, -⟩ := h
    rw [List.length_append, hk, Nat.mul_add_div (Nat.zero_lt_of_lt hlt), Nat.div_eq_of_lt hlt,
      Nat.add_zero, ← hk, List.drop_left]
  have hstate {s : σ} {buffer : List α} (h : Taken f n s₀ l s buffer) :
      s = foldBlocks f n s₀ l := by
    rw [← List.append_nil l, h.foldBlocks_append, List.append_nil, foldBlocks_of_lt f n h.lt]
  exact ⟨(hstate h).trans (hstate h').symm, (hlength h).trans (hlength h').symm⟩

end Mpubsub.Lib
