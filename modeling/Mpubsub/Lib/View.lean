import Mpubsub.Lib.Bytes

/-!
# Views with checked slice expressions

A view is a part of a buffer, and never leaves it. Indices and lengths are machine integers of 64
bits, which wrap; a slice expression with indices out of range is `none`. As long as the buffer
has a length of 63 bits, a slice expression on natural numbers in range is there
(`exists_slice`).
-/

namespace Mpubsub.Lib

/-- A part of a buffer. -/
structure View (buf : Bytes) where
  lo : Nat
  hi : Nat
  ordered : lo ≤ hi
  inside : hi ≤ buf.length

namespace View

variable {buf : Bytes} (v : View buf)

/-- All of a buffer. -/
def whole (buf : Bytes) : View buf := ⟨0, buf.length, Nat.zero_le _, Nat.le_refl _⟩

def bytes : Bytes := (buf.drop v.lo).take (v.hi - v.lo)

/-- The length, as a machine integer. -/
def len : Int64 := Int64.ofNat (v.hi - v.lo)

/-- The slice from `a` up to `b`, where `0 ≤ a ≤ b` and `b` is at most the length. -/
def slice (a b : Int64) : Option (View buf) :=
  if h : 0 ≤ a.toInt ∧ a.toInt ≤ b.toInt ∧ b.toInt ≤ (v.hi - v.lo : Nat) then
    some ⟨v.lo + a.toInt.toNat, v.lo + b.toInt.toNat, by omega, by
      have := v.ordered
      have := v.inside
      omega⟩
  else none

@[simp] theorem bytes_whole : (whole buf).bytes = buf := List.take_length

@[simp] theorem length_bytes : v.bytes.length = v.hi - v.lo := by
  have := v.inside
  rw [bytes, List.length_take, List.length_drop]
  omega

theorem bytes_infix : v.bytes <:+: buf :=
  (List.take_prefix _ _).isInfix.trans (List.drop_suffix _ _).isInfix

theorem len_eq : v.len = Int64.ofNat v.bytes.length := by
  rw [length_bytes, len]

theorem length_bytes_le : v.bytes.length ≤ buf.length := v.bytes_infix.length_le

theorem exists_slice (hbuf : buf.length < 2 ^ 63) {a b : Nat} (hab : a ≤ b)
    (hb : b ≤ v.bytes.length) :
    ∃ w, v.slice (Int64.ofNat a) (Int64.ofNat b) = some w ∧
      w.bytes = (v.bytes.drop a).take (b - a) := by
  have hle := v.length_bytes_le
  have ha : (Int64.ofNat a).toInt = a := Int64.toInt_ofNat_of_lt (by omega)
  have hb' : (Int64.ofNat b).toInt = b := Int64.toInt_ofNat_of_lt (by omega)
  rw [length_bytes] at hb
  refine ⟨_, dif_pos (by omega), ?_⟩
  simp only [bytes, ha, hb', Int.toNat_natCast, List.drop_take, List.drop_drop, List.take_take]
  congr 1
  omega

/-- The slice from `a` on. -/
theorem exists_slice_len (hbuf : buf.length < 2 ^ 63) {a : Nat} (ha : a ≤ v.bytes.length) :
    ∃ w, v.slice (Int64.ofNat a) v.len = some w ∧ w.bytes = v.bytes.drop a := by
  obtain ⟨w, hw, hbytes⟩ := v.exists_slice hbuf ha (Nat.le_refl _)
  refine ⟨w, v.len_eq ▸ hw, ?_⟩
  rw [hbytes, List.take_of_length_le (by rw [List.length_drop])]

end View

end Mpubsub.Lib
