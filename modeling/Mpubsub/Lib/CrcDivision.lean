import Mpubsub.Lib.Crc
import Mathlib.RingTheory.AdjoinRoot
import Mathlib.Algebra.Field.ZMod

/-!
# CRC registers and division of polynomials

A reflected register is read as a polynomial over the field of two elements: bit 0 is its highest
coefficient. A step multiplies by `X` and takes the remainder (`mk_toPoly_bitStep`), so that
feeding bytes is the division of the message, shifted by the width, with the register's first
value added to its front (`toPoly_feed`).
-/

namespace Mpubsub.Lib.Crc

open Polynomial

variable {w : Nat}

/-- The polynomial of a register. -/
noncomputable def toPoly (x : BitVec w) : (ZMod 2)[X] :=
  ∑ i ∈ Finset.range w, if x.getLsbD i then X ^ (w - 1 - i) else 0

/-- The polynomial of a message: the bits in the order of transmission, the highest coefficient
first. -/
noncomputable def messagePoly : List (BitVec 8) → (ZMod 2)[X]
  | [] => 0
  | c :: cs => X ^ (8 * cs.length) * toPoly c + messagePoly cs

/-- The polynomial by which a register divides. -/
noncomputable def generator (poly : BitVec w) : (ZMod 2)[X] := X ^ w + toPoly poly

theorem coeff_toPoly (x : BitVec w) (j : Nat) :
    (toPoly x).coeff j = if j < w ∧ x.getLsbD (w - 1 - j) then 1 else 0 := by
  rw [toPoly, finsetSum_coeff]
  by_cases hj : j < w
  · rw [Finset.sum_eq_single (w - 1 - j)]
    · have hback : w - 1 - (w - 1 - j) = j := by omega
      cases h : x.getLsbD (w - 1 - j) <;> simp [hj, hback]
    · intro i hi hne
      have hi := Finset.mem_range.mp hi
      have hne : j ≠ w - 1 - i := by omega
      cases x.getLsbD i <;> simp [coeff_X_pow, hne]
    · intro hout
      exact absurd (Finset.mem_range.mpr (by omega)) hout
  · rw [if_neg (fun h => hj h.1)]
    refine Finset.sum_eq_zero fun i hi => ?_
    have hi := Finset.mem_range.mp hi
    have hne : j ≠ w - 1 - i := by omega
    cases x.getLsbD i <;> simp [coeff_X_pow, hne]

theorem degree_toPoly_lt (x : BitVec w) : (toPoly x).degree < w := by
  rw [degree_lt_iff_coeff_zero]
  intro j hj
  rw [coeff_toPoly, if_neg]
  omega

theorem toPoly_injective : Function.Injective (toPoly (w := w)) := by
  intro x y h
  apply BitVec.eq_of_getLsbD_eq
  intro i hi
  have hcoeff := congrArg (fun p => p.coeff (w - 1 - i)) h
  have hback : w - 1 - (w - 1 - i) = i := by omega
  simp only [coeff_toPoly, hback, show w - 1 - i < w by omega, true_and] at hcoeff
  revert hcoeff
  cases x.getLsbD i <;> cases y.getLsbD i <;> simp

theorem toPoly_xor (x y : BitVec w) : toPoly (x ^^^ y) = toPoly x + toPoly y := by
  ext j
  rw [coeff_add, coeff_toPoly, coeff_toPoly, coeff_toPoly, BitVec.getLsbD_xor]
  by_cases hj : j < w
  · cases x.getLsbD (w - 1 - j) <;> cases y.getLsbD (w - 1 - j) <;>
      simp [hj, CharTwo.add_self_eq_zero]
  · simp [hj]

theorem toPoly_zero : toPoly (0#w) = 0 := by
  ext j
  rw [coeff_toPoly, coeff_zero, if_neg]
  simp

/-- A shift to the right multiplies by `X`, apart from the bit that falls out. -/
theorem X_mul_toPoly (x : BitVec w) :
    X * toPoly x = toPoly (x >>> 1) + if x.getLsbD 0 then X ^ w else 0 := by
  have hlast : (if x.getLsbD 0 then (X : (ZMod 2)[X]) ^ w else 0) =
      C (if x.getLsbD 0 then 1 else 0) * X ^ w := by
    split <;> simp
  rw [hlast]
  ext j
  rw [coeff_add, coeff_C_mul, coeff_X_pow, coeff_toPoly, BitVec.getLsbD_ushiftRight]
  cases j with
  | zero =>
    rw [mul_coeff_zero, coeff_X_zero, zero_mul]
    cases w with
    | zero => simp
    | succ w => simp
  | succ j =>
    rw [coeff_X_mul, coeff_toPoly]
    rcases Nat.lt_trichotomy (j + 1) w with hlt | heq | hgt
    · have hindex : 1 + (w - 1 - (j + 1)) = w - 1 - j := by omega
      simp [hlt, hindex, show j < w by omega, show j + 1 ≠ w by omega]
    · subst heq
      simp
    · simp [show ¬j < w by omega, show ¬j + 1 < w by omega, show j + 1 ≠ w by omega]

/-- A byte in the low end of a register stands in its highest coefficients. -/
theorem toPoly_setWidth (hw : 8 ≤ w) (c : BitVec 8) :
    toPoly (c.setWidth w) = X ^ (w - 8) * toPoly c := by
  ext j
  rw [coeff_X_pow_mul', coeff_toPoly, coeff_toPoly, BitVec.getLsbD_setWidth]
  by_cases hj : w - 8 ≤ j
  · have hindex : 8 - 1 - (j - (w - 8)) = w - 1 - j := by omega
    have hlt : w - 1 - j < w := by omega
    by_cases hjw : j < w
    · simp [hj, hjw, hindex, hlt, show j - (w - 8) < 8 by omega]
    · simp [hj, hjw, show ¬j - (w - 8) < 8 by omega]
  · simp [hj, BitVec.getLsbD_of_ge c (w - 1 - j) (by omega)]

/-! ## Division -/

variable (poly : BitVec w)

theorem monic_generator : (generator poly).Monic := monic_X_pow_add (degree_toPoly_lt poly)

theorem degree_generator : (generator poly).degree = w := by
  have hlt : (toPoly poly).degree < ((X : (ZMod 2)[X]) ^ w).degree := by
    rw [degree_X_pow]
    exact degree_toPoly_lt poly
  rw [generator, degree_add_eq_left_of_degree_lt hlt, degree_X_pow]

/-- A step multiplies by `X`, up to the generator. -/
theorem mk_toPoly_bitStep (x : BitVec w) :
    AdjoinRoot.mk (generator poly) (toPoly (bitStep poly x)) =
      AdjoinRoot.mk (generator poly) (X * toPoly x) := by
  have hsum : X * toPoly x =
      toPoly (bitStep poly x) + if x.getLsbD 0 then generator poly else 0 := by
    rw [X_mul_toPoly, bitStep, toPoly_xor, generator]
    cases x.getLsbD 0 with
    | false => simp [toPoly_zero]
    | true =>
      have htwice : toPoly poly + toPoly poly = 0 := CharTwo.add_self_eq_zero _
      simp only [if_true]
      linear_combination -htwice
  rw [hsum, map_add]
  split
  · rw [AdjoinRoot.mk_self, add_zero]
  · rw [map_zero, add_zero]

theorem mk_toPoly_steps (n : Nat) (x : BitVec w) :
    AdjoinRoot.mk (generator poly) (toPoly (steps poly n x)) =
      AdjoinRoot.mk (generator poly) (X ^ n * toPoly x) := by
  induction n generalizing x with
  | zero => rw [pow_zero, one_mul, steps]
  | succ n ih =>
    rw [steps, ih, map_mul, mk_toPoly_bitStep, ← map_mul, pow_succ, mul_assoc]

theorem mk_toPoly_feed (hw : 8 ≤ w) (cs : List (BitVec 8)) (x : BitVec w) :
    AdjoinRoot.mk (generator poly) (toPoly (feed poly x cs)) =
      AdjoinRoot.mk (generator poly)
        (X ^ (8 * cs.length) * toPoly x + X ^ w * messagePoly cs) := by
  induction cs generalizing x with
  | nil => simp [feed, messagePoly]
  | cons c cs ih =>
    have hcons : feed poly x (c :: cs) = feed poly (steps poly 8 (x ^^^ c.setWidth w)) cs := rfl
    -- Eight steps bring the byte from the highest coefficients to the end of the register.
    have hshift : (X : (ZMod 2)[X]) ^ w = X ^ 8 * X ^ (w - 8) := by
      rw [← pow_add, Nat.add_sub_cancel' hw]
    rw [hcons, ih, map_add, map_mul, mk_toPoly_steps, ← map_mul, ← map_add, toPoly_xor,
      toPoly_setWidth hw, messagePoly, List.length_cons, Nat.mul_succ, pow_add]
    refine congrArg (AdjoinRoot.mk (generator poly)) ?_
    rw [hshift]
    ring

/-- **Division.** A register that is fed holds the remainder of the message behind which it has
room, with what it held first on top. -/
theorem toPoly_feed (hw : 8 ≤ w) (cs : List (BitVec 8)) (x : BitVec w) :
    toPoly (feed poly x cs) =
      (X ^ (8 * cs.length) * toPoly x + X ^ w * messagePoly cs) %ₘ generator poly := by
  have hdvd := AdjoinRoot.mk_eq_mk.mp (mk_toPoly_feed poly hw cs x)
  have hself : toPoly (feed poly x cs) %ₘ generator poly = toPoly (feed poly x cs) := by
    rw [modByMonic_eq_self_iff (monic_generator poly), degree_generator]
    exact degree_toPoly_lt _
  rw [← hself, modByMonic_eq_of_dvd_sub (monic_generator poly) hdvd]

/-! ## CRC-32/IEEE -/

/-- The polynomial of IEEE 802.3. -/
noncomputable def ieeePoly : (ZMod 2)[X] :=
  X ^ 32 + X ^ 26 + X ^ 23 + X ^ 22 + X ^ 16 + X ^ 12 + X ^ 11 + X ^ 10 + X ^ 8 + X ^ 7 + X ^ 5 +
    X ^ 4 + X ^ 2 + X + 1

/-- The remainder of a message behind which 32 bits are appended, and of which the first 32 bits
are complemented. -/
noncomputable def ieeeRemainder (bytes : List (BitVec 8)) : (ZMod 2)[X] :=
  (X ^ (8 * bytes.length) * ∑ i ∈ Finset.range 32, X ^ i + X ^ 32 * messagePoly bytes) %ₘ ieeePoly

theorem generator_ieee : generator 0xEDB88320#32 = ieeePoly := by
  have hbits : toPoly 0xEDB88320#32 = X ^ 26 + X ^ 23 + X ^ 22 + X ^ 16 + X ^ 12 + X ^ 11 + X ^ 10 +
      X ^ 8 + X ^ 7 + X ^ 5 + X ^ 4 + X ^ 2 + X + 1 := by
    simp [toPoly, Finset.sum_range_succ]
  rw [generator, hbits, ieeePoly]
  ring

theorem toPoly_allOnes : toPoly (BitVec.allOnes w) = ∑ i ∈ Finset.range w, X ^ i := by
  rw [toPoly, ← Finset.sum_range_reflect (fun i => X ^ i)]
  refine Finset.sum_congr rfl fun i hi => ?_
  rw [BitVec.getLsbD_allOnes, decide_eq_true (Finset.mem_range.mp hi), if_pos rfl]

/-- The complement of the CRC is the remainder. -/
theorem toPoly_crc32 (bytes : List (BitVec 8)) :
    toPoly (~~~crc32 bytes) = ieeeRemainder bytes := by
  rw [crc32, BitVec.not_not, toPoly_feed _ (by decide), generator_ieee, toPoly_allOnes,
    ieeeRemainder]

end Mpubsub.Lib.Crc
