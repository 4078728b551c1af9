import Mathlib.Data.FinEnum
import Mathlib.Data.List.GetD

/-!
# Reflected CRC registers

A register of `w` bits is stepped through a reflected polynomial: shift right
by one and xor the polynomial in when a one falls out. A byte is xored into the
low end and followed by eight steps.

Steps are linear over xor (`bitStep_xor`) and, when the polynomial has its top
bit set, invertible (`bitStep_surjective`). Bytes that have not reached the low
end yet are only shifted, so feeding the bytes of a word is the same as xoring
the whole word in and stepping afterwards (`feed_eq_steps`). Hence every value
of the register is reached by some `w / 8` bytes (`exists_feed_eq`).
-/

namespace Mpubsub.Lib.Crc

variable {w : Nat} (poly : BitVec w)

/-- One step of the register. -/
def bitStep (x : BitVec w) : BitVec w :=
  (x >>> 1) ^^^ (if x.getLsbD 0 then poly else 0#w)

/-- `n` steps of the register. -/
def steps : Nat → BitVec w → BitVec w
  | 0, x => x
  | n + 1, x => steps n (bitStep poly x)

/-- Feed bytes into the register. -/
def feed (x : BitVec w) (bytes : List (BitVec 8)) : BitVec w :=
  bytes.foldl (fun x c => steps poly 8 (x ^^^ c.setWidth w)) x

/-- CRC-32 as in IEEE 802.3, the checksum of `zlib.crc32` and Go's `crc32.ChecksumIEEE`: the
register is complemented before and after. -/
def crc32 (bytes : List (BitVec 8)) : BitVec 32 :=
  ~~~feed 0xEDB88320#32 (BitVec.allOnes 32) bytes

theorem steps_add (m n : Nat) (x : BitVec w) :
    steps poly (m + n) x = steps poly n (steps poly m x) := by
  induction m generalizing x with
  | zero => rw [Nat.zero_add]; rfl
  | succ m ih => rw [Nat.succ_add]; exact ih _

/-! ## Linearity -/

theorem bitStep_xor (x y : BitVec w) :
    bitStep poly (x ^^^ y) = bitStep poly x ^^^ bitStep poly y := by
  unfold bitStep
  rw [BitVec.ushiftRight_xor_distrib, BitVec.getLsbD_xor]
  cases x.getLsbD 0 <;> cases y.getLsbD 0
  · simp
  · simp [BitVec.xor_assoc]
  · simp only [Bool.xor_false, if_true, Bool.false_eq_true, if_false, BitVec.xor_zero]
    rw [BitVec.xor_assoc, BitVec.xor_assoc, BitVec.xor_comm _ poly]
  · simp only [Bool.xor_self, Bool.false_eq_true, if_false, if_true, BitVec.xor_zero]
    rw [BitVec.xor_assoc, BitVec.xor_comm poly, BitVec.xor_assoc, BitVec.xor_self,
      BitVec.xor_zero]

theorem steps_xor (n : Nat) (x y : BitVec w) :
    steps poly n (x ^^^ y) = steps poly n x ^^^ steps poly n y := by
  induction n generalizing x y with
  | zero => rfl
  | succ n ih => rw [steps, bitStep_xor, ih]; rfl

/-! ## Invertibility -/

variable {poly}

/-- Only zero steps to zero: a polynomial that was xored in shows in the top bit. -/
theorem eq_zero_of_bitStep_eq_zero (hpoly : poly.msb = true) {x : BitVec w}
    (h : bitStep poly x = 0#w) : x = 0#w := by
  have hbit (i : Nat) : (x.getLsbD (1 + i) ^^ (x.getLsbD 0 && poly.getLsbD i)) = false := by
    have := congrArg (fun y => BitVec.getLsbD y i) h
    unfold bitStep at this
    cases hx : x.getLsbD 0 <;> simpa [hx] using this
  have hlow : x.getLsbD 0 = false := by
    cases hx : x.getLsbD 0 with
    | false => rfl
    | true =>
      have hw := hbit (w - 1)
      rw [hx, ← BitVec.msb_eq_getLsbD_last, hpoly, BitVec.getLsbD_of_ge _ _ (by omega)] at hw
      exact absurd hw (by decide)
  apply BitVec.eq_of_getLsbD_eq
  intro i _
  cases i with
  | zero => rw [hlow]; simp
  | succ i =>
    have hi := hbit i
    rw [hlow, Bool.false_and, Bool.xor_false, Nat.add_comm] at hi
    rw [hi]
    simp

theorem bitStep_injective (hpoly : poly.msb = true) : Function.Injective (bitStep poly) := by
  intro x y h
  have hzero : x ^^^ y = 0#w :=
    eq_zero_of_bitStep_eq_zero hpoly (by rw [bitStep_xor, h, BitVec.xor_self])
  exact BitVec.xor_eq_zero_iff.mp hzero

theorem steps_surjective (hpoly : poly.msb = true) (n : Nat) :
    Function.Surjective (steps poly n) := by
  have hone : Function.Surjective (bitStep poly) :=
    Finite.surjective_of_injective (bitStep_injective hpoly)
  induction n with
  | zero => exact fun y => ⟨y, rfl⟩
  | succ n ih =>
    intro y
    obtain ⟨z, rfl⟩ := ih y
    obtain ⟨x, rfl⟩ := hone z
    exact ⟨x, rfl⟩

/-! ## Feeding a word -/

/-- Bits that do not reach the low end are only shifted. -/
theorem steps_shiftLeft (n : Nat) {y : BitVec w} (hy : y <<< n >>> n = y) :
    steps poly n (y <<< n) = y := by
  induction n with
  | zero => simp [steps]
  | succ n ih =>
    have hbits (i : Nat) : y.getLsbD i = (decide (n + 1 + i < w) && y.getLsbD i) := by
      conv_lhs => rw [← hy]
      simp [show ¬n + 1 + i < n + 1 by omega]
    have hstep : bitStep poly (y <<< (n + 1)) = y <<< n := by
      unfold bitStep
      apply BitVec.eq_of_getLsbD_eq
      intro i hi
      by_cases hlow : i < n
      · simp [show 1 + i < n + 1 by omega, hlow]
      · have hsub : 1 + i - (n + 1) = i - n := by omega
        have hin := hbits (i - n)
        rw [show n + 1 + (i - n) = 1 + i by omega] at hin
        simp only [BitVec.getLsbD_xor, BitVec.getLsbD_ushiftRight, BitVec.getLsbD_shiftLeft, hsub,
          hi, hlow, show ¬1 + i < n + 1 by omega]
        rw [hin]
        simp
    rw [steps, hstep]
    apply ih
    apply BitVec.eq_of_getLsbD_eq
    intro i _
    rw [BitVec.getLsbD_ushiftRight, BitVec.getLsbD_shiftLeft, Nat.add_sub_cancel_left, hbits i]
    by_cases hi : n + 1 + i < w
    · simp [hi, show n + i < w by omega]
    · simp [hi]

/-- The word whose little-endian bytes are given. -/
def ofBytes (w : Nat) : List (BitVec 8) → BitVec w
  | [] => 0#w
  | c :: cs => c.setWidth w ^^^ (ofBytes w cs <<< 8)

theorem getLsbD_ofBytes (cs : List (BitVec 8)) (i : Nat) :
    (ofBytes w cs).getLsbD i = (decide (i < w) && (cs.getD (i / 8) 0#8).getLsbD (i % 8)) := by
  induction cs generalizing i with
  | nil => simp [ofBytes]
  | cons c cs ih =>
    simp only [ofBytes, BitVec.getLsbD_xor, BitVec.getLsbD_setWidth, BitVec.getLsbD_shiftLeft, ih]
    by_cases hlow : i < 8
    · rw [Nat.div_eq_of_lt hlow, Nat.mod_eq_of_lt hlow]
      simp [hlow]
    · rw [BitVec.getLsbD_of_ge c i (by omega), show i / 8 = (i - 8) / 8 + 1 by omega,
        show i % 8 = (i - 8) % 8 by omega, List.getD_cons_succ]
      by_cases hi : i < w
      · simp [hi, hlow, show i - 8 < w by omega]
      · simp [hi]

/-- Every word of `8 * n` bits has `n` bytes. -/
theorem exists_ofBytes_eq (n : Nat) (v : BitVec (8 * n)) :
    ∃ cs : List (BitVec 8), cs.length = n ∧ ofBytes (8 * n) cs = v := by
  refine ⟨(List.range n).map fun k => (v >>> (8 * k)).setWidth 8, by simp, ?_⟩
  apply BitVec.eq_of_getLsbD_eq
  intro i hi
  rw [getLsbD_ofBytes, List.getD_eq_getElem _ _ (by simp; omega)]
  simp only [List.getElem_map, List.getElem_range, BitVec.getLsbD_setWidth,
    BitVec.getLsbD_ushiftRight, show 8 * (i / 8) + i % 8 = i by omega]
  simp [hi, show i % 8 < 8 by omega]

/-- Feeding bytes is xoring their word in and stepping afterwards, as long as the
word has room for them. -/
theorem feed_eq_steps (cs : List (BitVec 8)) (hroom : 8 * cs.length ≤ w) (x : BitVec w) :
    feed poly x cs = steps poly (8 * cs.length) (x ^^^ ofBytes w cs) := by
  induction cs generalizing x with
  | nil => simp [feed, ofBytes, steps]
  | cons c cs ih =>
    rw [List.length_cons] at hroom
    have hfit : ofBytes w cs <<< 8 >>> 8 = ofBytes w cs := by
      apply BitVec.eq_of_getLsbD_eq
      intro i hi
      simp only [BitVec.getLsbD_ushiftRight, BitVec.getLsbD_shiftLeft, getLsbD_ofBytes]
      by_cases htop : i / 8 < cs.length
      · simp [show 8 + i < w by omega, show ¬8 + i < 8 by omega, hi]
      · rw [List.getD_eq_default _ _ (by omega), Nat.add_sub_cancel_left,
          List.getD_eq_default _ _ (by omega)]
        simp
    have hcons : feed poly x (c :: cs) = feed poly (steps poly 8 (x ^^^ c.setWidth w)) cs := rfl
    rw [hcons, ih (by omega), List.length_cons, Nat.mul_succ, Nat.add_comm, steps_add, ofBytes,
      ← BitVec.xor_assoc, steps_xor poly 8 _ (ofBytes w cs <<< 8), steps_shiftLeft 8 hfit]

/-- **Reachability.** Whatever the register holds, some `n` bytes bring it to any
value. -/
theorem exists_feed_eq (n : Nat) {poly : BitVec (8 * n)} (hpoly : poly.msb = true)
    (x target : BitVec (8 * n)) :
    ∃ cs : List (BitVec 8), cs.length = n ∧ feed poly x cs = target := by
  obtain ⟨y, hy⟩ := steps_surjective hpoly (8 * n) target
  obtain ⟨cs, hlen, hcs⟩ := exists_ofBytes_eq n (x ^^^ y)
  refine ⟨cs, hlen, ?_⟩
  rw [feed_eq_steps cs (by omega), hlen, hcs, ← BitVec.xor_assoc, BitVec.xor_self,
    BitVec.zero_xor, hy]

end Mpubsub.Lib.Crc
