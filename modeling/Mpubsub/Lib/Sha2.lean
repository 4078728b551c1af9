import Mpubsub.Lib.Blocks
import Mathlib.Data.List.GetD
import Mathlib.Data.Nat.NthRoot.Defs

/-!
# SHA-256 as FIPS 180-4 has it

A message is a list of bits, and so is its digest. The constants are the fractional parts of roots
of primes, as the standard introduces them. A length of `2 ^ 64` bits or more, for which the
standard gives no digest, is cut down to 64 bits.
-/

namespace Mpubsub.Lib.Sha2

abbrev Word := BitVec 32

/-! ## Functions (4.1.2) -/

def ch (x y z : Word) : Word := (x &&& y) ^^^ (~~~x &&& z)
def maj (x y z : Word) : Word := (x &&& y) ^^^ (x &&& z) ^^^ (y &&& z)
def bigSigma0 (x : Word) : Word := x.rotateRight 2 ^^^ x.rotateRight 13 ^^^ x.rotateRight 22
def bigSigma1 (x : Word) : Word := x.rotateRight 6 ^^^ x.rotateRight 11 ^^^ x.rotateRight 25
def sigma0 (x : Word) : Word := x.rotateRight 7 ^^^ x.rotateRight 18 ^^^ (x >>> 3)
def sigma1 (x : Word) : Word := x.rotateRight 17 ^^^ x.rotateRight 19 ^^^ (x >>> 10)

/-! ## Constants (4.2.2, 5.3.3) -/

/-- The first 32 bits of the fractional part of the `n`-th root of `p`. -/
def rootBits (n p : Nat) : Word := BitVec.ofNat 32 (Nat.nthRoot n (p * 2 ^ (32 * n)))

/-- The first 64 primes: what no smaller number from 2 on divides, up to 311. -/
def primes : List Nat :=
  (List.range' 2 310).filter fun p => (List.range' 2 (p - 2)).all fun d => p % d != 0

/-- The constants `K`, from cube roots. -/
def constants : List Word := primes.map (rootBits 3)

/-- A hash value, or the working variables. -/
structure Vars where
  a : Word
  b : Word
  c : Word
  d : Word
  e : Word
  f : Word
  g : Word
  h : Word
deriving DecidableEq

/-- The initial hash value, from square roots. -/
def initial : Vars :=
  ⟨rootBits 2 2, rootBits 2 3, rootBits 2 5, rootBits 2 7, rootBits 2 11, rootBits 2 13,
    rootBits 2 17, rootBits 2 19⟩

/-! ## Padding (5.1.1) and parsing (5.2.1) -/

/-- The bits of a word, the most significant one first. -/
def bitsOf {w : Nat} (x : BitVec w) : List Bool := (List.range w).map x.getMsbD

/-- The word of 32 bits. -/
def wordOf (bits : List Bool) : Word := (BitVec.ofBoolListBE bits).setWidth 32

/-- The number of zeros for a message of `len` bits. -/
def zeros (len : Nat) : Nat := (959 - len % 512) % 512

/-- One bit, zeros, and the length of the message. -/
def pad (message : List Bool) : List Bool :=
  message ++ true :: List.replicate (zeros message.length) false ++
    bitsOf (BitVec.ofNat 64 message.length)

/-- The words of a block. -/
def wordsOf (block : List Bool) (t : Nat) : Word := wordOf ((block.drop (32 * t)).take 32)

/-! ## Computation (6.2.2) -/

/-- The message schedule. -/
def schedule (words : Nat → Word) (t : Nat) : Word :=
  if t < 16 then words t
  else sigma1 (schedule words (t - 2)) + schedule words (t - 7) +
    sigma0 (schedule words (t - 15)) + schedule words (t - 16)

def round (words : Nat → Word) (v : Vars) (t : Nat) : Vars :=
  let t1 := v.h + bigSigma1 v.e + ch v.e v.f v.g + constants.getD t 0 + schedule words t
  let t2 := bigSigma0 v.a + maj v.a v.b v.c
  { a := t1 + t2, b := v.a, c := v.b, d := v.c, e := v.d + t1, f := v.e, g := v.f, h := v.g }

/-- The next hash value, from a block. -/
def compress (v : Vars) (block : List Bool) : Vars :=
  let r := (List.range 64).foldl (round (wordsOf block)) v
  ⟨r.a + v.a, r.b + v.b, r.c + v.c, r.d + v.d, r.e + v.e, r.f + v.f, r.g + v.g, r.h + v.h⟩

def Vars.bits (v : Vars) : List Bool :=
  bitsOf v.a ++ bitsOf v.b ++ bitsOf v.c ++ bitsOf v.d ++ bitsOf v.e ++ bitsOf v.f ++ bitsOf v.g ++
    bitsOf v.h

/-- The digest of a message. -/
def sha256 (message : List Bool) : List Bool := (foldBlocks compress 512 initial (pad message)).bits

/-! ## Bits -/

variable {w : Nat}

@[simp] theorem length_bitsOf (x : BitVec w) : (bitsOf x).length = w := by simp [bitsOf]

theorem getElem_bitsOf (x : BitVec w) {i : Nat} (h : i < (bitsOf x).length) :
    (bitsOf x)[i] = x.getMsbD i := by
  simp [bitsOf]

theorem bitsOf_injective : Function.Injective (bitsOf (w := w)) := by
  intro x y h
  apply BitVec.eq_of_getMsbD_eq
  intro i hi
  have hbit := congrArg (fun l : List Bool => l[i]?) h
  simpa [bitsOf, hi] using hbit

/-- Words are put together as their bits are. -/
theorem bitsOf_append {m n : Nat} (x : BitVec m) (y : BitVec n) :
    bitsOf (x ++ y) = bitsOf x ++ bitsOf y := by
  apply List.ext_getElem
  · simp
  · intro i hi hi'
    rw [getElem_bitsOf, BitVec.getMsbD_append, List.getElem_append]
    by_cases hlt : i < m
    · rw [if_neg (Nat.not_le.mpr hlt), dif_pos (by simpa using hlt), getElem_bitsOf]
    · rw [if_pos (Nat.not_lt.mp hlt), dif_neg (by simpa using hlt), getElem_bitsOf, length_bitsOf]

@[simp] theorem wordOf_bitsOf (x : Word) : wordOf (bitsOf x) = x := by
  apply BitVec.eq_of_getMsbD_eq
  intro i hi
  rw [wordOf, BitVec.getMsbD_setWidth, BitVec.getMsbD_ofBoolListBE, length_bitsOf]
  rw [List.getD_eq_getElem _ _ (by simpa using hi), getElem_bitsOf]
  simp

/-! ## Bytes -/

/-- The bits of a message of bytes. -/
def bitsOfBytes (data : List UInt8) : List Bool := data.flatMap fun b => bitsOf b.toBitVec

theorem bitsOfBytes_cons (b : UInt8) (data : List UInt8) :
    bitsOfBytes (b :: data) = bitsOf b.toBitVec ++ bitsOfBytes data := rfl

theorem bitsOfBytes_append (data data' : List UInt8) :
    bitsOfBytes (data ++ data') = bitsOfBytes data ++ bitsOfBytes data' := List.flatMap_append

@[simp] theorem length_bitsOfBytes (data : List UInt8) :
    (bitsOfBytes data).length = 8 * data.length := by
  induction data with
  | nil => rfl
  | cons b data ih =>
    rw [bitsOfBytes_cons, List.length_append, length_bitsOf, ih, List.length_cons, Nat.mul_succ,
      Nat.add_comm]

theorem bitsOfBytes_injective : Function.Injective bitsOfBytes := by
  intro data data' h
  induction data generalizing data' with
  | nil =>
    have hlen := congrArg List.length h
    rw [length_bitsOfBytes, length_bitsOfBytes] at hlen
    exact (List.length_eq_zero_iff.mp (by simpa using hlen.symm)).symm
  | cons b data ih =>
    cases data' with
    | nil =>
      have hlen := congrArg List.length h
      simp at hlen
    | cons b' data' =>
      rw [bitsOfBytes_cons, bitsOfBytes_cons] at h
      obtain ⟨hb, hdata⟩ := List.append_inj h (by simp)
      rw [UInt8.toBitVec_inj.mp (bitsOf_injective hb), ih hdata]

theorem drop_bitsOfBytes (data : List UInt8) (i : Nat) :
    (bitsOfBytes data).drop (8 * i) = bitsOfBytes (data.drop i) := by
  induction i generalizing data with
  | zero => rfl
  | succ i ih =>
    cases data with
    | nil => simp [bitsOfBytes]
    | cons b data =>
      rw [bitsOfBytes_cons, Nat.mul_succ, Nat.add_comm, ← List.drop_drop,
        List.drop_left' (length_bitsOf _), ih, List.drop_succ_cons]

theorem take_bitsOfBytes (data : List UInt8) (i : Nat) :
    (bitsOfBytes data).take (8 * i) = bitsOfBytes (data.take i) := by
  induction i generalizing data with
  | zero => rfl
  | succ i ih =>
    cases data with
    | nil => simp [bitsOfBytes]
    | cons b data =>
      rw [bitsOfBytes_cons, Nat.mul_succ, Nat.add_comm, List.take_append, List.take_of_length_le,
        length_bitsOf, Nat.add_sub_cancel_left, ih, List.take_succ_cons, bitsOfBytes_cons]
      rw [length_bitsOf]
      exact Nat.le_add_right 8 _

theorem bitsOfBytes_replicate_zero (n : Nat) :
    bitsOfBytes (List.replicate n 0) = List.replicate (8 * n) false := by
  induction n with
  | zero => rfl
  | succ n ih =>
    rw [List.replicate_succ, bitsOfBytes_cons, ih, Nat.mul_succ, Nat.add_comm,
      List.replicate_add]
    congr 1

end Mpubsub.Lib.Sha2
