import Mpubsub.Lib.Bytes
import Mathlib.Tactic.Ring

/-!
# Little-endian numbers

A byte string as a number of any size, and back: `ofBytesLE` and `toBytesLE`
are inverse on numbers that fit (`ofBytesLE_toBytesLE`,
`toBytesLE_ofBytesLE`), and both follow the way a string is put together
(`ofBytesLE_append`, `toBytesLE_add`). The fixed-width words of `Lib.Bytes`
are the four-byte case.
-/

namespace Mpubsub.Lib

/-- The number with the given bytes, lowest first. -/
def ofBytesLE : Bytes → Nat
  | [] => 0
  | b :: bytes => b.toNat + 256 * ofBytesLE bytes

/-- The lowest `n` bytes of a number. -/
def toBytesLE : Nat → Nat → Bytes
  | 0, _ => []
  | n + 1, x => UInt8.ofNat x :: toBytesLE n (x / 256)

@[simp] theorem ofBytesLE_nil : ofBytesLE [] = 0 := rfl

@[simp] theorem ofBytesLE_cons (b : UInt8) (bytes : Bytes) :
    ofBytesLE (b :: bytes) = b.toNat + 256 * ofBytesLE bytes := rfl

theorem ofBytesLE_append (a b : Bytes) :
    ofBytesLE (a ++ b) = ofBytesLE a + 256 ^ a.length * ofBytesLE b := by
  induction a with
  | nil => simp
  | cons x a ih =>
    rw [List.cons_append, ofBytesLE_cons, ofBytesLE_cons, ih, List.length_cons, Nat.pow_succ]
    ring

theorem ofBytesLE_take (bytes : Bytes) (n : Nat) :
    ofBytesLE (bytes.take n) = ofBytesLE bytes % 256 ^ n := by
  induction bytes generalizing n with
  | nil => simp
  | cons b bytes ih =>
    cases n with
    | zero => simp [Nat.mod_one]
    | succ n =>
      have hb : b.toNat < 256 := b.toNat_lt
      rw [List.take_succ_cons, ofBytesLE_cons, ofBytesLE_cons, ih,
        show 256 ^ (n + 1) = 256 * 256 ^ n from Nat.pow_succ', Nat.mod_mul,
        show (b.toNat + 256 * ofBytesLE bytes) % 256 = b.toNat by omega,
        show (b.toNat + 256 * ofBytesLE bytes) / 256 = ofBytesLE bytes by omega]

theorem ofBytesLE_drop (bytes : Bytes) (n : Nat) :
    ofBytesLE (bytes.drop n) = ofBytesLE bytes / 256 ^ n := by
  induction bytes generalizing n with
  | nil => simp
  | cons b bytes ih =>
    cases n with
    | zero => simp
    | succ n =>
      have hb : b.toNat < 256 := b.toNat_lt
      rw [List.drop_succ_cons, ofBytesLE_cons, ih,
        show 256 ^ (n + 1) = 256 * 256 ^ n from Nat.pow_succ', ← Nat.div_div_eq_div_mul,
        show (b.toNat + 256 * ofBytesLE bytes) / 256 = ofBytesLE bytes by omega]

/-- Zero bytes at the high end change nothing. -/
@[simp] theorem ofBytesLE_append_zeros (bytes : Bytes) (n : Nat) :
    ofBytesLE (bytes ++ List.replicate n 0) = ofBytesLE bytes := by
  have hzero : ofBytesLE (List.replicate n 0) = 0 := by
    induction n with
    | zero => rfl
    | succ n ih => rw [List.replicate_succ, ofBytesLE_cons, ih]; rfl
  rw [ofBytesLE_append, hzero, Nat.mul_zero, Nat.add_zero]

@[simp] theorem length_toBytesLE (n x : Nat) : (toBytesLE n x).length = n := by
  induction n generalizing x with
  | zero => rfl
  | succ n ih => rw [toBytesLE, List.length_cons, ih]

theorem toBytesLE_add (m n x : Nat) :
    toBytesLE (m + n) x = toBytesLE m x ++ toBytesLE n (x / 256 ^ m) := by
  induction m generalizing x with
  | zero => simp [toBytesLE]
  | succ m ih =>
    rw [Nat.succ_add, toBytesLE, toBytesLE, ih, List.cons_append, Nat.div_div_eq_div_mul,
      ← Nat.pow_succ']

theorem ofBytesLE_toBytesLE (n x : Nat) : ofBytesLE (toBytesLE n x) = x % 256 ^ n := by
  induction n generalizing x with
  | zero => simp [toBytesLE, Nat.mod_one]
  | succ n ih =>
    rw [toBytesLE, ofBytesLE_cons, ih, UInt8.toNat_ofNat',
      show 256 ^ (n + 1) = 256 * 256 ^ n from Nat.pow_succ']
    exact Nat.mod_mul.symm

theorem toBytesLE_ofBytesLE (bytes : Bytes) :
    toBytesLE bytes.length (ofBytesLE bytes) = bytes := by
  induction bytes with
  | nil => rfl
  | cons b bytes ih =>
    have hb : b.toNat < 256 := b.toNat_lt
    have hlow : UInt8.ofNat (b.toNat + 256 * ofBytesLE bytes) = b := by
      apply UInt8.toNat_inj.mp
      rw [UInt8.toNat_ofNat']
      omega
    have hhigh : (b.toNat + 256 * ofBytesLE bytes) / 256 = ofBytesLE bytes := by omega
    rw [List.length_cons, toBytesLE, ofBytesLE_cons, hlow, hhigh, ih]

/-- Only the lowest bytes of a number are read. -/
theorem toBytesLE_mod (n x : Nat) : toBytesLE n (x % 256 ^ n) = toBytesLE n x := by
  have h := toBytesLE_ofBytesLE (toBytesLE n x)
  rwa [length_toBytesLE, ofBytesLE_toBytesLE] at h

/-! ## Words -/

/-- Bytes beyond the end of a string read as zero, and add nothing. -/
theorem toNat_loadU32leAt (p : Bytes) (off : Nat) :
    (loadU32leAt p off).toNat = ofBytesLE ((p.drop off).take 4) := by
  have hget (i : Nat) : p.getD (off + i) 0 = (p.drop off).getD i 0 := by
    simp [List.getD_eq_getElem?_getD, List.getElem?_drop]
  have hzero := hget 0
  rw [Nat.add_zero] at hzero
  rw [loadU32leAt, toNat_loadU32le, hzero, hget 1, hget 2, hget 3]
  rcases p.drop off with _ | ⟨a, _ | ⟨b, _ | ⟨c, _ | ⟨d, rest⟩⟩⟩⟩ <;>
    simp <;> omega

/-- A word in the middle of a number. -/
theorem toNat_loadU32leAt_eq (p : Bytes) (off : Nat) :
    (loadU32leAt p off).toNat = ofBytesLE p / 256 ^ off % 2 ^ 32 := by
  rw [toNat_loadU32leAt, ofBytesLE_take, ofBytesLE_drop]
  rfl

theorem storeU32le_eq (v : UInt32) : storeU32le v = toBytesLE 4 v.toNat := by
  have hbyte (n : UInt32) (k : Nat) (hn : n.toNat % 32 = k) :
      (v >>> n).toUInt8 = UInt8.ofNat (v.toNat / 2 ^ k) := by
    apply UInt8.toNat_inj.mp
    rw [UInt32.toNat_toUInt8, UInt32.toNat_shiftRight, hn, Nat.shiftRight_eq_div_pow,
      UInt8.toNat_ofNat']
  have hlow : v.toUInt8 = UInt8.ofNat v.toNat := by
    apply UInt8.toNat_inj.mp
    rw [UInt32.toNat_toUInt8, UInt8.toNat_ofNat']
  simp only [storeU32le, toBytesLE, Nat.div_div_eq_div_mul]
  rw [hlow, hbyte 8 8 rfl, hbyte 16 16 rfl, hbyte 24 24 rfl]
  rfl

theorem storeU16le_eq (v : UInt16) : storeU16le v = toBytesLE 2 v.toNat := by
  have hlow : v.toUInt8 = UInt8.ofNat v.toNat := by
    apply UInt8.toNat_inj.mp
    rw [UInt16.toNat_toUInt8, UInt8.toNat_ofNat']
  have hhigh : (v >>> 8).toUInt8 = UInt8.ofNat (v.toNat / 256) := by
    apply UInt8.toNat_inj.mp
    rw [UInt16.toNat_toUInt8, UInt16.toNat_shiftRight, show (8 : UInt16).toNat % 16 = 8 from rfl,
      Nat.shiftRight_eq_div_pow, UInt8.toNat_ofNat']
  rw [storeU16le, hlow, hhigh]
  rfl

/-- A word that was read is stored as it was. -/
theorem storeU32le_loadU32leAt {p : Bytes} {off : Nat} (hoff : off + 4 ≤ p.length) :
    storeU32le (loadU32leAt p off) = (p.drop off).take 4 := by
  have hlen : ((p.drop off).take 4).length = 4 := by
    rw [List.length_take, List.length_drop]
    omega
  have hround := toBytesLE_ofBytesLE ((p.drop off).take 4)
  rw [hlen] at hround
  rw [storeU32le_eq, toNat_loadU32leAt]
  exact hround

/-- Words that were stored one behind the other are one number. -/
theorem storeU32le_append_toBytesLE (v : UInt32) (n x : Nat) :
    storeU32le v ++ toBytesLE n x = toBytesLE (4 + n) (v.toNat + 2 ^ 32 * x) := by
  have hv : v.toNat < 2 ^ 32 := v.toNat_lt
  have hlow : toBytesLE 4 (v.toNat + 2 ^ 32 * x) = toBytesLE 4 v.toNat := by
    rw [← toBytesLE_mod 4 (v.toNat + 2 ^ 32 * x),
      show (v.toNat + 2 ^ 32 * x) % 256 ^ 4 = v.toNat by omega]
  have hhigh : (v.toNat + 2 ^ 32 * x) / 256 ^ 4 = x := by omega
  rw [toBytesLE_add, hlow, hhigh, storeU32le_eq]

/-- Four words as one number of 16 bytes. -/
theorem storeU32le_four (a b c d : UInt32) :
    storeU32le a ++ storeU32le b ++ storeU32le c ++ storeU32le d =
      toBytesLE 16 (a.toNat + 2 ^ 32 * (b.toNat + 2 ^ 32 * (c.toNat + 2 ^ 32 * d.toNat))) := by
  rw [List.append_assoc, List.append_assoc, storeU32le_eq d, storeU32le_append_toBytesLE,
    storeU32le_append_toBytesLE, storeU32le_append_toBytesLE]

end Mpubsub.Lib
