import Mpubsub.Lib.Rfc8439
import Mathlib.Data.Nat.ModEq

/-!
# Poly1305 (`chacha20poly1305.cpp`)

The accumulator and the multiplier are kept in five limbs of 26 bits. An
iteration of `poly1305_blocks` adds a block, multiplies with 64-bit accumulators
and carries only as far as the next iteration needs (`Carried`). Nothing in it
overflows (`blockFits`), so the limbs follow the accumulator of the RFC modulo
the prime (`limbsValue_poly1305Block`).

Around the iteration there are the clamped key (`limbsValue_key`), the
buffered updates, which take a message in pieces as if it came in one
(`poly1305Update_absorb`), and `poly1305_finish`, which carries to the end,
subtracts the prime at most once and adds the pad. From the states that are
reached, none of it overflows (`finishFits`), and the tag of a message is the
RFC's (`finish_absorb`).
-/

namespace Mpubsub.Wire

open Mpubsub.Lib

/-! ## The program -/

/-- `Poly1305`. `buffer` holds the `leftover` bytes that do not fill a block
yet. -/
structure Poly1305 where
  r : Vector UInt32 5
  h : Vector UInt32 5
  pad : Vector UInt32 4
  buffer : Bytes
  final : Bool

def poly1305Init (key : Bytes) : Poly1305 :=
  let t0 := loadU32leAt key 0
  let t1 := loadU32leAt key 4
  let t2 := loadU32leAt key 8
  let t3 := loadU32leAt key 12
  { r := #v[t0 &&& 0x3ffffff,
      ((t0 >>> 26) ||| (t1 <<< 6)) &&& 0x3ffff03,
      ((t1 >>> 20) ||| (t2 <<< 12)) &&& 0x3ffc0ff,
      ((t2 >>> 14) ||| (t3 <<< 18)) &&& 0x3f03fff,
      (t3 >>> 8) &&& 0x00fffff]
    h := #v[0, 0, 0, 0, 0]
    pad := #v[loadU32leAt key 16, loadU32leAt key 20, loadU32leAt key 24, loadU32leAt key 28]
    buffer := []
    final := false }

/-- One iteration of the loop in `poly1305_blocks`: `h = (h + m) * r`, carried
partially. -/
def poly1305Block (final : Bool) (r h : Vector UInt32 5) (m : Bytes) : Vector UInt32 5 :=
  let hibit : UInt32 := if final then 0 else (1 : UInt32) <<< 24
  let r0 := r[0].toUInt64
  let r1 := r[1].toUInt64
  let r2 := r[2].toUInt64
  let r3 := r[3].toUInt64
  let r4 := r[4].toUInt64
  let s1 := (r[1] * 5).toUInt64
  let s2 := (r[2] * 5).toUInt64
  let s3 := (r[3] * 5).toUInt64
  let s4 := (r[4] * 5).toUInt64
  let h0 := (h[0] + (loadU32leAt m 0 &&& 0x3ffffff)).toUInt64
  let h1 := (h[1] + ((loadU32leAt m 3 >>> 2) &&& 0x3ffffff)).toUInt64
  let h2 := (h[2] + ((loadU32leAt m 6 >>> 4) &&& 0x3ffffff)).toUInt64
  let h3 := (h[3] + ((loadU32leAt m 9 >>> 6) &&& 0x3ffffff)).toUInt64
  let h4 := (h[4] + ((loadU32leAt m 12 >>> 8) ||| hibit)).toUInt64
  let d0 := h0 * r0 + h1 * s4 + h2 * s3 + h3 * s2 + h4 * s1
  let d1 := h0 * r1 + h1 * r0 + h2 * s4 + h3 * s3 + h4 * s2
  let d2 := h0 * r2 + h1 * r1 + h2 * r0 + h3 * s4 + h4 * s3
  let d3 := h0 * r3 + h1 * r2 + h2 * r1 + h3 * r0 + h4 * s4
  let d4 := h0 * r4 + h1 * r3 + h2 * r2 + h3 * r1 + h4 * r0
  let c : UInt32 := (d0 >>> 26).toUInt32
  let h0 := d0.toUInt32 &&& 0x3ffffff
  let d1 := d1 + c.toUInt64
  let c : UInt32 := (d1 >>> 26).toUInt32
  let h1 := d1.toUInt32 &&& 0x3ffffff
  let d2 := d2 + c.toUInt64
  let c : UInt32 := (d2 >>> 26).toUInt32
  let h2 := d2.toUInt32 &&& 0x3ffffff
  let d3 := d3 + c.toUInt64
  let c : UInt32 := (d3 >>> 26).toUInt32
  let h3 := d3.toUInt32 &&& 0x3ffffff
  let d4 := d4 + c.toUInt64
  let c : UInt32 := (d4 >>> 26).toUInt32
  let h4 := d4.toUInt32 &&& 0x3ffffff
  let h0 := h0 + c * 5
  let c := h0 >>> 26
  let h0 := h0 &&& 0x3ffffff
  let h1 := h1 + c
  #v[h0, h1, h2, h3, h4]

/-- The loop of `poly1305_blocks` over `n` whole blocks. -/
def poly1305Blocks (final : Bool) (r : Vector UInt32 5) :
    Nat → Vector UInt32 5 → Bytes → Vector UInt32 5
  | 0, h, _ => h
  | n + 1, h, m => poly1305Blocks final r n (poly1305Block final r h m) (m.drop 16)

/-- The second half of `poly1305_update`, with an empty buffer: whole blocks from
the message, the rest into the buffer. -/
def poly1305Absorb (st : Poly1305) (m : Bytes) : Poly1305 :=
  let want := m.length / 16 * 16
  { st with
    h := poly1305Blocks st.final st.r (m.length / 16) st.h m
    buffer := m.drop want }

/-- `poly1305_update`. -/
def poly1305Update (st : Poly1305) (m : Bytes) : Poly1305 :=
  if st.buffer.length ≠ 0 then
    let want := min (16 - st.buffer.length) m.length
    let st := { st with buffer := st.buffer ++ m.take want }
    if st.buffer.length < 16 then st
    else
      poly1305Absorb
        { st with h := poly1305Blocks st.final st.r 1 st.h st.buffer, buffer := [] } (m.drop want)
  else poly1305Absorb st m

/-- `poly1305_finish`: absorb the last partial block, reduce `h` fully, add the
pad. -/
def poly1305Finish (st : Poly1305) : Bytes :=
  let h :=
    if st.buffer.length ≠ 0 then
      let block := st.buffer ++ [1] ++ List.replicate (15 - st.buffer.length) 0
      poly1305Blocks true st.r 1 st.h block
    else st.h
  let c := h[1] >>> 26
  let h1 := h[1] &&& 0x3ffffff
  let h2 := h[2] + c
  let c := h2 >>> 26
  let h2 := h2 &&& 0x3ffffff
  let h3 := h[3] + c
  let c := h3 >>> 26
  let h3 := h3 &&& 0x3ffffff
  let h4 := h[4] + c
  let c := h4 >>> 26
  let h4 := h4 &&& 0x3ffffff
  let h0 := h[0] + c * 5
  let c := h0 >>> 26
  let h0 := h0 &&& 0x3ffffff
  let h1 := h1 + c
  let g0 := h0 + 5
  let c := g0 >>> 26
  let g0 := g0 &&& 0x3ffffff
  let g1 := h1 + c
  let c := g1 >>> 26
  let g1 := g1 &&& 0x3ffffff
  let g2 := h2 + c
  let c := g2 >>> 26
  let g2 := g2 &&& 0x3ffffff
  let g3 := h3 + c
  let c := g3 >>> 26
  let g3 := g3 &&& 0x3ffffff
  let g4 := h4 + c - ((1 : UInt32) <<< 26)
  -- All ones when `h + 5 - 2^130` did not borrow, zero otherwise.
  let mask := (g4 >>> 31) - 1
  let h0 := (h0 &&& ~~~mask) ||| (g0 &&& mask)
  let h1 := (h1 &&& ~~~mask) ||| (g1 &&& mask)
  let h2 := (h2 &&& ~~~mask) ||| (g2 &&& mask)
  let h3 := (h3 &&& ~~~mask) ||| (g3 &&& mask)
  let h4 := (h4 &&& ~~~mask) ||| (g4 &&& mask)
  let h0 := h0 ||| (h1 <<< 26)
  let h1 := (h1 >>> 6) ||| (h2 <<< 20)
  let h2 := (h2 >>> 12) ||| (h3 <<< 14)
  let h3 := (h3 >>> 18) ||| (h4 <<< 8)
  let f := h0.toUInt64 + st.pad[0].toUInt64
  let h0 := f.toUInt32
  let f := h1.toUInt64 + st.pad[1].toUInt64 + (f >>> 32)
  let h1 := f.toUInt32
  let f := h2.toUInt64 + st.pad[2].toUInt64 + (f >>> 32)
  let h2 := f.toUInt32
  let f := h3.toUInt64 + st.pad[3].toUInt64 + (f >>> 32)
  let h3 := f.toUInt32
  storeU32le h0 ++ storeU32le h1 ++ storeU32le h2 ++ storeU32le h3

/-! ## Masks and shifts as arithmetic -/

/-- A mask applies to the two parts of a number. -/
theorem and_parts (x : Nat) {lo k : Nat} (hi : Nat) (hlo : lo < 2 ^ k) :
    x &&& (2 ^ k * hi + lo) = (x % 2 ^ k &&& lo) + 2 ^ k * (x / 2 ^ k &&& hi) := by
  have hhigh : (2 ^ k * hi + lo) / 2 ^ k = hi := by
    rw [Nat.mul_add_div (Nat.two_pow_pos k), Nat.div_eq_of_lt hlo, Nat.add_zero]
  have hlow : (2 ^ k * hi + lo) % 2 ^ k = lo := by
    rw [Nat.mul_add_mod, Nat.mod_eq_of_lt hlo]
  rw [← Nat.mod_add_div (x &&& _) (2 ^ k), Nat.and_mod_two_pow, Nat.and_div_two_pow, hhigh, hlow]

/-- A mask of two runs of ones keeps the bits under them. -/
theorem and_two_runs (x : Nat) {a k : Nat} (b : Nat) (hak : a ≤ k) :
    x &&& (2 ^ k * (2 ^ b - 1) + (2 ^ a - 1)) = x % 2 ^ a + 2 ^ k * (x / 2 ^ k % 2 ^ b) := by
  have ha : 2 ^ a - 1 < 2 ^ k :=
    Nat.lt_of_lt_of_le (Nat.sub_lt (Nat.two_pow_pos a) Nat.one_pos)
      (Nat.pow_le_pow_right Nat.two_pos hak)
  rw [and_parts x _ ha, Nat.and_two_pow_sub_one_eq_mod, Nat.and_two_pow_sub_one_eq_mod,
    Nat.mod_mod_of_dvd _ (Nat.pow_dvd_pow 2 hak)]

theorem toNat_low26 (x : UInt32) : (x &&& 0x3ffffff).toNat = x.toNat % 2 ^ 26 := by
  rw [UInt32.toNat_and]
  exact Nat.and_two_pow_sub_one_eq_mod x.toNat 26

theorem toNat_high26 (x : UInt32) : (x >>> 26).toNat = x.toNat / 2 ^ 26 := by
  rw [UInt32.toNat_shiftRight]
  exact Nat.shiftRight_eq_div_pow ..

section

variable {x : UInt32} {n : Nat}

theorem toNat_digit (hx : x.toNat = n) : (x &&& 0x3ffffff).toNat = n % 2 ^ 26 := by
  rw [toNat_low26, hx]

theorem toNat_carry (hx : x.toNat = n) : (x >>> 26).toNat = n / 2 ^ 26 := by
  rw [toNat_high26, hx]

end

/-! ## Limbs -/

/-- The number that five limbs of 26 bits stand for. -/
def value (v : Vector Nat 5) : Nat :=
  v[0] + 2 ^ 26 * v[1] + 2 ^ 52 * v[2] + 2 ^ 78 * v[3] + 2 ^ 104 * v[4]

/-- The same for limbs in machine words. -/
def limbsValue (h : Vector UInt32 5) : Nat := value (h.map UInt32.toNat)

/-- Five machine words as numbers, one by one. -/
theorem map_limbs {α : Type} {f : α → Nat} {v : Vector α 5} {w : Vector Nat 5}
    (h0 : f v[0] = w[0]) (h1 : f v[1] = w[1]) (h2 : f v[2] = w[2]) (h3 : f v[3] = w[3])
    (h4 : f v[4] = w[4]) : v.map f = w := by
  apply Vector.ext
  intro i hi
  rw [Vector.getElem_map]
  have hcases : i = 0 ∨ i = 1 ∨ i = 2 ∨ i = 3 ∨ i = 4 := by omega
  rcases hcases with rfl | rfl | rfl | rfl | rfl
  · exact h0
  · exact h1
  · exact h2
  · exact h3
  · exact h4

/-- Five numbers below a bound. -/
def Below (bound : Nat) (v : Vector Nat 5) : Prop :=
  v[0] < bound ∧ v[1] < bound ∧ v[2] < bound ∧ v[3] < bound ∧ v[4] < bound

/-- The multiplier: every limb is within its 26 bits. -/
def Reduced (r : Vector UInt32 5) : Prop := Below (2 ^ 26) (r.map UInt32.toNat)

/-- The accumulator between two blocks: the second limb holds a carry that was not
carried on. -/
structure Carried (h : Vector UInt32 5) : Prop where
  limb0 : h[0].toNat < 2 ^ 26
  limb1 : h[1].toNat < 2 ^ 26 + 64
  limb2 : h[2].toNat < 2 ^ 26
  limb3 : h[3].toNat < 2 ^ 26
  limb4 : h[4].toNat < 2 ^ 26

/-! ## An iteration of `poly1305_blocks` in three parts -/

/-- The limbs of a block, with the 1 bit behind a whole one. -/
def blockLimbs (final : Bool) (m : Bytes) : Vector UInt32 5 :=
  let hibit : UInt32 := if final then 0 else (1 : UInt32) <<< 24
  #v[loadU32leAt m 0 &&& 0x3ffffff, (loadU32leAt m 3 >>> 2) &&& 0x3ffffff,
    (loadU32leAt m 6 >>> 4) &&& 0x3ffffff, (loadU32leAt m 9 >>> 6) &&& 0x3ffffff,
    (loadU32leAt m 12 >>> 8) ||| hibit]

/-- The accumulator with the block added. -/
def blockSums (h m : Vector UInt32 5) : Vector UInt32 5 :=
  #v[h[0] + m[0], h[1] + m[1], h[2] + m[2], h[3] + m[3], h[4] + m[4]]

/-- `d0` to `d4`. -/
def blockProducts (r h : Vector UInt32 5) : Vector UInt64 5 :=
  let r0 := r[0].toUInt64
  let r1 := r[1].toUInt64
  let r2 := r[2].toUInt64
  let r3 := r[3].toUInt64
  let r4 := r[4].toUInt64
  let s1 := (r[1] * 5).toUInt64
  let s2 := (r[2] * 5).toUInt64
  let s3 := (r[3] * 5).toUInt64
  let s4 := (r[4] * 5).toUInt64
  let h0 := h[0].toUInt64
  let h1 := h[1].toUInt64
  let h2 := h[2].toUInt64
  let h3 := h[3].toUInt64
  let h4 := h[4].toUInt64
  #v[h0 * r0 + h1 * s4 + h2 * s3 + h3 * s2 + h4 * s1,
    h0 * r1 + h1 * r0 + h2 * s4 + h3 * s3 + h4 * s2,
    h0 * r2 + h1 * r1 + h2 * r0 + h3 * s4 + h4 * s3,
    h0 * r3 + h1 * r2 + h2 * r1 + h3 * r0 + h4 * s4,
    h0 * r4 + h1 * r3 + h2 * r2 + h3 * r1 + h4 * r0]

/-- The partial carry. -/
def blockCarry (d : Vector UInt64 5) : Vector UInt32 5 :=
  let c : UInt32 := (d[0] >>> 26).toUInt32
  let h0 := d[0].toUInt32 &&& 0x3ffffff
  let d1 := d[1] + c.toUInt64
  let c : UInt32 := (d1 >>> 26).toUInt32
  let h1 := d1.toUInt32 &&& 0x3ffffff
  let d2 := d[2] + c.toUInt64
  let c : UInt32 := (d2 >>> 26).toUInt32
  let h2 := d2.toUInt32 &&& 0x3ffffff
  let d3 := d[3] + c.toUInt64
  let c : UInt32 := (d3 >>> 26).toUInt32
  let h3 := d3.toUInt32 &&& 0x3ffffff
  let d4 := d[4] + c.toUInt64
  let c : UInt32 := (d4 >>> 26).toUInt32
  let h4 := d4.toUInt32 &&& 0x3ffffff
  let h0 := h0 + c * 5
  let c := h0 >>> 26
  let h0 := h0 &&& 0x3ffffff
  let h1 := h1 + c
  #v[h0, h1, h2, h3, h4]

theorem poly1305Block_eq (final : Bool) (r h : Vector UInt32 5) (m : Bytes) :
    poly1305Block final r h m =
      blockCarry (blockProducts r (blockSums h (blockLimbs final m))) := rfl

/-! ## The same quantities as unbounded numbers -/

/-- `d0` to `d4` without wrapping around. -/
def exactProducts (r h : Vector Nat 5) : Vector Nat 5 :=
  #v[h[0] * r[0] + h[1] * (r[4] * 5) + h[2] * (r[3] * 5) + h[3] * (r[2] * 5) + h[4] * (r[1] * 5),
    h[0] * r[1] + h[1] * r[0] + h[2] * (r[4] * 5) + h[3] * (r[3] * 5) + h[4] * (r[2] * 5),
    h[0] * r[2] + h[1] * r[1] + h[2] * r[0] + h[3] * (r[4] * 5) + h[4] * (r[3] * 5),
    h[0] * r[3] + h[1] * r[2] + h[2] * r[1] + h[3] * r[0] + h[4] * (r[4] * 5),
    h[0] * r[4] + h[1] * r[3] + h[2] * r[2] + h[3] * r[1] + h[4] * r[0]]

/-- `d0` to `d4` with the carry from the one before. -/
def exactAccumulators (d : Vector Nat 5) : Vector Nat 5 :=
  let d1 := d[1] + d[0] / 2 ^ 26
  let d2 := d[2] + d1 / 2 ^ 26
  let d3 := d[3] + d2 / 2 ^ 26
  let d4 := d[4] + d3 / 2 ^ 26
  #v[d[0], d1, d2, d3, d4]

/-- No operation of the carry of these accumulators wraps around. -/
structure CarryFits (a : Vector Nat 5) : Prop where
  accumulators : Below (2 ^ 64) a
  carries : Below (2 ^ 32) (a.map (· / 2 ^ 26))
  low : a[0] % 2 ^ 26 + a[4] / 2 ^ 26 * 5 < 2 ^ 32
  second : a[1] % 2 ^ 26 + (a[0] % 2 ^ 26 + a[4] / 2 ^ 26 * 5) / 2 ^ 26 < 2 ^ 32

/-- No operation of an iteration wraps around: the multiples of the multiplier, the limb
sums, the 64-bit accumulators and the carries. -/
structure BlockFits (r h m : Vector UInt32 5) : Prop where
  fives : Below (2 ^ 32) (r.map fun limb => limb.toNat * 5)
  sums : Below (2 ^ 32) (Vector.zipWith (fun a b => a.toNat + b.toNat) h m)
  carry : CarryFits (exactAccumulators (exactProducts (r.map UInt32.toNat)
    (Vector.zipWith (fun a b => a.toNat + b.toNat) h m)))

/-! ## What the machine computes -/

/-- The limbs of a block are 26-bit digits of its number. -/
theorem toNat_blockLimbs (final : Bool) (m : Bytes) :
    (blockLimbs final m).map UInt32.toNat =
      #v[ofBytesLE m % 2 ^ 26, ofBytesLE m / 2 ^ 26 % 2 ^ 26, ofBytesLE m / 2 ^ 52 % 2 ^ 26,
        ofBytesLE m / 2 ^ 78 % 2 ^ 26,
        ofBytesLE m / 2 ^ 104 % 2 ^ 24 + if final then 0 else 2 ^ 24] := by
  have hload (off : Nat) := toNat_loadU32leAt_eq m off
  have hshift (x n : UInt32) (k : Nat) (hn : n.toNat % 32 = k) :
      ((x >>> n) &&& 0x3ffffff).toNat = x.toNat / 2 ^ k % 2 ^ 26 := by
    rw [toNat_low26, UInt32.toNat_shiftRight, hn, Nat.shiftRight_eq_div_pow]
  have htop : ((loadU32leAt m 12 >>> 8) |||
      (if final then 0 else (1 : UInt32) <<< 24 : UInt32)).toNat =
        ofBytesLE m / 2 ^ 104 % 2 ^ 24 + if final then 0 else 2 ^ 24 := by
    have hword : (loadU32leAt m 12 >>> 8).toNat = ofBytesLE m / 2 ^ 104 % 2 ^ 24 := by
      rw [UInt32.toNat_shiftRight, show (8 : UInt32).toNat % 32 = 8 from rfl,
        Nat.shiftRight_eq_div_pow, hload]
      omega
    rw [UInt32.toNat_or, hword]
    cases final with
    | true => exact Nat.or_zero _
    | false => exact or_mul_two_pow 1 (Nat.mod_lt _ (by decide))
  simp only [blockLimbs, Vector.map_mk, List.map_toArray, List.map_cons, List.map_nil, toNat_low26,
    hshift _ 2 2 rfl, hshift _ 4 4 rfl, hshift _ 6 6 rfl, htop, hload]
  congr 3
  · omega
  · congr 1
    · omega
    · congr 1
      · omega
      · congr 1
        omega

theorem toNat_blockSums {h m : Vector UInt32 5}
    (hfits : Below (2 ^ 32) (Vector.zipWith (fun a b => a.toNat + b.toNat) h m)) :
    (blockSums h m).map UInt32.toNat = Vector.zipWith (fun a b => a.toNat + b.toNat) h m := by
  obtain ⟨h0, h1, h2, h3, h4⟩ := hfits
  simp only [Vector.getElem_zipWith] at h0 h1 h2 h3 h4
  apply map_limbs
  all_goals rw [Vector.getElem_zipWith]
  · exact (UInt32.toNat_add ..).trans (Nat.mod_eq_of_lt h0)
  · exact (UInt32.toNat_add ..).trans (Nat.mod_eq_of_lt h1)
  · exact (UInt32.toNat_add ..).trans (Nat.mod_eq_of_lt h2)
  · exact (UInt32.toNat_add ..).trans (Nat.mod_eq_of_lt h3)
  · exact (UInt32.toNat_add ..).trans (Nat.mod_eq_of_lt h4)

theorem toNat_dot (a b c d e f g h i j : UInt64) :
    (a * b + c * d + e * f + g * h + i * j).toNat =
      (a.toNat * b.toNat + c.toNat * d.toNat + e.toNat * f.toNat + g.toNat * h.toNat +
        i.toNat * j.toNat) % 2 ^ 64 := by
  simp only [UInt64.toNat_add, UInt64.toNat_mul, Nat.add_mod_mod, Nat.mod_add_mod]

theorem toNat_blockProducts {r h : Vector UInt32 5}
    (hfives : Below (2 ^ 32) (r.map fun limb => limb.toNat * 5))
    (hfits : Below (2 ^ 64) (exactProducts (r.map UInt32.toNat) (h.map UInt32.toNat))) :
    (blockProducts r h).map UInt64.toNat =
      exactProducts (r.map UInt32.toNat) (h.map UInt32.toNat) := by
  obtain ⟨-, f1, f2, f3, f4⟩ := hfives
  simp only [Vector.getElem_map] at f1 f2 f3 f4
  have hfive {x : UInt32} (hx : x.toNat * 5 < 2 ^ 32) : (x * 5).toUInt64.toNat = x.toNat * 5 := by
    rw [UInt32.toNat_toUInt64, UInt32.toNat_mul]
    exact Nat.mod_eq_of_lt hx
  obtain ⟨h0, h1, h2, h3, h4⟩ := hfits
  apply map_limbs
  · refine (toNat_dot ..).trans (Eq.trans ?_ (Nat.mod_eq_of_lt h0))
    rw [hfive f1, hfive f2, hfive f3, hfive f4]
    simp [exactProducts]
  · refine (toNat_dot ..).trans (Eq.trans ?_ (Nat.mod_eq_of_lt h1))
    rw [hfive f2, hfive f3, hfive f4]
    simp [exactProducts]
  · refine (toNat_dot ..).trans (Eq.trans ?_ (Nat.mod_eq_of_lt h2))
    rw [hfive f3, hfive f4]
    simp [exactProducts]
  · refine (toNat_dot ..).trans (Eq.trans ?_ (Nat.mod_eq_of_lt h3))
    rw [hfive f4]
    simp [exactProducts]
  · refine (toNat_dot ..).trans (Eq.trans ?_ (Nat.mod_eq_of_lt h4))
    simp [exactProducts]

/-- The partial carry takes 26 bits of every accumulator, and folds the carry of the last
one in five times at the low end. -/
theorem toNat_blockCarry {d : Vector UInt64 5} {a : Vector Nat 5}
    (ha : a = exactAccumulators (d.map UInt64.toNat)) (hfits : CarryFits a) :
    (blockCarry d).map UInt32.toNat =
      #v[(a[0] % 2 ^ 26 + a[4] / 2 ^ 26 * 5) % 2 ^ 26,
        a[1] % 2 ^ 26 + (a[0] % 2 ^ 26 + a[4] / 2 ^ 26 * 5) / 2 ^ 26, a[2] % 2 ^ 26,
        a[3] % 2 ^ 26, a[4] % 2 ^ 26] := by
  obtain ⟨⟨-, a1, a2, a3, a4⟩, ⟨c0, c1, c2, c3, c4⟩, hlow, hsecond⟩ := hfits
  simp only [Vector.getElem_map] at c0 c1 c2 c3 c4
  have hcarry {x : UInt64} {n : Nat} (hx : x.toNat = n) (hn : n / 2 ^ 26 < 2 ^ 32) :
      (x >>> 26).toUInt32.toNat = n / 2 ^ 26 := by
    rw [UInt64.toNat_toUInt32, UInt64.toNat_shiftRight, hx, show (26 : UInt64).toNat % 64 = 26
      from rfl, Nat.shiftRight_eq_div_pow, Nat.mod_eq_of_lt hn]
  have hdigit {x : UInt64} {n : Nat} (hx : x.toNat = n) :
      (x.toUInt32 &&& 0x3ffffff).toNat = n % 2 ^ 26 := by
    rw [toNat_low26, UInt64.toNat_toUInt32, hx]
    omega
  have hnext {x : UInt64} {c : UInt32} {n k : Nat} (hc : c.toNat = k) (hn : x.toNat + k = n)
      (hlt : n < 2 ^ 64) : (x + c.toUInt64).toNat = n := by
    rw [UInt64.toNat_add, UInt32.toNat_toUInt64, hc, hn]
    exact Nat.mod_eq_of_lt hlt
  have e0 : d[0].toNat = a[0] := by simp [ha, exactAccumulators]
  have e1 := hnext (x := d[1]) (n := a[1]) (hcarry e0 c0) (by simp [ha, exactAccumulators]) a1
  have e2 := hnext (x := d[2]) (n := a[2]) (hcarry e1 c1) (by simp [ha, exactAccumulators]) a2
  have e3 := hnext (x := d[3]) (n := a[3]) (hcarry e2 c2) (by simp [ha, exactAccumulators]) a3
  have e4 := hnext (x := d[4]) (n := a[4]) (hcarry e3 c3) (by simp [ha, exactAccumulators]) a4
  have hfold {x c : UInt32} (hx : x.toNat = a[0] % 2 ^ 26) (hc : c.toNat = a[4] / 2 ^ 26) :
      (x + c * 5).toNat = a[0] % 2 ^ 26 + a[4] / 2 ^ 26 * 5 := by
    rw [UInt32.toNat_add, UInt32.toNat_mul, hx, hc, Nat.add_mod_mod]
    exact Nat.mod_eq_of_lt hlow
  have hl := hfold (hdigit e0) (hcarry e4 c4)
  apply map_limbs
  · exact (toNat_low26 _).trans (congrArg (· % 2 ^ 26) hl)
  · refine (UInt32.toNat_add ..).trans ?_
    rw [hdigit e1, toNat_high26, hl]
    exact Nat.mod_eq_of_lt hsecond
  · exact hdigit e2
  · exact hdigit e3
  · exact hdigit e4

/-! ## Nothing overflows -/

theorem dot_le {a b c d e f g h i j H S : Nat} (ha : a ≤ H) (hb : b ≤ S) (hc : c ≤ H)
    (hd : d ≤ S) (he : e ≤ H) (hf : f ≤ S) (hg : g ≤ H) (hh : h ≤ S) (hi : i ≤ H) (hj : j ≤ S) :
    a * b + c * d + e * f + g * h + i * j ≤ 5 * (H * S) := by
  have h1 := Nat.mul_le_mul ha hb
  have h2 := Nat.mul_le_mul hc hd
  have h3 := Nat.mul_le_mul he hf
  have h4 := Nat.mul_le_mul hg hh
  have h5 := Nat.mul_le_mul hi hj
  omega

/-- Sums of two limbs and a carry times limbs. Only the last sum has no multiple of five
in it. -/
theorem exactProducts_le {r h : Vector Nat 5} (hr : Below (2 ^ 26) r)
    (hh : Below (2 ^ 27 + 64) h) :
    Below (5 * ((2 ^ 27 + 63) * (5 * (2 ^ 26 - 1))) + 1) (exactProducts r h) ∧
      (exactProducts r h)[4] ≤ 5 * ((2 ^ 27 + 63) * (2 ^ 26 - 1)) := by
  obtain ⟨r0, r1, r2, r3, r4⟩ := hr
  obtain ⟨h0, h1, h2, h3, h4⟩ := hh
  have hlimb {x : Nat} (hx : x < 2 ^ 26) : x ≤ 2 ^ 26 - 1 := by omega
  have hlow {x : Nat} (hx : x < 2 ^ 26) : x ≤ 5 * (2 ^ 26 - 1) := by omega
  have hfive {x : Nat} (hx : x < 2 ^ 26) : x * 5 ≤ 5 * (2 ^ 26 - 1) := by omega
  have hsum {x : Nat} (hx : x < 2 ^ 27 + 64) : x ≤ 2 ^ 27 + 63 := by omega
  have d4 := dot_le (hsum h0) (hlimb r4) (hsum h1) (hlimb r3) (hsum h2) (hlimb r2) (hsum h3)
    (hlimb r1) (hsum h4) (hlimb r0)
  refine ⟨⟨?_, ?_, ?_, ?_, ?_⟩, d4⟩
  · exact Nat.lt_succ_of_le (dot_le (hsum h0) (hlow r0) (hsum h1) (hfive r4) (hsum h2) (hfive r3)
      (hsum h3) (hfive r2) (hsum h4) (hfive r1))
  · exact Nat.lt_succ_of_le (dot_le (hsum h0) (hlow r1) (hsum h1) (hlow r0) (hsum h2) (hfive r4)
      (hsum h3) (hfive r3) (hsum h4) (hfive r2))
  · exact Nat.lt_succ_of_le (dot_le (hsum h0) (hlow r2) (hsum h1) (hlow r1) (hsum h2) (hlow r0)
      (hsum h3) (hfive r4) (hsum h4) (hfive r3))
  · exact Nat.lt_succ_of_le (dot_le (hsum h0) (hlow r3) (hsum h1) (hlow r2) (hsum h2) (hlow r1)
      (hsum h3) (hlow r0) (hsum h4) (hfive r4))
  · exact Nat.lt_succ_of_le (Nat.le_trans d4 (by decide))

/-- Such sums stay far below the width of the accumulators, and carry little. -/
theorem carryFits_of_le {d : Vector Nat 5}
    (hd : Below (5 * ((2 ^ 27 + 63) * (5 * (2 ^ 26 - 1))) + 1) d)
    (hlast : d[4] ≤ 5 * ((2 ^ 27 + 63) * (2 ^ 26 - 1))) :
    CarryFits (exactAccumulators d) ∧
      ((exactAccumulators d)[0] % 2 ^ 26 + (exactAccumulators d)[4] / 2 ^ 26 * 5) / 2 ^ 26 <
        64 := by
  obtain ⟨d0, d1, d2, d3, d4⟩ := hd
  obtain ⟨a, ha⟩ : ∃ a, a = exactAccumulators d := ⟨_, rfl⟩
  have a0 : a[0] = d[0] := by rw [ha]; rfl
  have a1 : a[1] = d[1] + a[0] / 2 ^ 26 := by rw [ha]; rfl
  have a2 : a[2] = d[2] + a[1] / 2 ^ 26 := by rw [ha]; rfl
  have a3 : a[3] = d[3] + a[2] / 2 ^ 26 := by rw [ha]; rfl
  have a4 : a[4] = d[4] + a[3] / 2 ^ 26 := by rw [ha]; rfl
  rw [← ha]
  refine ⟨⟨⟨?_, ?_, ?_, ?_, ?_⟩, ⟨?_, ?_, ?_, ?_, ?_⟩, ?_, ?_⟩, ?_⟩
  all_goals
    try rw [Vector.getElem_map]
    omega

theorem blockLimbs_lt (final : Bool) (m : Bytes) :
    Below (2 ^ 26) ((blockLimbs final m).map UInt32.toNat) := by
  have htop : ofBytesLE m / 2 ^ 104 % 2 ^ 24 + (if final then 0 else 2 ^ 24) < 2 ^ 26 := by
    split <;> omega
  rw [toNat_blockLimbs]
  exact ⟨Nat.mod_lt _ (by decide), Nat.mod_lt _ (by decide), Nat.mod_lt _ (by decide),
    Nat.mod_lt _ (by decide), htop⟩

/-- The accumulator with a block added. -/
theorem sums_lt {h : Vector UInt32 5} (hh : Carried h) (final : Bool) (m : Bytes) :
    Below (2 ^ 27 + 64)
      (Vector.zipWith (fun a b => a.toNat + b.toNat) h (blockLimbs final m)) := by
  obtain ⟨h0, h1, h2, h3, h4⟩ := hh
  obtain ⟨m0, m1, m2, m3, m4⟩ := blockLimbs_lt final m
  rw [Vector.getElem_map] at m0 m1 m2 m3 m4
  refine ⟨?_, ?_, ?_, ?_, ?_⟩
  all_goals
    rw [Vector.getElem_zipWith]
    omega

/-- **No overflow in a block.** From an accumulator between two blocks, no operation of the
next iteration wraps around. -/
theorem blockFits {r h : Vector UInt32 5} (hr : Reduced r) (hh : Carried h) (final : Bool)
    (m : Bytes) : BlockFits r h (blockLimbs final m) := by
  have hsums := sums_lt hh final m
  obtain ⟨hproducts, hlast⟩ := exactProducts_le hr hsums
  refine ⟨?_, ?_, (carryFits_of_le hproducts hlast).1⟩
  · obtain ⟨r0, r1, r2, r3, r4⟩ := hr
    rw [Vector.getElem_map] at r0 r1 r2 r3 r4
    refine ⟨?_, ?_, ?_, ?_, ?_⟩
    all_goals
      rw [Vector.getElem_map]
      omega
  · obtain ⟨s0, s1, s2, s3, s4⟩ := hsums
    exact ⟨by omega, by omega, by omega, by omega, by omega⟩

/-- What an iteration computes. -/
theorem toNat_poly1305Block {r h m : Vector UInt32 5} (hfits : BlockFits r h m) :
    let a := exactAccumulators (exactProducts (r.map UInt32.toNat)
      (Vector.zipWith (fun a b => a.toNat + b.toNat) h m))
    (blockCarry (blockProducts r (blockSums h m))).map UInt32.toNat =
      #v[(a[0] % 2 ^ 26 + a[4] / 2 ^ 26 * 5) % 2 ^ 26,
        a[1] % 2 ^ 26 + (a[0] % 2 ^ 26 + a[4] / 2 ^ 26 * 5) / 2 ^ 26, a[2] % 2 ^ 26,
        a[3] % 2 ^ 26, a[4] % 2 ^ 26] := by
  have hsums := toNat_blockSums hfits.sums
  -- An accumulator is at least the product in it.
  have hproducts : Below (2 ^ 64) (exactProducts (r.map UInt32.toNat)
      ((blockSums h m).map UInt32.toNat)) := by
    rw [hsums]
    obtain ⟨a0, a1, a2, a3, a4⟩ := hfits.carry.accumulators
    exact ⟨a0, Nat.lt_of_add_right_lt a1, Nat.lt_of_add_right_lt a2, Nat.lt_of_add_right_lt a3,
      Nat.lt_of_add_right_lt a4⟩
  refine toNat_blockCarry ?_ hfits.carry
  rw [toNat_blockProducts hfits.fives hproducts, hsums]

/-! ## The limbs follow the accumulator -/

theorem value_exactProducts (r h : Vector Nat 5) :
    value h * value r % Rfc8439.p = value (exactProducts r h) % Rfc8439.p := by
  -- The products of weight `2^130` and more, which are folded in five times.
  obtain ⟨q, hq⟩ : ∃ q, q = h[1] * r[4] + h[2] * r[3] + h[3] * r[2] + h[4] * r[1] +
      2 ^ 26 * (h[2] * r[4] + h[3] * r[3] + h[4] * r[2]) +
      2 ^ 52 * (h[3] * r[4] + h[4] * r[3]) + 2 ^ 78 * (h[4] * r[4]) := ⟨_, rfl⟩
  have hfold : value h * value r + 5 * q = value (exactProducts r h) + 2 ^ 130 * q := by
    rw [hq]
    simp [value, exactProducts]
    ring
  have heq : value h * value r = value (exactProducts r h) + Rfc8439.p * q := by
    unfold Rfc8439.p
    omega
  rw [heq, Nat.add_mul_mod_self_left]

theorem value_carry (d : Vector Nat 5) :
    let a := exactAccumulators d
    value #v[(a[0] % 2 ^ 26 + a[4] / 2 ^ 26 * 5) % 2 ^ 26,
      a[1] % 2 ^ 26 + (a[0] % 2 ^ 26 + a[4] / 2 ^ 26 * 5) / 2 ^ 26, a[2] % 2 ^ 26,
      a[3] % 2 ^ 26, a[4] % 2 ^ 26] % Rfc8439.p = value d % Rfc8439.p := by
  obtain ⟨a, ha⟩ : ∃ a, a = exactAccumulators d := ⟨_, rfl⟩
  have a0 : a[0] = d[0] := by rw [ha]; rfl
  have a1 : a[1] = d[1] + a[0] / 2 ^ 26 := by rw [ha]; rfl
  have a2 : a[2] = d[2] + a[1] / 2 ^ 26 := by rw [ha]; rfl
  have a3 : a[3] = d[3] + a[2] / 2 ^ 26 := by rw [ha]; rfl
  have a4 : a[4] = d[4] + a[3] / 2 ^ 26 := by rw [ha]; rfl
  simp only [← ha]
  have hsum : value d = value #v[(a[0] % 2 ^ 26 + a[4] / 2 ^ 26 * 5) % 2 ^ 26,
      a[1] % 2 ^ 26 + (a[0] % 2 ^ 26 + a[4] / 2 ^ 26 * 5) / 2 ^ 26, a[2] % 2 ^ 26,
      a[3] % 2 ^ 26, a[4] % 2 ^ 26] + Rfc8439.p * (a[4] / 2 ^ 26) := by
    simp only [value, Rfc8439.p, Vector.getElem_mk, List.getElem_toArray, List.getElem_cons_zero,
      List.getElem_cons_succ]
    omega
  rw [hsum, Nat.add_mul_mod_self_left]

/-- The number of a block, with the 1 bit behind it. -/
theorem value_blockLimbs (final : Bool) (m : Bytes) :
    limbsValue (blockLimbs final m) =
      ofBytesLE (m.take 16) + if final then 0 else 2 ^ 128 := by
  rw [limbsValue, toNat_blockLimbs, ofBytesLE_take]
  cases final <;> simp [value] <;> omega

theorem value_sums (h m : Vector UInt32 5) :
    value (Vector.zipWith (fun a b => a.toNat + b.toNat) h m) = limbsValue h + limbsValue m := by
  simp [limbsValue, value]
  omega

/-- **Step.** An iteration adds the block and multiplies, modulo the prime. -/
theorem limbsValue_poly1305Block {r h : Vector UInt32 5} (hr : Reduced r) (hh : Carried h)
    (final : Bool) (m : Bytes) :
    limbsValue (poly1305Block final r h m) % Rfc8439.p =
        (limbsValue h + (ofBytesLE (m.take 16) + if final then 0 else 2 ^ 128)) *
          limbsValue r % Rfc8439.p ∧
      Carried (poly1305Block final r h m) := by
  have hfits := blockFits hr hh final m
  have hnat := toNat_poly1305Block hfits
  rw [← poly1305Block_eq] at hnat
  refine ⟨?_, ?_⟩
  · rw [limbsValue, hnat, value_carry, ← value_exactProducts, value_sums, value_blockLimbs]
    rfl
  · have hsmall := (carryFits_of_le (exactProducts_le hr (sums_lt hh final m)).1
      (exactProducts_le hr (sums_lt hh final m)).2).2
    have hlimb (i : Nat) (hi : i < 5) : (poly1305Block final r h m)[i].toNat =
        ((poly1305Block final r h m).map UInt32.toNat)[i] := by rw [Vector.getElem_map]
    refine ⟨?_, ?_, ?_, ?_, ?_⟩
    all_goals
      rw [hlimb, hnat]
    · exact Nat.mod_lt _ (by decide)
    · exact Nat.add_lt_add (Nat.mod_lt _ (by decide)) hsmall
    · exact Nat.mod_lt _ (by decide)
    · exact Nat.mod_lt _ (by decide)
    · exact Nat.mod_lt _ (by decide)

/-! ## The key -/

/-- Bits of two words beside each other in one. -/
theorem toNat_join {x y m k : UInt32} {a b : Nat} (hm : m.toNat % 32 = a) (hk : k.toNat % 32 = b)
    (hx : x.toNat / 2 ^ a < 2 ^ b) :
    ((x >>> m) ||| (y <<< k)).toNat = x.toNat / 2 ^ a + y.toNat % 2 ^ (32 - b) * 2 ^ b := by
  have hb : b < 32 := by omega
  have hshift : y.toNat * 2 ^ b % 2 ^ 32 = y.toNat % 2 ^ (32 - b) * 2 ^ b := by
    rw [show 2 ^ 32 = 2 ^ (32 - b) * 2 ^ b by rw [← Nat.pow_add]; congr 1; omega,
      Nat.mul_mod_mul_right]
  rw [UInt32.toNat_or, UInt32.toNat_shiftRight, UInt32.toNat_shiftLeft, hm, hk,
    Nat.shiftRight_eq_div_pow, Nat.shiftLeft_eq, hshift, or_mul_two_pow _ hx]

/-- What clamping keeps. -/
theorem clamp_eq (x : Nat) : Rfc8439.clamp x =
    x % 2 ^ 28 + 2 ^ 34 * (x / 2 ^ 34 % 2 ^ 26) + 2 ^ 66 * (x / 2 ^ 66 % 2 ^ 26) +
      2 ^ 98 * (x / 2 ^ 98 % 2 ^ 26) := by
  have hlow : x % 2 ^ 32 &&& 0x0fffffff = x % 2 ^ 28 := by
    rw [show 0x0fffffff = 2 ^ 28 - 1 from rfl, Nat.and_two_pow_sub_one_eq_mod]
    omega
  have hword (y : Nat) : y &&& 0x0ffffffc = 2 ^ 2 * (y / 2 ^ 2 % 2 ^ 26) := by
    have h := and_two_runs y 26 (Nat.zero_le 2)
    rw [Nat.pow_zero, Nat.mod_one, Nat.zero_add] at h
    exact h
  have h32 : Rfc8439.clamp x = (x % 2 ^ 32 &&& 0x0fffffff) +
      2 ^ 32 * (x / 2 ^ 32 &&& 0x0ffffffc0ffffffc0ffffffc) :=
    and_parts x 0x0ffffffc0ffffffc0ffffffc (show 0x0fffffff < 2 ^ 32 by decide)
  have h64 : x / 2 ^ 32 &&& 0x0ffffffc0ffffffc0ffffffc = (x / 2 ^ 32 % 2 ^ 32 &&& 0x0ffffffc) +
      2 ^ 32 * (x / 2 ^ 32 / 2 ^ 32 &&& 0x0ffffffc0ffffffc) :=
    and_parts (x / 2 ^ 32) 0x0ffffffc0ffffffc (show 0x0ffffffc < 2 ^ 32 by decide)
  have h96 : x / 2 ^ 32 / 2 ^ 32 &&& 0x0ffffffc0ffffffc =
      (x / 2 ^ 32 / 2 ^ 32 % 2 ^ 32 &&& 0x0ffffffc) +
        2 ^ 32 * (x / 2 ^ 32 / 2 ^ 32 / 2 ^ 32 &&& 0x0ffffffc) :=
    and_parts (x / 2 ^ 32 / 2 ^ 32) 0x0ffffffc (show 0x0ffffffc < 2 ^ 32 by decide)
  rw [h32, h64, h96, hlow, hword, hword, hword]
  have h34 : x / 2 ^ 32 % 2 ^ 32 / 2 ^ 2 % 2 ^ 26 = x / 2 ^ 34 % 2 ^ 26 := by omega
  have h66 : x / 2 ^ 32 / 2 ^ 32 % 2 ^ 32 / 2 ^ 2 % 2 ^ 26 = x / 2 ^ 66 % 2 ^ 26 := by omega
  have h98 : x / 2 ^ 32 / 2 ^ 32 / 2 ^ 32 / 2 ^ 2 % 2 ^ 26 = x / 2 ^ 98 % 2 ^ 26 := by omega
  rw [h34, h66, h98]
  ring

/-- A run of bits is two shorter ones. -/
theorem bits_split (x a b c : Nat) :
    x / 2 ^ a % 2 ^ (b + c) = x / 2 ^ a % 2 ^ b + 2 ^ b * (x / 2 ^ (a + b) % 2 ^ c) := by
  rw [Nat.pow_add, Nat.mod_mul, Nat.div_div_eq_div_mul, ← Nat.pow_add]

/-- The limbs of the multiplier. -/
theorem toNat_poly1305Init_r (key : Bytes) :
    (poly1305Init key).r.map UInt32.toNat =
      #v[ofBytesLE key % 2 ^ 26,
        ofBytesLE key / 2 ^ 26 % 2 ^ 2 + 2 ^ 8 * (ofBytesLE key / 2 ^ 34 % 2 ^ 18),
        ofBytesLE key / 2 ^ 52 % 2 ^ 8 + 2 ^ 14 * (ofBytesLE key / 2 ^ 66 % 2 ^ 12),
        ofBytesLE key / 2 ^ 78 % 2 ^ 14 + 2 ^ 20 * (ofBytesLE key / 2 ^ 98 % 2 ^ 6),
        ofBytesLE key / 2 ^ 104 % 2 ^ 20] := by
  have hload (off : Nat) := toNat_loadU32leAt_eq key off
  have h1 : ((loadU32leAt key 0 >>> 26) ||| (loadU32leAt key 4 <<< 6)).toNat =
      ofBytesLE key / 2 ^ 26 % 2 ^ 32 := by
    rw [toNat_join (a := 26) (b := 6) rfl rfl (by rw [hload]; omega), hload, hload]
    omega
  have h2 : ((loadU32leAt key 4 >>> 20) ||| (loadU32leAt key 8 <<< 12)).toNat =
      ofBytesLE key / 2 ^ 52 % 2 ^ 32 := by
    rw [toNat_join (a := 20) (b := 12) rfl rfl (by rw [hload]; omega), hload, hload]
    omega
  have h3 : ((loadU32leAt key 8 >>> 14) ||| (loadU32leAt key 12 <<< 18)).toNat =
      ofBytesLE key / 2 ^ 78 % 2 ^ 32 := by
    rw [toNat_join (a := 14) (b := 18) rfl rfl (by rw [hload]; omega), hload, hload]
    omega
  have h4 : (loadU32leAt key 12 >>> 8).toNat = ofBytesLE key / 2 ^ 104 % 2 ^ 24 := by
    rw [UInt32.toNat_shiftRight, show (8 : UInt32).toNat % 32 = 8 from rfl,
      Nat.shiftRight_eq_div_pow, hload]
    omega
  apply map_limbs
  · refine (toNat_low26 _).trans ?_
    rw [hload]
    show _ = ofBytesLE key % 2 ^ 26
    omega
  · refine (UInt32.toNat_and ..).trans ?_
    rw [h1]
    refine (and_two_runs _ 18 (show 2 ≤ 8 by decide)).trans ?_
    show _ = ofBytesLE key / 2 ^ 26 % 2 ^ 2 + 2 ^ 8 * (ofBytesLE key / 2 ^ 34 % 2 ^ 18)
    omega
  · refine (UInt32.toNat_and ..).trans ?_
    rw [h2]
    refine (and_two_runs _ 12 (show 8 ≤ 14 by decide)).trans ?_
    show _ = ofBytesLE key / 2 ^ 52 % 2 ^ 8 + 2 ^ 14 * (ofBytesLE key / 2 ^ 66 % 2 ^ 12)
    omega
  · refine (UInt32.toNat_and ..).trans ?_
    rw [h3]
    refine (and_two_runs _ 6 (show 14 ≤ 20 by decide)).trans ?_
    show _ = ofBytesLE key / 2 ^ 78 % 2 ^ 14 + 2 ^ 20 * (ofBytesLE key / 2 ^ 98 % 2 ^ 6)
    omega
  · refine (UInt32.toNat_and ..).trans ?_
    rw [h4]
    refine (Nat.and_two_pow_sub_one_eq_mod _ 20).trans ?_
    show _ = ofBytesLE key / 2 ^ 104 % 2 ^ 20
    omega

theorem reduced_key (key : Bytes) : Reduced (poly1305Init key).r := by
  unfold Reduced
  rw [toNat_poly1305Init_r]
  refine ⟨Nat.mod_lt _ (by decide), ?_, ?_, ?_, ?_⟩
  all_goals
    simp only [Vector.getElem_mk, List.getElem_toArray, List.getElem_cons_zero,
      List.getElem_cons_succ]
    omega

/-- The multiplier is the first half of the key, clamped. -/
theorem limbsValue_key (key : Bytes) :
    limbsValue (poly1305Init key).r = Rfc8439.clamp (ofBytesLE (key.take 16)) := by
  have htake (a b : Nat) (hab : a + b ≤ 128) :
      ofBytesLE key % 256 ^ 16 / 2 ^ a % 2 ^ b = ofBytesLE key / 2 ^ a % 2 ^ b := by
    have hpow : 256 ^ 16 = 2 ^ a * 2 ^ (128 - a) := by
      rw [← Nat.pow_add, Nat.add_sub_cancel' (by omega)]
      rfl
    rw [hpow, Nat.mod_mul_right_div_self, Nat.mod_mod_of_dvd _ (Nat.pow_dvd_pow 2 (by omega))]
  have h0 := bits_split (ofBytesLE key) 0 26 2
  have h34 := bits_split (ofBytesLE key) 34 18 8
  have h66 := bits_split (ofBytesLE key) 66 12 14
  have h98 := bits_split (ofBytesLE key) 98 6 20
  have hlow := htake 0 28 (by decide)
  rw [limbsValue, toNat_poly1305Init_r, clamp_eq, ofBytesLE_take, htake 34 26 (by decide),
    htake 66 26 (by decide), htake 98 26 (by decide)]
  simp only [Nat.pow_zero, Nat.div_one, Nat.zero_add, Nat.reduceAdd] at h0 h34 h66 h98 hlow
  rw [hlow, h0, h34, h66, h98]
  simp only [value, Vector.getElem_mk, List.getElem_toArray, List.getElem_cons_zero,
    List.getElem_cons_succ]
  ring

/-! ## Whole blocks -/

/-- A word inside the first part of a string. -/
theorem loadU32leAt_append_left {a : Bytes} (b : Bytes) {off : Nat} (hoff : off + 4 ≤ a.length) :
    loadU32leAt (a ++ b) off = loadU32leAt a off := by
  unfold loadU32leAt
  rw [List.getD_append _ _ _ _ (by omega), List.getD_append _ _ _ _ (by omega),
    List.getD_append _ _ _ _ (by omega), List.getD_append _ _ _ _ (by omega)]

/-- An iteration reads 16 bytes. -/
theorem poly1305Block_append (final : Bool) (r h : Vector UInt32 5) {m : Bytes} (rest : Bytes)
    (hm : 16 ≤ m.length) : poly1305Block final r h (m ++ rest) = poly1305Block final r h m := by
  have hlimbs : blockLimbs final (m ++ rest) = blockLimbs final m := by
    simp only [blockLimbs, loadU32leAt_append_left rest (show 0 + 4 ≤ m.length by omega),
      loadU32leAt_append_left rest (show 3 + 4 ≤ m.length by omega),
      loadU32leAt_append_left rest (show 6 + 4 ≤ m.length by omega),
      loadU32leAt_append_left rest (show 9 + 4 ≤ m.length by omega),
      loadU32leAt_append_left rest (show 12 + 4 ≤ m.length by omega)]
  rw [poly1305Block_eq, poly1305Block_eq, hlimbs]

theorem poly1305Blocks_append (final : Bool) (r : Vector UInt32 5) (n : Nat)
    (h : Vector UInt32 5) {m : Bytes} (rest : Bytes) (hm : 16 * n ≤ m.length) :
    poly1305Blocks final r n h (m ++ rest) = poly1305Blocks final r n h m := by
  induction n generalizing h m with
  | zero => rfl
  | succ n ih =>
    have hdrop : 16 * n ≤ (m.drop 16).length := by
      rw [List.length_drop]
      omega
    rw [poly1305Blocks, poly1305Blocks, poly1305Block_append final r h rest (by omega),
      List.drop_append_of_le_length (by omega), ih _ hdrop]

theorem poly1305Blocks_add (final : Bool) (r : Vector UInt32 5) (n k : Nat)
    (h : Vector UInt32 5) (m : Bytes) :
    poly1305Blocks final r (n + k) h m =
      poly1305Blocks final r k (poly1305Blocks final r n h m) (m.drop (16 * n)) := by
  induction n generalizing h m with
  | zero => rw [Nat.zero_add, Nat.mul_zero, List.drop_zero, poly1305Blocks]
  | succ n ih =>
    rw [Nat.succ_add, poly1305Blocks, poly1305Blocks, ih, List.drop_drop]
    congr 2
    omega

/-! ## The message in pieces -/

/-- **Streaming.** After a message was absorbed, an update with a second one leaves the
state of absorbing both at once. -/
theorem poly1305Update_absorb (st : Poly1305) (msg m : Bytes) :
    poly1305Update (poly1305Absorb st msg) m = poly1305Absorb st (msg ++ m) := by
  obtain ⟨n, hn⟩ : ∃ n, n = msg.length / 16 := ⟨_, rfl⟩
  obtain ⟨h, hh⟩ : ∃ h, h = poly1305Blocks st.final st.r n st.h msg := ⟨_, rfl⟩
  obtain ⟨rest, hrest⟩ : ∃ rest, rest = msg.drop (16 * n) := ⟨_, rfl⟩
  have hlen : rest.length = msg.length - 16 * n := by rw [hrest, List.length_drop]
  have hfirst : poly1305Absorb st msg = { st with h := h, buffer := rest } := by
    rw [hh, hrest, hn, Nat.mul_comm]
    rfl
  -- Both at once: the blocks of the first message, then `k` blocks of what is left of it
  -- and the second one.
  have hboth (k : Nat) (hk : (msg.length + m.length) / 16 = n + k) :
      poly1305Absorb st (msg ++ m) = { st with
        h := poly1305Blocks st.final st.r k h (rest ++ m)
        buffer := (rest ++ m).drop (16 * k) } := by
    have hblocks : poly1305Blocks st.final st.r (n + k) st.h (msg ++ m) =
        poly1305Blocks st.final st.r k h (rest ++ m) := by
      rw [poly1305Blocks_add, poly1305Blocks_append _ _ _ _ _ (by omega), ← hh,
        List.drop_append_of_le_length (by omega), ← hrest]
    have hdrop : (msg ++ m).drop (16 * (n + k)) = (rest ++ m).drop (16 * k) := by
      rw [hrest, ← List.drop_append_of_le_length (by omega), List.drop_drop, Nat.mul_add]
    rw [← hblocks, ← hdrop, ← hk, ← List.length_append, Nat.mul_comm]
    rfl
  rw [hfirst, poly1305Update]
  by_cases hempty : rest.length = 0
  · rw [if_neg (by simpa using hempty), hboth (m.length / 16) (by omega),
      List.eq_nil_of_length_eq_zero hempty, List.nil_append, Nat.mul_comm]
    rfl
  · rw [if_pos (by simpa using hempty)]
    by_cases hshort : rest.length + m.length < 16
    · have hwant : min (16 - rest.length) m.length = m.length := by omega
      rw [hboth 0 (by omega)]
      simp only [hwant, List.take_length, List.length_append, if_pos hshort]
      rfl
    · obtain ⟨want, hw⟩ : ∃ want, want = min (16 - rest.length) m.length := ⟨_, rfl⟩
      have hblock : (rest ++ m.take want).length = 16 := by
        rw [List.length_append, List.length_take]
        omega
      have hsplit : rest ++ m = (rest ++ m.take want) ++ m.drop want := by
        rw [List.append_assoc, List.take_append_drop]
      rw [hboth (1 + (m.length - want) / 16) (by omega), poly1305Blocks_add, Nat.mul_add,
        ← List.drop_drop, hsplit, poly1305Blocks_append _ _ _ _ _ (by omega),
        List.drop_left' hblock]
      simp only [← hw, hblock, Nat.lt_irrefl, if_false]
      rw [poly1305Absorb, List.length_drop, Nat.mul_comm]

/-- The state after several pieces. -/
theorem poly1305Update_pieces (st : Poly1305) (msg : Bytes) (pieces : List Bytes) :
    pieces.foldl poly1305Update (poly1305Absorb st msg) =
      poly1305Absorb st (msg ++ pieces.flatten) := by
  induction pieces generalizing msg with
  | nil => rw [List.foldl_nil, List.flatten_nil, List.append_nil]
  | cons m pieces ih =>
    rw [List.foldl_cons, poly1305Update_absorb, ih, List.flatten_cons, List.append_assoc]

/-- A fresh state has absorbed nothing. -/
theorem poly1305Absorb_nil (key : Bytes) :
    poly1305Absorb (poly1305Init key) [] = poly1305Init key := rfl

/-! ## `poly1305_finish` in parts -/

/-- The carry through all limbs. -/
def finishCarry (h : Vector UInt32 5) : Vector UInt32 5 :=
  let c := h[1] >>> 26
  let h1 := h[1] &&& 0x3ffffff
  let h2 := h[2] + c
  let c := h2 >>> 26
  let h2 := h2 &&& 0x3ffffff
  let h3 := h[3] + c
  let c := h3 >>> 26
  let h3 := h3 &&& 0x3ffffff
  let h4 := h[4] + c
  let c := h4 >>> 26
  let h4 := h4 &&& 0x3ffffff
  let h0 := h[0] + c * 5
  let c := h0 >>> 26
  let h0 := h0 &&& 0x3ffffff
  let h1 := h1 + c
  #v[h0, h1, h2, h3, h4]

/-- `h` or, where that does not borrow, `g = h + 5 - 2^130`. -/
def finishReduce (h : Vector UInt32 5) : Vector UInt32 5 :=
  let g0 := h[0] + 5
  let c := g0 >>> 26
  let g0 := g0 &&& 0x3ffffff
  let g1 := h[1] + c
  let c := g1 >>> 26
  let g1 := g1 &&& 0x3ffffff
  let g2 := h[2] + c
  let c := g2 >>> 26
  let g2 := g2 &&& 0x3ffffff
  let g3 := h[3] + c
  let c := g3 >>> 26
  let g3 := g3 &&& 0x3ffffff
  let g4 := h[4] + c - ((1 : UInt32) <<< 26)
  let mask := (g4 >>> 31) - 1
  #v[(h[0] &&& ~~~mask) ||| (g0 &&& mask), (h[1] &&& ~~~mask) ||| (g1 &&& mask),
    (h[2] &&& ~~~mask) ||| (g2 &&& mask), (h[3] &&& ~~~mask) ||| (g3 &&& mask),
    (h[4] &&& ~~~mask) ||| (g4 &&& mask)]

/-- The lowest 128 bits of the limbs in four words. -/
def finishWords (h : Vector UInt32 5) : Vector UInt32 4 :=
  #v[h[0] ||| (h[1] <<< 26), (h[1] >>> 6) ||| (h[2] <<< 20), (h[2] >>> 12) ||| (h[3] <<< 14),
    (h[3] >>> 18) ||| (h[4] <<< 8)]

/-- The words with the pad added. -/
def finishPad (h pad : Vector UInt32 4) : Bytes :=
  let f := h[0].toUInt64 + pad[0].toUInt64
  let h0 := f.toUInt32
  let f := h[1].toUInt64 + pad[1].toUInt64 + (f >>> 32)
  let h1 := f.toUInt32
  let f := h[2].toUInt64 + pad[2].toUInt64 + (f >>> 32)
  let h2 := f.toUInt32
  let f := h[3].toUInt64 + pad[3].toUInt64 + (f >>> 32)
  let h3 := f.toUInt32
  storeU32le h0 ++ storeU32le h1 ++ storeU32le h2 ++ storeU32le h3

/-- The accumulator after the last, partial block. -/
def finishBlocks (st : Poly1305) : Vector UInt32 5 :=
  if st.buffer.length ≠ 0 then
    let block := st.buffer ++ [1] ++ List.replicate (15 - st.buffer.length) 0
    poly1305Blocks true st.r 1 st.h block
  else st.h

theorem poly1305Finish_eq (st : Poly1305) :
    poly1305Finish st =
      finishPad (finishWords (finishReduce (finishCarry (finishBlocks st)))) st.pad := rfl

/-- The sums of the carry through all limbs, without wrapping around. -/
def exactCarry (h : Vector Nat 5) : Vector Nat 5 :=
  let h2 := h[2] + h[1] / 2 ^ 26
  let h3 := h[3] + h2 / 2 ^ 26
  let h4 := h[4] + h3 / 2 ^ 26
  let h0 := h[0] + h4 / 2 ^ 26 * 5
  #v[h0, h[1] % 2 ^ 26 + h0 / 2 ^ 26, h2, h3, h4]

/-- The sums of `h + 5`. -/
def exactPlusFive (h : Vector Nat 5) : Vector Nat 5 :=
  let g0 := h[0] + 5
  let g1 := h[1] + g0 / 2 ^ 26
  let g2 := h[2] + g1 / 2 ^ 26
  let g3 := h[3] + g2 / 2 ^ 26
  #v[g0, g1, g2, g3, h[4] + g3 / 2 ^ 26]

/-- The sums of the words and the pad. -/
def exactPad (h pad : Vector Nat 4) : Vector Nat 4 :=
  let f0 := h[0] + pad[0]
  let f1 := h[1] + pad[1] + f0 / 2 ^ 32
  let f2 := h[2] + pad[2] + f1 / 2 ^ 32
  #v[f0, f1, f2, h[3] + pad[3] + f2 / 2 ^ 32]

/-- No sum in the end of the computation wraps around. (The subtraction of `1 << 26` from
the last limb of `h + 5` may: the mask is made of its borrow.) -/
structure FinishFits (h : Vector UInt32 5) (pad : Vector UInt32 4) : Prop where
  carry : Below (2 ^ 32) (exactCarry (h.map UInt32.toNat))
  plusFive : Below (2 ^ 32) (exactPlusFive ((finishCarry h).map UInt32.toNat))
  words : ∀ f ∈ exactPad ((finishWords (finishReduce (finishCarry h))).map UInt32.toNat)
    (pad.map UInt32.toNat), f < 2 ^ 64

/-! ## What the machine computes -/

theorem toNat_add_of_lt {x y : UInt32} {a b : Nat} (hx : x.toNat = a) (hy : y.toNat = b)
    (hlt : a + b < 2 ^ 32) : (x + y).toNat = a + b := by
  rw [UInt32.toNat_add, hx, hy]
  exact Nat.mod_eq_of_lt hlt

theorem toNat_finishCarry {h : Vector UInt32 5} {a : Vector Nat 5}
    (ha : a = exactCarry (h.map UInt32.toNat)) (hfits : Below (2 ^ 32) a) :
    (finishCarry h).map UInt32.toNat =
      #v[a[0] % 2 ^ 26, a[1], a[2] % 2 ^ 26, a[3] % 2 ^ 26, a[4] % 2 ^ 26] := by
  obtain ⟨f0, f1, f2, f3, f4⟩ := hfits
  have a2 : h[2].toNat + h[1].toNat / 2 ^ 26 = a[2] := by simp [ha, exactCarry]
  have a3 : h[3].toNat + a[2] / 2 ^ 26 = a[3] := by simp [ha, exactCarry]
  have a4 : h[4].toNat + a[3] / 2 ^ 26 = a[4] := by simp [ha, exactCarry]
  have a0 : h[0].toNat + a[4] / 2 ^ 26 * 5 = a[0] := by simp [ha, exactCarry]
  have a1 : h[1].toNat % 2 ^ 26 + a[0] / 2 ^ 26 = a[1] := by simp [ha, exactCarry]
  have e2 := (toNat_add_of_lt (x := h[2]) rfl (toNat_carry (x := h[1]) rfl) (by omega)).trans a2
  have e3 := (toNat_add_of_lt (x := h[3]) rfl (toNat_carry e2) (by omega)).trans a3
  have e4 := (toNat_add_of_lt (x := h[4]) rfl (toNat_carry e3) (by omega)).trans a4
  have hfive {c : UInt32} (hc : c.toNat = a[4] / 2 ^ 26) : (c * 5).toNat = a[4] / 2 ^ 26 * 5 := by
    rw [UInt32.toNat_mul, hc]
    show a[4] / 2 ^ 26 * 5 % 2 ^ 32 = a[4] / 2 ^ 26 * 5
    exact Nat.mod_eq_of_lt (by omega)
  have e0 := (toNat_add_of_lt (x := h[0]) rfl (hfive (toNat_carry e4)) (by omega)).trans a0
  have e1 := (toNat_add_of_lt (toNat_digit (x := h[1]) rfl) (toNat_carry e0) (by omega)).trans a1
  apply map_limbs
  · exact toNat_digit e0
  · exact e1
  · exact toNat_digit e2
  · exact toNat_digit e3
  · exact toNat_digit e4

/-- The mask picks one of two words. -/
theorem select_eq (mask x y : UInt32) (hmask : mask = 0 ∨ mask = 0xffffffff) :
    ((x &&& ~~~mask) ||| (y &&& mask)) = if mask = 0 then x else y := by
  rcases hmask with rfl | rfl
  · simp
  · have hones : ~~~(0xffffffff : UInt32) = 0 := by decide
    rw [hones, if_neg (by decide), UInt32.and_zero, UInt32.zero_or]
    exact UInt32.and_neg_one

theorem toNat_finishReduce {h : Vector UInt32 5} {v g : Vector Nat 5}
    (hv : v = h.map UInt32.toNat) (hbelow : Below (2 ^ 26) v) (hg : g = exactPlusFive v) :
    (finishReduce h).map UInt32.toNat =
      if 2 ^ 26 ≤ g[4] then
        #v[g[0] % 2 ^ 26, g[1] % 2 ^ 26, g[2] % 2 ^ 26, g[3] % 2 ^ 26, g[4] - 2 ^ 26]
      else v := by
  obtain ⟨v0, v1, v2, v3, v4⟩ := hbelow
  have g0 : h[0].toNat + 5 = g[0] := by simp [hg, hv, exactPlusFive]
  have g1 : h[1].toNat + g[0] / 2 ^ 26 = g[1] := by simp [hg, hv, exactPlusFive]
  have g2 : h[2].toNat + g[1] / 2 ^ 26 = g[2] := by simp [hg, hv, exactPlusFive]
  have g3 : h[3].toNat + g[2] / 2 ^ 26 = g[3] := by simp [hg, hv, exactPlusFive]
  have g4 : h[4].toNat + g[3] / 2 ^ 26 = g[4] := by simp [hg, hv, exactPlusFive]
  simp only [hv, Vector.getElem_map] at v0 v1 v2 v3 v4
  -- The limbs are below `2 ^ 26`, so that no carry leaves 32 bits.
  have e0 := (toNat_add_of_lt (x := h[0]) (y := 5) (b := 5) rfl rfl (by omega)).trans g0
  have e1 := (toNat_add_of_lt (x := h[1]) rfl (toNat_carry e0) (by omega)).trans g1
  have e2 := (toNat_add_of_lt (x := h[2]) rfl (toNat_carry e1) (by omega)).trans g2
  have e3 := (toNat_add_of_lt (x := h[3]) rfl (toNat_carry e2) (by omega)).trans g3
  have e4 := (toNat_add_of_lt (x := h[4]) rfl (toNat_carry e3) (by omega)).trans g4
  have hborrow {x : UInt32} {n : Nat} (hx : x.toNat = n) :
      (x - ((1 : UInt32) <<< 26)).toNat = (2 ^ 32 - 2 ^ 26 + n) % 2 ^ 32 := by
    rw [UInt32.toNat_sub, hx]
    rfl
  have hmask {x : UInt32} {n : Nat} (hx : x.toNat = n) (hn : n ≤ 2 ^ 26) :
      (x - ((1 : UInt32) <<< 26)) >>> 31 - 1 = if 2 ^ 26 ≤ n then (0xffffffff : UInt32) else 0 := by
    apply UInt32.toNat_inj.mp
    rw [UInt32.toNat_sub, UInt32.toNat_shiftRight, hborrow hx,
      show (31 : UInt32).toNat % 32 = 31 from rfl, Nat.shiftRight_eq_div_pow,
      show (1 : UInt32).toNat = 1 from rfl]
    split
    · show _ = 2 ^ 32 - 1
      omega
    · show _ = 0
      omega
  -- The borrow of the top limb tells which of the two is picked.
  have hm := hmask e4 (by omega)
  split
  · rename_i hge
    rw [if_pos hge] at hm
    have hpick (x y : UInt32) : ((x &&& ~~~(0xffffffff : UInt32)) ||| (y &&& 0xffffffff)) = y :=
      (select_eq _ x y (.inr rfl)).trans (if_neg (by decide))
    simp only [finishReduce, hm, hpick]
    apply map_limbs
    · exact toNat_digit e0
    · exact toNat_digit e1
    · exact toNat_digit e2
    · exact toNat_digit e3
    · refine (hborrow e4).trans ?_
      simp only [Vector.getElem_mk, List.getElem_toArray, List.getElem_cons_succ,
        List.getElem_cons_zero]
      omega
  · rename_i hlt
    rw [if_neg hlt] at hm
    have hpick (x y : UInt32) : ((x &&& ~~~(0 : UInt32)) ||| (y &&& 0)) = x :=
      (select_eq _ x y (.inl rfl)).trans (if_pos rfl)
    simp only [finishReduce, hm, hpick, hv]
    apply map_limbs <;> simp

/-- The number that four words stand for. -/
def wordsValue (w : Vector UInt32 4) : Nat :=
  w[0].toNat + 2 ^ 32 * w[1].toNat + 2 ^ 64 * w[2].toNat + 2 ^ 96 * w[3].toNat

theorem wordsValue_finishWords {h : Vector UInt32 5}
    (hbelow : Below (2 ^ 26) (h.map UInt32.toNat)) :
    wordsValue (finishWords h) = limbsValue h % 2 ^ 128 := by
  obtain ⟨v0, v1, v2, v3, v4⟩ := hbelow
  simp only [Vector.getElem_map] at v0 v1 v2 v3 v4
  have hw0 : (h[0] ||| (h[1] <<< 26)).toNat = h[0].toNat + h[1].toNat % 2 ^ 6 * 2 ^ 26 := by
    have hjoin := toNat_join (x := h[0]) (y := h[1]) (m := 0) (k := 26) (a := 0) (b := 26) rfl rfl
      (by omega)
    rw [Nat.pow_zero, Nat.div_one, UInt32.shiftRight_zero] at hjoin
    exact hjoin
  have hw1 : ((h[1] >>> 6) ||| (h[2] <<< 20)).toNat =
      h[1].toNat / 2 ^ 6 + h[2].toNat % 2 ^ 12 * 2 ^ 20 :=
    toNat_join (a := 6) (b := 20) rfl rfl (by omega)
  have hw2 : ((h[2] >>> 12) ||| (h[3] <<< 14)).toNat =
      h[2].toNat / 2 ^ 12 + h[3].toNat % 2 ^ 18 * 2 ^ 14 :=
    toNat_join (a := 12) (b := 14) rfl rfl (by omega)
  have hw3 : ((h[3] >>> 18) ||| (h[4] <<< 8)).toNat =
      h[3].toNat / 2 ^ 18 + h[4].toNat % 2 ^ 24 * 2 ^ 8 :=
    toNat_join (a := 18) (b := 8) rfl rfl (by omega)
  simp only [wordsValue, finishWords, limbsValue, value, Vector.getElem_map, Vector.getElem_mk,
    List.getElem_toArray, List.getElem_cons_succ, List.getElem_cons_zero, hw0, hw1, hw2, hw3]
  omega

theorem finishPad_eq (w pad : Vector UInt32 4) :
    finishPad w pad = toBytesLE 16 (wordsValue w + wordsValue pad) := by
  have hword (x : UInt32) : x.toNat < 2 ^ 32 := x.toNat_lt
  have hsum (x y : UInt32) : (x.toUInt64 + y.toUInt64).toNat = x.toNat + y.toNat := by
    have hx := hword x
    have hy := hword y
    rw [UInt64.toNat_add, UInt32.toNat_toUInt64, UInt32.toNat_toUInt64]
    omega
  -- With the carry of the word below.
  have hnext (x y : UInt32) {f : UInt64} {n : Nat} (hf : f.toNat = n) :
      (x.toUInt64 + y.toUInt64 + (f >>> 32)).toNat = x.toNat + y.toNat + n / 2 ^ 32 := by
    have hx := hword x
    have hy := hword y
    have hlt : f.toNat < 2 ^ 64 := f.toNat_lt
    rw [UInt64.toNat_add, hsum, UInt64.toNat_shiftRight, hf,
      show (32 : UInt64).toNat % 64 = 32 from rfl, Nat.shiftRight_eq_div_pow]
    omega
  have hlow {f : UInt64} {n : Nat} (hf : f.toNat = n) : f.toUInt32.toNat = n % 2 ^ 32 := by
    rw [UInt64.toNat_toUInt32, hf]
  have f0 := hsum w[0] pad[0]
  have f1 := hnext w[1] pad[1] f0
  have f2 := hnext w[2] pad[2] f1
  have f3 := hnext w[3] pad[3] f2
  refine (storeU32le_four _ _ _ _).trans ?_
  rw [hlow f0, hlow f1, hlow f2, hlow f3, ← toBytesLE_mod, ← toBytesLE_mod 16 (wordsValue w + _)]
  congr 1
  unfold wordsValue
  omega

theorem wordsValue_pad (key : Bytes) :
    wordsValue (poly1305Init key).pad = ofBytesLE ((key.drop 16).take 16) := by
  have hload (off : Nat) := toNat_loadU32leAt_eq key off
  rw [ofBytesLE_take, ofBytesLE_drop]
  simp only [wordsValue, poly1305Init, Vector.getElem_mk, List.getElem_toArray,
    List.getElem_cons_succ, List.getElem_cons_zero, hload]
  omega

/-! ## Full reduction -/

/-- From an accumulator between two blocks, the carry leaves 26 bits in every limb. -/
theorem finishCarry_spec {h : Vector UInt32 5} (hh : Carried h) :
    Below (2 ^ 32) (exactCarry (h.map UInt32.toNat)) ∧
      Below (2 ^ 26) ((finishCarry h).map UInt32.toNat) ∧
      limbsValue (finishCarry h) % Rfc8439.p = limbsValue h % Rfc8439.p := by
  obtain ⟨h0, h1, h2, h3, h4⟩ := hh
  obtain ⟨a, ha⟩ : ∃ a, a = exactCarry (h.map UInt32.toNat) := ⟨_, rfl⟩
  have a2 : a[2] = h[2].toNat + h[1].toNat / 2 ^ 26 := by simp [ha, exactCarry]
  have a3 : a[3] = h[3].toNat + a[2] / 2 ^ 26 := by simp [ha, exactCarry]
  have a4 : a[4] = h[4].toNat + a[3] / 2 ^ 26 := by simp [ha, exactCarry]
  have a0 : a[0] = h[0].toNat + a[4] / 2 ^ 26 * 5 := by simp [ha, exactCarry]
  have a1 : a[1] = h[1].toNat % 2 ^ 26 + a[0] / 2 ^ 26 := by simp [ha, exactCarry]
  have hfits : Below (2 ^ 32) a := ⟨by omega, by omega, by omega, by omega, by omega⟩
  have hnat := toNat_finishCarry ha hfits
  refine ⟨ha ▸ hfits, ?_, ?_⟩
  · rw [hnat]
    refine ⟨Nat.mod_lt _ (by decide), ?_, Nat.mod_lt _ (by decide), Nat.mod_lt _ (by decide),
      Nat.mod_lt _ (by decide)⟩
    -- A carry out of the last limb means that the second one was carried on.
    show a[1] < 2 ^ 26
    omega
  · have hsum : limbsValue h = limbsValue (finishCarry h) + Rfc8439.p * (a[4] / 2 ^ 26) := by
      rw [limbsValue, limbsValue, hnat]
      simp only [value, Rfc8439.p, Vector.getElem_map, Vector.getElem_mk, List.getElem_toArray,
        List.getElem_cons_zero, List.getElem_cons_succ]
      omega
    rw [hsum, Nat.add_mul_mod_self_left]

/-- The prime is subtracted when it fits. -/
theorem finishReduce_spec {h : Vector UInt32 5} (hbelow : Below (2 ^ 26) (h.map UInt32.toNat)) :
    Below (2 ^ 32) (exactPlusFive (h.map UInt32.toNat)) ∧
      Below (2 ^ 26) ((finishReduce h).map UInt32.toNat) ∧
      limbsValue (finishReduce h) = limbsValue h % Rfc8439.p := by
  obtain ⟨v, hv⟩ : ∃ v, v = h.map UInt32.toNat := ⟨_, rfl⟩
  obtain ⟨g, hg⟩ : ∃ g, g = exactPlusFive v := ⟨_, rfl⟩
  have hnat := toNat_finishReduce hv (hv ▸ hbelow) hg
  rw [← hv] at hbelow ⊢
  obtain ⟨v0, v1, v2, v3, v4⟩ := id hbelow
  have g0 : g[0] = v[0] + 5 := by simp [hg, exactPlusFive]
  have g1 : g[1] = v[1] + g[0] / 2 ^ 26 := by simp [hg, exactPlusFive]
  have g2 : g[2] = v[2] + g[1] / 2 ^ 26 := by simp [hg, exactPlusFive]
  have g3 : g[3] = v[3] + g[2] / 2 ^ 26 := by simp [hg, exactPlusFive]
  have g4 : g[4] = v[4] + g[3] / 2 ^ 26 := by simp [hg, exactPlusFive]
  have hfits : Below (2 ^ 32) g := ⟨by omega, by omega, by omega, by omega, by omega⟩
  refine ⟨hg ▸ hfits, ?_⟩
  rw [limbsValue, limbsValue, ← hv, hnat]
  split
  · rename_i hge
    refine ⟨⟨Nat.mod_lt _ (by decide), Nat.mod_lt _ (by decide), Nat.mod_lt _ (by decide),
      Nat.mod_lt _ (by decide), ?_⟩, ?_⟩
    · simp only [Vector.getElem_mk, List.getElem_toArray, List.getElem_cons_succ,
        List.getElem_cons_zero]
      omega
    · simp only [value, Rfc8439.p, Vector.getElem_mk, List.getElem_toArray,
        List.getElem_cons_zero, List.getElem_cons_succ]
      omega
  · rename_i hlt
    refine ⟨hbelow, ?_⟩
    simp only [value, Rfc8439.p]
    omega

/-- **No overflow at the end.** -/
theorem finishFits {h : Vector UInt32 5} (hh : Carried h) (pad : Vector UInt32 4) :
    FinishFits h pad := by
  obtain ⟨hcarry, hbelow, -⟩ := finishCarry_spec hh
  refine ⟨hcarry, (finishReduce_spec hbelow).1, ?_⟩
  intro f hf
  obtain ⟨w, hw⟩ : ∃ w, w = finishWords (finishReduce (finishCarry h)) := ⟨_, rfl⟩
  have hword (x : UInt32) : x.toNat < 2 ^ 32 := x.toNat_lt
  have h0 := hword w[0]
  have h1 := hword w[1]
  have h2 := hword w[2]
  have h3 := hword w[3]
  have p0 := hword pad[0]
  have p1 := hword pad[1]
  have p2 := hword pad[2]
  have p3 := hword pad[3]
  simp only [← hw, exactPad, Vector.getElem_map, Vector.mem_mk, List.mem_toArray, List.mem_cons,
    List.not_mem_nil, or_false] at hf
  rcases hf with rfl | rfl | rfl | rfl <;> omega

/-! ## The limbs follow the accumulator of the RFC -/

/-- What the limbs can hold where an iteration starts or `poly1305_finish` carries: zero at
first, then what an iteration left. -/
inductive Accumulated (r : Vector UInt32 5) : Vector UInt32 5 → Prop
  | zero : Accumulated r #v[0, 0, 0, 0, 0]
  | block {h : Vector UInt32 5} (final : Bool) (m : Bytes) (hh : Accumulated r h) :
    Accumulated r (poly1305Block final r h m)

theorem Accumulated.carried {r h : Vector UInt32 5} (hr : Reduced r) (hh : Accumulated r h) :
    Carried h := by
  induction hh with
  | zero => exact ⟨by decide, by decide, by decide, by decide, by decide⟩
  | block final m hh ih => exact (limbsValue_poly1305Block hr ih final m).2

theorem Accumulated.blocks {r h : Vector UInt32 5} (hh : Accumulated r h) (final : Bool) (n : Nat)
    (m : Bytes) : Accumulated r (poly1305Blocks final r n h m) := by
  induction n generalizing h m with
  | zero => exact hh
  | succ n ih => exact ih (.block final m hh) _

/-- Updates keep the multiplier and the pad, and leave an accumulator of the run. -/
theorem Accumulated.absorb (key msg : Bytes) :
    Accumulated (poly1305Init key).r (poly1305Absorb (poly1305Init key) msg).h :=
  Accumulated.blocks .zero false _ msg

/-- **Run.** Whole blocks move the limbs as they move the accumulator. -/
theorem limbsValue_poly1305Blocks {r : Vector UInt32 5} (hr : Reduced r) (n : Nat)
    {h : Vector UInt32 5} {acc : Nat} {m : Bytes} (hh : Carried h) (hm : 16 * n ≤ m.length)
    (hacc : limbsValue h % Rfc8439.p = acc % Rfc8439.p) :
    limbsValue (poly1305Blocks false r n h m) % Rfc8439.p =
      Rfc8439.accumulate (limbsValue r) n acc m % Rfc8439.p := by
  induction n generalizing h acc m with
  | zero => exact hacc
  | succ n ih =>
    obtain ⟨hstep, hnext⟩ := limbsValue_poly1305Block hr hh false m
    have hone : ofBytesLE (m.take 16 ++ [1]) = ofBytesLE (m.take 16) + 2 ^ 128 := by
      rw [ofBytesLE_append, List.length_take, Nat.min_eq_left (by omega)]
      rfl
    rw [poly1305Blocks, Rfc8439.accumulate, hone]
    refine ih hnext (by rw [List.length_drop]; omega) ?_
    rw [hstep, Nat.mod_mod]
    exact Nat.ModEq.mul_right _ (Nat.ModEq.add_right _ hacc)

/-- The accumulator after the last block. -/
theorem limbsValue_finishBlocks (key msg : Bytes) :
    limbsValue (finishBlocks (poly1305Absorb (poly1305Init key) msg)) % Rfc8439.p =
      Rfc8439.accumulate (Rfc8439.clamp (ofBytesLE (key.take 16))) ((msg.length + 15) / 16) 0
        msg := by
  obtain ⟨n, hn⟩ : ∃ n, n = msg.length / 16 := ⟨_, rfl⟩
  have hr := reduced_key key
  have hwhole := @limbsValue_poly1305Blocks _ hr n _ 0 msg
    (Accumulated.zero.carried hr) (by omega) (by simp [limbsValue, value])
  have hcarried := ((Accumulated.zero (r := (poly1305Init key).r)).blocks false n msg).carried hr
  have hstate : poly1305Absorb (poly1305Init key) msg = { poly1305Init key with
      h := poly1305Blocks false (poly1305Init key).r n (poly1305Init key).h msg
      buffer := msg.drop (16 * n) } := by
    rw [hn, Nat.mul_comm]
    rfl
  have hlen : (msg.drop (16 * n)).length = msg.length - 16 * n := List.length_drop
  rw [hstate, ← limbsValue_key, finishBlocks]
  by_cases hrest : (msg.drop (16 * n)).length = 0
  · rw [if_neg (not_not_intro hrest), show (msg.length + 15) / 16 = n by omega]
    exact hwhole.trans (Nat.mod_eq_of_lt (Rfc8439.accumulate_lt (by decide)))
  · rw [if_pos hrest, show (msg.length + 15) / 16 = n + 1 by omega, Rfc8439.accumulate_add]
    -- The partial block with its 1 byte, filled up with zeros.
    refine (limbsValue_poly1305Block hr hcarried true _).1.trans ?_
    have htake (zeros : Bytes) (hz : zeros.length = 15 - (msg.drop (16 * n)).length) :
        (msg.drop (16 * n) ++ [1] ++ zeros).take 16 = msg.drop (16 * n) ++ [1] ++ zeros := by
      refine List.take_of_length_le ?_
      rw [List.length_append, List.length_append, hz, List.length_singleton]
      omega
    rw [htake _ List.length_replicate, ofBytesLE_append_zeros, Rfc8439.accumulate,
      Rfc8439.accumulate, List.take_of_length_le (by omega), if_pos rfl, Nat.add_zero]
    exact Nat.ModEq.mul_right _ (Nat.ModEq.add_right _ hwhole)

/-- **The tag.** Absorbing a message and finishing gives the authenticator of the RFC. -/
theorem finish_absorb (key msg : Bytes) :
    poly1305Finish (poly1305Absorb (poly1305Init key) msg) = Rfc8439.poly1305 key msg := by
  have hr := reduced_key key
  have hcarried : Carried (finishBlocks (poly1305Absorb (poly1305Init key) msg)) := by
    unfold finishBlocks
    split
    · exact ((Accumulated.absorb key msg).blocks true 1 _).carried hr
    · exact (Accumulated.absorb key msg).carried hr
  obtain ⟨-, hbelow, hcarry⟩ := finishCarry_spec hcarried
  obtain ⟨-, hlast, hreduce⟩ := finishReduce_spec hbelow
  have hpad : (poly1305Absorb (poly1305Init key) msg).pad = (poly1305Init key).pad := rfl
  rw [poly1305Finish_eq, finishPad_eq, wordsValue_finishWords hlast, hreduce, hcarry,
    limbsValue_finishBlocks, hpad, wordsValue_pad, Rfc8439.poly1305, ← toBytesLE_mod,
    ← toBytesLE_mod 16 (Rfc8439.accumulate .. + _)]
  congr 1
  exact Nat.mod_add_mod ..

end Mpubsub.Wire
