import Mathlib.Tactic.Positivity
import Mpubsub.Lib.Rounding

/-!
# Decimal numbers of a fixed precision

The positive numbers with a given number of significant digits, and the nearest of them to a
number, with ties to the even digit (`Decimal.nearest`). It is never further away than half a unit
of its last place (`abs_sub_nearest_le`), and a number that is nearer than that to a decimal number
goes to it (`nearest_eq_of_near`): on the side of a smaller power of ten, where the decimal numbers
are ten times as dense, it has to be ten times as near.
-/

namespace Mpubsub.Lib

open Rounding

/-- `digits / 10 ^ p * 10 ^ exponent`, with one digit before the point and `p` behind it. -/
@[ext] structure Decimal (p : Nat) where
  digits : Nat
  exponent : ℤ
  leading : 10 ^ p ≤ digits
  bounded : digits < 10 ^ (p + 1)
  deriving DecidableEq

namespace Decimal

variable {p : Nat}

/-- A unit in the last place. -/
def unit (d : Decimal p) : ℚ := 10 ^ (d.exponent - p)

def value (d : Decimal p) : ℚ := d.digits * d.unit

theorem unit_pos (d : Decimal p) : 0 < d.unit := zpow_pos (by norm_num) _

theorem pow_mul_unit (d : Decimal p) (k : Nat) : 10 ^ (p + k) * d.unit = 10 ^ (d.exponent + k) := by
  unfold unit
  rw [← zpow_natCast, ← zpow_add₀ (by norm_num)]
  congr 1
  push_cast
  ring

theorem zpow_le_value (d : Decimal p) : 10 ^ d.exponent ≤ d.value := by
  have hleading : (10 : ℚ) ^ p ≤ d.digits := by exact_mod_cast d.leading
  calc (10 : ℚ) ^ d.exponent = 10 ^ p * d.unit := by simpa using (d.pow_mul_unit 0).symm
    _ ≤ d.digits * d.unit := mul_le_mul_of_nonneg_right hleading d.unit_pos.le

theorem value_pos (d : Decimal p) : 0 < d.value :=
  (zpow_pos (by norm_num) _).trans_le d.zpow_le_value

/-- There is room for a unit below the next power of ten. -/
theorem value_add_unit_le (d : Decimal p) : d.value + d.unit ≤ 10 ^ (d.exponent + 1) := by
  have hbounded : (d.digits : ℚ) + 1 ≤ 10 ^ (p + 1) := by exact_mod_cast d.bounded
  calc d.value + d.unit = (d.digits + 1) * d.unit := by
        unfold value
        ring
    _ ≤ 10 ^ (p + 1) * d.unit := mul_le_mul_of_nonneg_right hbounded d.unit_pos.le
    _ = 10 ^ (d.exponent + 1) := by exact_mod_cast d.pow_mul_unit 1

theorem value_eq_zpow {d : Decimal p} (h : d.digits = 10 ^ p) : d.value = 10 ^ d.exponent := by
  have hpow := d.pow_mul_unit 0
  simp only [Nat.cast_zero, add_zero] at hpow
  rw [← hpow, value, h]
  push_cast
  rfl

/-- Any other number is a unit above the power of ten. -/
theorem zpow_add_unit_le_value {d : Decimal p} (h : 10 ^ p < d.digits) :
    10 ^ d.exponent + d.unit ≤ d.value := by
  have hmore : ((10 ^ p : Nat) : ℚ) + 1 ≤ d.digits := by exact_mod_cast h
  have hpow := d.pow_mul_unit 0
  have hmul := mul_le_mul_of_nonneg_right hmore d.unit_pos.le
  push_cast at hpow hmul
  simp only [add_zero] at hpow
  rw [add_mul, hpow, one_mul] at hmul
  exact hmul

theorem exists_value_eq_zpow (p : Nat) (e : ℤ) :
    ∃ d : Decimal p, d.exponent = e ∧ d.value = 10 ^ e :=
  ⟨⟨10 ^ p, e, le_rfl, Nat.pow_lt_pow_right (by decide) (Nat.lt_succ_self p)⟩, rfl,
    value_eq_zpow rfl⟩

/-- The number in units of the last place that its decimal number has. -/
def scaled (p : Nat) (x : ℚ) : ℚ := x / 10 ^ (Int.log 10 x - p)

theorem le_scaled {x : ℚ} (h : 0 < x) : ((10 ^ p : Nat) : ℤ) ≤ nearestEven (scaled p x) := by
  refine le_nearestEven ((le_div_iff₀ (zpow_pos (by norm_num) _)).mpr ?_)
  have hlog := Int.zpow_log_le_self (by decide : 1 < 10) h
  push_cast
  rw [← zpow_natCast, ← zpow_add₀ (by norm_num), add_sub_cancel]
  exact_mod_cast hlog

theorem scaled_le {x : ℚ} : nearestEven (scaled p x) ≤ ((10 ^ (p + 1) : Nat) : ℤ) := by
  refine nearestEven_le ((div_le_iff₀ (zpow_pos (by norm_num) _)).mpr ?_)
  have hlog := Int.lt_zpow_succ_log_self (by decide : 1 < 10) x
  push_cast
  rw [← zpow_natCast, ← zpow_add₀ (by norm_num)]
  push_cast
  rw [show (p : ℤ) + 1 + (Int.log 10 x - p) = Int.log 10 x + 1 by ring]
  exact_mod_cast hlog.le

/-- The nearest decimal number. -/
def nearest (p : Nat) (x : ℚ) (h : 0 < x) : Decimal p :=
  let n := (nearestEven (scaled p x)).toNat
  if hlt : n < 10 ^ (p + 1) then
    { digits := n, exponent := Int.log 10 x, bounded := hlt
      leading := by have := le_scaled (p := p) h; omega }
  else
    { digits := 10 ^ p, exponent := Int.log 10 x + 1, leading := le_refl _
      bounded := Nat.pow_lt_pow_right (by decide) (Nat.lt_succ_self p) }

theorem log_eq {x : ℚ} (h : 0 < x) {e : ℤ} (hle : 10 ^ e ≤ x) (hlt : x < 10 ^ (e + 1)) :
    Int.log 10 x = e := by
  have hlow := (Int.zpow_le_iff_le_log (by decide : 1 < 10) h).mp (by exact_mod_cast hle)
  have hhigh := (Int.lt_zpow_iff_log_lt (by decide : 1 < 10) h).mp (by exact_mod_cast hlt)
  omega

theorem nearest_value {x : ℚ} (h : 0 < x) :
    (nearest p x h).value = nearestEven (scaled p x) * 10 ^ (Int.log 10 x - p) := by
  have hcast : ((nearestEven (scaled p x)).toNat : ℤ) = nearestEven (scaled p x) :=
    Int.toNat_of_nonneg (le_trans (Int.natCast_nonneg _) (le_scaled h))
  unfold nearest
  by_cases hlt : (nearestEven (scaled p x)).toNat < 10 ^ (p + 1)
  · simp only [hlt, dite_true]
    show ((nearestEven (scaled p x)).toNat : ℚ) * 10 ^ (Int.log 10 x - p) = _
    rw [← Int.cast_natCast, hcast]
  · simp only [hlt, dite_false]
    have heq : nearestEven (scaled p x) = ((10 ^ (p + 1) : Nat) : ℤ) := by
      have hle := scaled_le (p := p) (x := x)
      omega
    show ((10 ^ p : Nat) : ℚ) * 10 ^ (Int.log 10 x + 1 - p) = _
    rw [heq, show Int.log 10 x + 1 - p = Int.log 10 x - p + 1 by ring, zpow_add_one₀ (by norm_num)]
    push_cast
    ring

theorem log_le_exponent {x : ℚ} (h : 0 < x) : Int.log 10 x ≤ (nearest p x h).exponent := by
  unfold nearest
  by_cases hlt : (nearestEven (scaled p x)).toNat < 10 ^ (p + 1)
  · simp only [hlt, dite_true, le_refl]
  · simp only [hlt, dite_false]
    exact (lt_add_one _).le

theorem exponent_le_log_add_one {x : ℚ} (h : 0 < x) :
    (nearest p x h).exponent ≤ Int.log 10 x + 1 := by
  unfold nearest
  by_cases hlt : (nearestEven (scaled p x)).toNat < 10 ^ (p + 1)
  · simp only [hlt, dite_true]
    exact (lt_add_one _).le
  · simp only [hlt, dite_false, le_refl]

/-- The decimal number is at most half a unit of the last place away. -/
theorem abs_sub_nearest_le {x : ℚ} (h : 0 < x) :
    |x - (nearest p x h).value| ≤ 10 ^ (Int.log 10 x - p) / 2 := by
  have hpos : (0 : ℚ) < 10 ^ (Int.log 10 x - p) := zpow_pos (by norm_num) _
  have hscale : x = scaled p x * 10 ^ (Int.log 10 x - p) := by
    unfold scaled
    rw [div_mul_cancel₀ _ hpos.ne']
  rw [nearest_value]
  nth_rewrite 1 [hscale]
  rw [← sub_mul, abs_mul, abs_of_pos hpos]
  have hnear := mul_le_mul_of_nonneg_right (abs_sub_nearestEven_le (scaled p x)) hpos.le
  linarith

/-- The digits that a number has if it is near to them. -/
theorem nearestEven_scaled {x : ℚ} {n : Nat}
    (h : |x - n * 10 ^ (Int.log 10 x - p)| < 10 ^ (Int.log 10 x - p) / 2) :
    nearestEven (scaled p x) = (n : ℤ) := by
  have hpos : (0 : ℚ) < 10 ^ (Int.log 10 x - p) := zpow_pos (by norm_num) _
  have hscaled : scaled p x - ((n : ℤ) : ℚ) =
      (x - n * 10 ^ (Int.log 10 x - p)) / 10 ^ (Int.log 10 x - p) := by
    unfold scaled
    rw [sub_div, mul_div_cancel_right₀ _ hpos.ne', Int.cast_natCast]
  refine nearestEven_of_abs_lt ?_
  rw [hscaled, abs_div, abs_of_pos hpos, div_lt_iff₀ hpos]
  linarith

/-- A number in the decade of a decimal number goes to it if it is near. -/
theorem nearest_eq_of_log_eq {d : Decimal p} {x : ℚ} (h : 0 < x) (hlog : Int.log 10 x = d.exponent)
    (hnear : |x - d.value| < d.unit / 2) : nearest p x h = d := by
  have hround : nearestEven (scaled p x) = (d.digits : ℤ) := by
    refine nearestEven_scaled ?_
    rw [hlog]
    exact hnear
  unfold nearest
  simp only [hround, hlog, Int.toNat_natCast, d.bounded, dite_true]

/-- A number below the power of ten that a decimal number is has to be ten times as near. -/
theorem nearest_eq_of_lt {d : Decimal p} {x : ℚ} (h : 0 < x) (hdigits : d.digits = 10 ^ p)
    (hlt : x < 10 ^ d.exponent) (hnear : |x - d.value| < d.unit / 20) : nearest p x h = d := by
  have hvalue := value_eq_zpow hdigits
  have hunit : d.unit = 10 ^ (d.exponent - 1 - p) * 10 := by
    unfold unit
    rw [← zpow_add_one₀ (by norm_num)]
    congr 1
    ring
  have hlog : Int.log 10 x = d.exponent - 1 := by
    have hpos : (0 : ℚ) < 10 ^ (d.exponent - 1) := zpow_pos (by norm_num) _
    have hsmall : d.unit ≤ 10 ^ d.exponent := zpow_le_zpow_right₀ (by norm_num) (by omega)
    have hdown : (10 : ℚ) ^ d.exponent = 10 ^ (d.exponent - 1) * 10 := by
      rw [← zpow_add_one₀ (by norm_num), sub_add_cancel]
    refine log_eq h ?_ (by rwa [sub_add_cancel])
    linarith [(abs_lt.mp hnear).1]
  -- In units of its own last place it is less than a half away from `10 ^ (p + 1)`.
  have hround : nearestEven (scaled p x) = ((10 ^ (p + 1) : Nat) : ℤ) := by
    refine nearestEven_scaled ?_
    have hcarried : ((10 ^ (p + 1) : Nat) : ℚ) * 10 ^ (d.exponent - 1 - p) = d.value := by
      rw [value, hdigits, hunit]
      push_cast
      ring
    rw [hlog, hcarried]
    linarith
  unfold nearest
  simp only [hround, hlog, Int.toNat_natCast, lt_self_iff_false, dite_false, sub_add_cancel]
  ext
  · exact hdigits.symm
  · rfl

/-- A number that is near to a decimal number goes to it. -/
theorem nearest_eq_of_near {d : Decimal p} {x : ℚ} (h : 0 < x) (hnear : |x - d.value| < d.unit / 2)
    (hbelow : d.value ≤ x ∨ 10 ^ p < d.digits ∨ |x - d.value| < d.unit / 20) :
    nearest p x h = d := by
  have hunit := d.unit_pos
  have hlower := (abs_lt.mp hnear).1
  rcases le_or_gt (10 ^ d.exponent) x with hlow | hlow
  · refine nearest_eq_of_log_eq h (log_eq h hlow ?_) hnear
    linarith [d.value_add_unit_le, (abs_lt.mp hnear).2]
  · have hvalue := d.zpow_le_value
    rcases d.leading.lt_or_eq with hmore | hten
    · linarith [zpow_add_unit_le_value hmore]
    · refine nearest_eq_of_lt h hten.symm hlow ?_
      rcases hbelow with hle | hmore | hclose
      · linarith
      · omega
      · exact hclose

end Decimal

end Mpubsub.Lib
