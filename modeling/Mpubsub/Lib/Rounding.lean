import Mathlib.Data.Int.Log
import Mathlib.Data.Rat.Floor
import Mathlib.Tactic.FieldSimp
import Mathlib.Tactic.Linarith

/-!
# Rounding to a double

The double nearest to a number that is not negative, with ties to even (`nearest`), between the
subnormal numbers and the overflow. An integer below `2 ^ 53` is a double, so rounding does not
carry a number across it (`le_nearest`, `nearest_le`).
-/

namespace Mpubsub.Lib.Rounding

/-- The nearest integer, the even one of two. -/
def nearestEven (x : ℚ) : ℤ :=
  if 2 * (x - ⌊x⌋) < 1 ∨ 2 * (x - ⌊x⌋) = 1 ∧ ⌊x⌋ % 2 = 0 then ⌊x⌋ else ⌊x⌋ + 1

/-- The distance of the doubles around a number. -/
def ulp (x : ℚ) : ℚ := 2 ^ (Int.log 2 x - 52)

/-- The nearest double. -/
def nearest (x : ℚ) : ℚ := nearestEven (x / ulp x) * ulp x

theorem le_nearestEven {x : ℚ} {n : ℤ} (h : n ≤ x) : n ≤ nearestEven x := by
  have hfloor := Int.le_floor.mpr h
  unfold nearestEven
  split <;> omega

theorem nearestEven_le {x : ℚ} {n : ℤ} (h : x ≤ n) : nearestEven x ≤ n := by
  have hfloor := Int.floor_le x
  unfold nearestEven
  split
  · exact_mod_cast hfloor.trans h
  · rename_i hup
    have hfrac : (⌊x⌋ : ℚ) < x := by
      by_contra hnot
      exact hup (.inl (by linarith))
    have hlt : (⌊x⌋ : ℚ) < n := hfrac.trans_le h
    exact_mod_cast hlt

theorem nearestEven_mono {x y : ℚ} (h : x ≤ y) : nearestEven x ≤ nearestEven y := by
  rcases (Int.floor_le_floor h).eq_or_lt with hfloor | hfloor
  · unfold nearestEven
    rw [← hfloor]
    split
    · split <;> omega
    · rename_i hup
      rw [if_neg]
      intro hdown
      refine hup ?_
      rcases hdown with hdown | ⟨hdown, heven⟩
      · exact .inl (by linarith)
      · rcases h.eq_or_lt with rfl | hlt
        · exact .inr ⟨hdown, heven⟩
        · exact .inl (by linarith)
  · have hnext : x ≤ ((⌊x⌋ + 1 : ℤ) : ℚ) := by
      push_cast
      exact (Int.lt_floor_add_one x).le
    calc nearestEven x ≤ ⌊x⌋ + 1 := nearestEven_le hnext
      _ ≤ ⌊y⌋ := hfloor
      _ ≤ nearestEven y := le_nearestEven (Int.floor_le y)

theorem nearestEven_le_add (x : ℚ) : (nearestEven x : ℚ) ≤ x + 1 / 2 := by
  have hfloor := Int.floor_le x
  unfold nearestEven
  split
  · linarith
  · rename_i hup
    rw [not_or] at hup
    push_cast
    linarith [not_lt.mp hup.1]

theorem abs_sub_nearestEven_le (x : ℚ) : |x - nearestEven x| ≤ 1 / 2 := by
  have hfloor := Int.floor_le x
  rw [abs_le]
  refine ⟨by linarith [nearestEven_le_add x], ?_⟩
  unfold nearestEven
  split
  · rename_i hdown
    rcases hdown with hdown | ⟨hdown, -⟩ <;> linarith
  · push_cast
    linarith [Int.lt_floor_add_one x]

/-- A number that is near enough to an integer rounds to it. -/
theorem nearestEven_of_abs_lt {x : ℚ} {n : ℤ} (h : |x - n| < 1 / 2) : nearestEven x = n := by
  have hnear := abs_sub_nearestEven_le x
  rw [abs_lt] at h
  rw [abs_le] at hnear
  have hlow : (nearestEven x : ℚ) < n + 1 := by linarith [hnear.1, h.2]
  have hhigh : (n : ℚ) < nearestEven x + 1 := by linarith [hnear.2, h.1]
  have hlow' : nearestEven x < n + 1 := by exact_mod_cast hlow
  have hhigh' : n < nearestEven x + 1 := by exact_mod_cast hhigh
  omega

theorem ulp_pos (x : ℚ) : 0 < ulp x := zpow_pos (by norm_num) _

/-- The doubles around a number below `2 ^ 53` are not further apart than the integers. -/
theorem exists_multiple {x : ℚ} (h₀ : 0 < x) (h : x < 2 ^ 53) (n : ℤ) :
    ∃ a : ℤ, (n : ℚ) = a * ulp x := by
  have hlog : Int.log 2 x ≤ 52 := by
    have hpow : (2 : ℚ) ^ Int.log 2 x < 2 ^ (53 : ℤ) :=
      (Int.zpow_log_le_self (by decide) h₀).trans_lt (by exact_mod_cast h)
    have := (zpow_lt_zpow_iff_right₀ (by norm_num : (1 : ℚ) < 2)).mp hpow
    omega
  obtain ⟨k, hk⟩ := Int.eq_ofNat_of_zero_le (show 0 ≤ 52 - Int.log 2 x by omega)
  refine ⟨n * 2 ^ k, ?_⟩
  have hulp : ulp x = (2 ^ k)⁻¹ := by
    rw [ulp, show Int.log 2 x - 52 = -(k : ℤ) by omega, zpow_neg, zpow_natCast]
  rw [hulp]
  push_cast
  field_simp

section

variable {x : ℚ} (h₀ : 0 < x) (h : x < 2 ^ 53) {n : ℤ}
include h₀ h

theorem le_nearest (hn : n ≤ x) : n ≤ nearest x := by
  obtain ⟨a, ha⟩ := exists_multiple h₀ h n
  have hpos := ulp_pos x
  rw [nearest, ha]
  rw [ha] at hn
  have hle : (a : ℚ) ≤ nearestEven (x / ulp x) := by
    exact_mod_cast le_nearestEven ((le_div_iff₀ hpos).mpr hn)
  exact mul_le_mul_of_nonneg_right hle hpos.le

theorem nearest_le (hn : x ≤ n) : nearest x ≤ n := by
  obtain ⟨a, ha⟩ := exists_multiple h₀ h n
  have hpos := ulp_pos x
  rw [nearest, ha]
  rw [ha] at hn
  have hle : (nearestEven (x / ulp x) : ℚ) ≤ a := by
    exact_mod_cast nearestEven_le ((div_le_iff₀ hpos).mpr hn)
  exact mul_le_mul_of_nonneg_right hle hpos.le

end

theorem nearest_zero : nearest 0 = 0 := by
  have hzero : nearestEven 0 = 0 := by
    have hle := @nearestEven_le 0 0 (by simp)
    have hge := @le_nearestEven 0 0 (by simp)
    omega
  rw [nearest, zero_div, hzero, Int.cast_zero, zero_mul]

theorem nearest_intCast {n : ℤ} (h₀ : 0 ≤ n) (h : n < 2 ^ 53) : nearest n = n := by
  rcases h₀.eq_or_lt with rfl | hpos
  · exact_mod_cast nearest_zero
  · have hpos' : (0 : ℚ) < n := by exact_mod_cast hpos
    have h' : (n : ℚ) < 2 ^ 53 := by exact_mod_cast h
    exact le_antisymm (nearest_le hpos' h' le_rfl) (le_nearest hpos' h' le_rfl)

theorem nearest_nonneg {x : ℚ} (h : 0 ≤ x) : 0 ≤ nearest x := by
  have hpos := ulp_pos x
  have hle : (0 : ℤ) ≤ nearestEven (x / ulp x) :=
    le_nearestEven (by rw [Int.cast_zero]; exact div_nonneg h hpos.le)
  exact mul_nonneg (by exact_mod_cast hle) hpos.le

/-- The error is relative to the number. -/
theorem nearest_le_mul {x : ℚ} (h : 0 ≤ x) : nearest x ≤ x * (1 + 1 / 2 ^ 53) := by
  rcases h.eq_or_lt with rfl | hpos
  · rw [nearest_zero, zero_mul]
  · have hulp := ulp_pos x
    have hsmall : ulp x ≤ x / 2 ^ 52 := by
      rw [ulp, zpow_sub₀ (by norm_num)]
      exact div_le_div_of_nonneg_right (Int.zpow_log_le_self (by decide) hpos) (by norm_num)
    have hround := nearestEven_le_add (x / ulp x)
    calc nearest x ≤ (x / ulp x + 1 / 2) * ulp x := mul_le_mul_of_nonneg_right hround hulp.le
      _ = x + ulp x / 2 := by field_simp
      _ ≤ x + x / 2 ^ 52 / 2 := by linarith
      _ = x * (1 + 1 / 2 ^ 53) := by ring

end Mpubsub.Lib.Rounding
