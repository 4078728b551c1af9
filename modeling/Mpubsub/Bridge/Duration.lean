import Mpubsub.Bridge.Config
import Mpubsub.Lib.Rounding
import Mpubsub.Replay.Go

/-!
# Seconds of a duration

`uint32(d.Seconds())`: the seconds and the nanoseconds are added as `float64`s, and the sum is cut
to an integer of 32 bits. What the conversion makes of a sum that has more bits is left to the
processor. A duration keeps its length so, to a second, if and only if it has one and the sum fits
(`kept_iff`).
-/

namespace Mpubsub.Bridge

open Mpubsub.Lib.Rounding

/-- `d.Seconds()`, of a duration that is not negative. -/
def seconds (d : Int) : ℚ :=
  nearest (nearest (d / SECOND : Int) + nearest (nearest (d % SECOND : Int) / 1000000000))

/-- `uint32(d.Seconds())`; `conv` converts what does not fit. -/
def uint32Seconds (conv : ℚ → UInt32) (d : Int) : UInt32 :=
  if seconds d < 2 ^ 32 then UInt32.ofNat ⌊seconds d⌋.toNat else conv (seconds d)

/-- A window as long as a duration, to a second. -/
structure Kept (d : Int) (window : UInt32) : Prop where
  positive : 1 ≤ window.toNat
  close : |(window.toNat : Int) * SECOND - d| ≤ SECOND
  enabled : ∀ maxEntries, (Replay.Go.ReplayGuard.new window maxEntries).enabled = true

/-- The part of a second is a double between 0 and 1, and next to the part itself. -/
theorem nearest_part (d : Int) :
    0 ≤ nearest (nearest (d % SECOND : Int) / 1000000000) ∧
      nearest (nearest (d % SECOND : Int) / 1000000000) ≤ 1 ∧
      nearest (nearest (d % SECOND : Int) / 1000000000) ≤
        999999999 / 1000000000 * (1 + 1 / 2 ^ 53) := by
  have hlow : 0 ≤ d % SECOND := Int.emod_nonneg d (by decide)
  have hhigh : d % SECOND ≤ 999999999 := by
    have := Int.emod_lt_of_pos d (show 0 < SECOND by decide)
    rw [SECOND] at this ⊢
    omega
  rw [nearest_intCast hlow (by omega)]
  have hlow' : (0 : ℚ) ≤ (d % SECOND : Int) := by exact_mod_cast hlow
  have hhigh' : ((d % SECOND : Int) : ℚ) ≤ 999999999 := by exact_mod_cast hhigh
  have hpart : (0 : ℚ) ≤ (d % SECOND : Int) / 1000000000 := div_nonneg hlow' (by norm_num)
  have hpart' : ((d % SECOND : Int) : ℚ) / 1000000000 ≤ 999999999 / 1000000000 :=
    div_le_div_of_nonneg_right hhigh' (by norm_num)
  have hclose : nearest ((d % SECOND : Int) / 1000000000) ≤
      999999999 / 1000000000 * (1 + 1 / 2 ^ 53) :=
    (nearest_le_mul hpart).trans (mul_le_mul_of_nonneg_right hpart' (by norm_num))
  exact ⟨nearest_nonneg hpart, hclose.trans (by norm_num), hclose⟩

section

variable {d : Int} (h₀ : 0 ≤ d)
include h₀

/-- Rounding does not carry the seconds beyond the next one. -/
theorem seconds_bounds (h : d < 2 ^ 63) :
    ((d / SECOND : Int) : ℚ) ≤ seconds d ∧ seconds d ≤ ((d / SECOND + 1 : Int) : ℚ) := by
  have hlow : 0 ≤ d / SECOND := Int.ediv_nonneg h₀ (by decide)
  have hhigh : d / SECOND < 2 ^ 34 := by
    rw [SECOND]
    omega
  obtain ⟨hpart, hone, -⟩ := nearest_part d
  have hlow' : (0 : ℚ) ≤ (d / SECOND : Int) := by exact_mod_cast hlow
  have hhigh' : ((d / SECOND : Int) : ℚ) < 2 ^ 34 := by exact_mod_cast hhigh
  rw [seconds, nearest_intCast hlow (by omega)]
  generalize nearest (nearest (d % SECOND : Int) / 1000000000) = part at hpart hone ⊢
  rcases (add_nonneg hlow' hpart).eq_or_lt with hzero | hpos
  · rw [← hzero, nearest_zero]
    push_cast
    exact ⟨by linarith, by linarith⟩
  · have hsmall : ((d / SECOND : Int) : ℚ) + part < 2 ^ 53 := by linarith
    exact ⟨le_nearest hpos hsmall (by linarith),
      nearest_le hpos hsmall (by push_cast; linarith)⟩

/-- Less than a second stays less. -/
theorem seconds_lt_one (h : d < SECOND) : seconds d < 1 := by
  obtain ⟨hpart, -, hclose⟩ := nearest_part d
  rw [seconds, Int.ediv_eq_zero_of_lt h₀ h, Int.cast_zero, nearest_zero, zero_add]
  refine (nearest_le_mul hpart).trans_lt ?_
  calc nearest (nearest (d % SECOND : Int) / 1000000000) * (1 + 1 / 2 ^ 53)
      ≤ 999999999 / 1000000000 * (1 + 1 / 2 ^ 53) * (1 + 1 / 2 ^ 53) :=
        mul_le_mul_of_nonneg_right hclose (by norm_num)
    _ < 1 := by norm_num

/-- and is cut to nothing. -/
theorem uint32Seconds_of_lt (h : d < SECOND) (conv : ℚ → UInt32) : uint32Seconds conv d = 0 := by
  have hsmall := seconds_lt_one h₀ h
  have hfloor : ⌊seconds d⌋ ≤ 0 := Int.floor_le_iff.mpr (by simpa using hsmall)
  rw [uint32Seconds, if_pos (hsmall.trans (by norm_num)), Int.toNat_of_nonpos hfloor]
  rfl

/-- A second or more, of which the sum fits. -/
theorem kept_of_fits (h : d < 2 ^ 63) (hone : SECOND ≤ d) (hfits : seconds d < 2 ^ 32)
    (conv : ℚ → UInt32) : Kept d (uint32Seconds conv d) := by
  obtain ⟨hlow, hhigh⟩ := seconds_bounds h₀ h
  have hsec : 1 ≤ d / SECOND := Int.le_ediv_of_mul_le (by decide) (by omega)
  have hfloor : d / SECOND ≤ ⌊seconds d⌋ := Int.le_floor.mpr hlow
  have hfloor' : ⌊seconds d⌋ ≤ d / SECOND + 1 := Int.floor_le_iff.mpr (by
    push_cast at hhigh ⊢
    linarith)
  have hbound : ⌊seconds d⌋ < 2 ^ 32 := Int.floor_lt.mpr (by exact_mod_cast hfits)
  have hwindow : ((uint32Seconds conv d).toNat : Int) = ⌊seconds d⌋ := by
    rw [uint32Seconds, if_pos hfits, UInt32.toNat_ofNat', Nat.mod_eq_of_lt (by omega)]
    omega
  have hpositive : 1 ≤ (uint32Seconds conv d).toNat := by omega
  refine ⟨hpositive, ?_, fun maxEntries => bne_iff_ne.mpr fun hzero => ?_⟩
  · rw [hwindow, abs_le]
    have hsplit := Int.mul_ediv_add_emod d SECOND
    have hrest := Int.emod_nonneg d (show SECOND ≠ 0 by decide)
    have hrest' := Int.emod_lt_of_pos d (show 0 < SECOND by decide)
    rw [SECOND] at *
    omega
  · have hwindow : uint32Seconds conv d = 0 := hzero
    rw [hwindow] at hpositive
    exact absurd hpositive (by decide)

end

/-- On every processor a duration is kept if it has a second and its seconds fit, and only then. -/
theorem kept_iff {d : Int} (h₀ : 0 ≤ d) (h : d < 2 ^ 63) :
    (∀ conv, Kept d (uint32Seconds conv d)) ↔ SECOND ≤ d ∧ seconds d < 2 ^ 32 := by
  constructor
  · intro hkept
    have hpositive := (hkept fun _ => 0).positive
    constructor
    · refine not_lt.mp fun hlt => ?_
      rw [uint32Seconds_of_lt h₀ hlt] at hpositive
      exact absurd hpositive (by decide)
    · by_contra hfits
      rw [uint32Seconds, if_neg hfits] at hpositive
      exact absurd hpositive (by decide)
  · exact fun ⟨hone, hfits⟩ conv => kept_of_fits h₀ h hone hfits conv

end Mpubsub.Bridge
