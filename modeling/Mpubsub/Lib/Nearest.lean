import Mathlib.Algebra.Order.Floor.Semifield
import Mpubsub.Lib.Ieee754
import Mpubsub.Lib.Rounding

/-!
# The number of a format nearest to a rational number

`nearest` rounds as `round` does, from a rational number (`nearest_div`). It is monotone, and a
number that is not above a finite one of the format goes to a finite one (`nearest_lt_infinity`),
which is off by half a least number or by half a unit of the last place (`abs_units_sub_le`).
-/

namespace Mpubsub.Lib.Ieee754.Format

open Rounding

variable (F : Format)

/-- What a finite magnitude stands for. -/
def value (m : Nat) : ℚ := F.units m / 2 ^ F.scale

/-- How many digits the significand of so many least numbers leaves out. -/
def dropped (n : ℚ) : Nat := ⌊n⌋₊.log2 - F.trailing

/-- The magnitude nearest to so many least numbers, when there is no end to them. -/
def ofUnits (n : ℚ) : Nat :=
  F.dropped n * 2 ^ F.trailing + (nearestEven (n / 2 ^ F.dropped n)).toNat

/-- The magnitude nearest to a number. -/
def nearest (x : ℚ) : Nat := min (F.ofUnits (x * 2 ^ F.scale)) F.infinity

variable {F}

theorem dropped_mono {n k : ℚ} (h : n ≤ k) : F.dropped n ≤ F.dropped k := by
  refine Nat.sub_le_sub_right ?_ _
  rcases Nat.eq_zero_or_pos ⌊n⌋₊ with hzero | hpos
  · rw [hzero, Nat.log2_zero]
    exact Nat.zero_le _
  · have hle := Nat.floor_le_floor h
    exact (Nat.le_log2 (by omega)).mpr ((Nat.log2_self_le (by omega)).trans hle)

/-- Digits are left out only if there are more than the significand has. -/
theorem le_of_dropped {n : ℚ} (h : F.dropped n ≠ 0) : 2 ^ F.trailing * 2 ^ F.dropped n ≤ n := by
  have hne : ⌊n⌋₊ ≠ 0 := by
    intro hzero
    simp [dropped, hzero] at h
  have hlog : F.trailing + F.dropped n = ⌊n⌋₊.log2 := by
    unfold dropped at h ⊢
    omega
  have hle : 2 ^ (F.trailing + F.dropped n) ≤ ⌊n⌋₊ := hlog ▸ Nat.log2_self_le hne
  rw [← pow_add]
  exact_mod_cast (Nat.le_floor_iff' (by positivity)).mp hle

/-- The significand fits. -/
theorem lt_of_dropped (n : ℚ) : n < 2 ^ (F.trailing + 1) * 2 ^ F.dropped n := by
  have hlog : ⌊n⌋₊.log2 < F.trailing + 1 + F.dropped n := by
    unfold dropped
    omega
  have hlt : ⌊n⌋₊ < 2 ^ (F.trailing + 1 + F.dropped n) :=
    Nat.lt_log2_self.trans_le (Nat.pow_le_pow_right (by decide) hlog)
  rw [← pow_add]
  exact_mod_cast (Nat.floor_lt' (by positivity)).mp hlt

theorem significand_le (n : ℚ) :
    nearestEven (n / 2 ^ F.dropped n) ≤ ((2 ^ (F.trailing + 1) : Nat) : ℤ) := by
  refine nearestEven_le ((div_le_iff₀ (by positivity)).mpr ?_)
  push_cast
  exact (lt_of_dropped n).le

theorem le_significand {n : ℚ} (h : F.dropped n ≠ 0) :
    ((2 ^ F.trailing : Nat) : ℤ) ≤ nearestEven (n / 2 ^ F.dropped n) := by
  refine le_nearestEven ((le_div_iff₀ (by positivity)).mpr ?_)
  push_cast
  exact le_of_dropped h

/-- A number below the normal ones counts itself. -/
theorem dropped_eq_zero {n : ℚ} (h : n < 2 ^ (F.trailing + 1)) : F.dropped n = 0 := by
  by_contra hne
  have hle := le_of_dropped hne
  have htwo : (2 : ℚ) ^ 1 ≤ 2 ^ F.dropped n :=
    pow_le_pow_right₀ (by norm_num) (Nat.pos_of_ne_zero hne)
  have hmul := mul_le_mul_of_nonneg_left htwo (by positivity : (0 : ℚ) ≤ 2 ^ F.trailing)
  rw [← pow_add] at hmul
  linarith

/-- The larger number has the larger magnitude. -/
theorem ofUnits_mono {n k : ℚ} (h : n ≤ k) : F.ofUnits n ≤ F.ofUnits k := by
  unfold ofUnits
  rcases (dropped_mono (F := F) h).eq_or_lt with heq | hlt
  · rw [← heq]
    have hround := nearestEven_mono
      (div_le_div_of_nonneg_right h (by positivity : (0 : ℚ) ≤ 2 ^ F.dropped n))
    exact Nat.add_le_add_left (Int.toNat_le_toNat hround) _
  · have hsmall := significand_le (F := F) n
    have hlarge := le_significand (F := F) (n := k) (by omega)
    have hstep : (F.dropped n + 1) * 2 ^ F.trailing ≤ F.dropped k * 2 ^ F.trailing :=
      Nat.mul_le_mul_right _ hlt
    rw [Nat.succ_mul] at hstep
    rw [Nat.pow_succ] at hsmall
    omega

theorem nearest_mono {x y : ℚ} (h : x ≤ y) : F.nearest x ≤ F.nearest y := by
  unfold nearest
  have hmul := mul_le_mul_of_nonneg_right h (by positivity : (0 : ℚ) ≤ 2 ^ F.scale)
  have hle := ofUnits_mono (F := F) hmul
  omega

/-! ## Rounding of integers -/

theorem nearestEven_div (n j : Nat) : nearestEven ((n : ℚ) / 2 ^ j) = halfEven n j := by
  have hpos : (0 : ℚ) < 2 ^ j := by positivity
  have hfloor : ⌊(n : ℚ) / 2 ^ j⌋ = ((n / 2 ^ j : Nat) : ℤ) := by
    have := Rat.floor_intCast_div_natCast (n : ℤ) (2 ^ j)
    push_cast at this ⊢
    exact this
  have hsplit : (n : ℚ) / 2 ^ j - ((n / 2 ^ j : Nat) : ℚ) = ((n % 2 ^ j : Nat) : ℚ) / 2 ^ j := by
    have hdiv : (n : ℚ) = 2 ^ j * ((n / 2 ^ j : Nat) : ℚ) + ((n % 2 ^ j : Nat) : ℚ) := by
      exact_mod_cast (Nat.div_add_mod n (2 ^ j)).symm
    rw [eq_div_iff hpos.ne', sub_mul, div_mul_cancel₀ _ hpos.ne']
    linarith
  have hlt : 2 * (((n % 2 ^ j : Nat) : ℚ) / 2 ^ j) < 1 ↔ 2 * (n % 2 ^ j) < 2 ^ j := by
    rw [← mul_div_assoc, div_lt_one hpos]
    exact_mod_cast Iff.rfl
  have heq : 2 * (((n % 2 ^ j : Nat) : ℚ) / 2 ^ j) = 1 ↔ 2 * (n % 2 ^ j) = 2 ^ j := by
    rw [← mul_div_assoc, div_eq_one_iff_eq hpos.ne']
    exact_mod_cast Iff.rfl
  have heven : ((n / 2 ^ j : Nat) : ℤ) % 2 = 0 ↔ n / 2 ^ j % 2 = 0 := by omega
  unfold nearestEven halfEven
  simp only [hfloor, Int.cast_natCast, hsplit, hlt, heq, heven]
  split
  · rfl
  · push_cast
    rfl

/-- `nearest` is `round` where that is defined. -/
theorem nearest_div (n s : Nat) : F.nearest ((n : ℚ) / 2 ^ s / 2 ^ F.scale) = F.round n s := by
  have hfloor : ⌊(n : ℚ) / 2 ^ s⌋₊ = n / 2 ^ s := by
    have := @Nat.floor_div_eq_div ℚ _ _ _ _ n (2 ^ s)
    push_cast at this
    exact this
  unfold nearest round ofUnits dropped
  rw [div_mul_cancel₀ _ (by positivity), hfloor, div_div, ← pow_add, nearestEven_div,
    Int.toNat_natCast]

/-- A number of the format is the nearest to itself. -/
theorem nearest_value {m : Nat} (h : m < F.infinity) : F.nearest (F.value m) = m := by
  have hunits := nearest_div (F := F) (F.units m * 2 ^ 0) 0
  rw [round_units h 0] at hunits
  simpa [value] using hunits

theorem nearest_lt_infinity {x : ℚ} {m : Nat} (hm : m < F.infinity) (h : x ≤ F.value m) :
    F.nearest x < F.infinity :=
  (nearest_value hm ▸ nearest_mono h).trans_lt hm

/-! ## The error -/

/-- A significand that has been carried is one of the next exponent. -/
theorem units_significand {e a : Nat} (hle : a ≤ 2 ^ (F.trailing + 1))
    (h : e = 0 ∨ 2 ^ F.trailing ≤ a) : F.units (e * 2 ^ F.trailing + a) = a * 2 ^ e := by
  have hpos : 0 < 2 ^ F.trailing := Nat.two_pow_pos _
  rw [Nat.pow_succ] at hle
  rcases Nat.lt_or_ge a (2 ^ F.trailing) with hsub | hnormal
  · obtain rfl : e = 0 := h.resolve_right (Nat.not_le_of_lt hsub)
    rw [Nat.zero_mul, Nat.zero_add, units, if_pos hsub, Nat.pow_zero, Nat.mul_one]
  · obtain ⟨f, rfl⟩ := Nat.exists_eq_add_of_le hnormal
    rcases Nat.lt_or_ge f (2 ^ F.trailing) with hf | hf
    · exact units_add hf
    · obtain rfl : f = 2 ^ F.trailing := by omega
      have hnext : e * 2 ^ F.trailing + (2 ^ F.trailing + 2 ^ F.trailing) =
          (e + 1) * 2 ^ F.trailing + (2 ^ F.trailing + 0) := by ring
      rw [hnext, units_add hpos]
      ring

/-- What the magnitude stands for is off by half a unit of the last place. -/
theorem abs_units_sub_le {n : ℚ} (h : 0 ≤ n) :
    |n - F.units (F.ofUnits n)| ≤ 2 ^ F.dropped n / 2 := by
  have hpos : (0 : ℚ) < 2 ^ F.dropped n := by positivity
  have hsign : 0 ≤ nearestEven (n / 2 ^ F.dropped n) :=
    le_nearestEven (by exact_mod_cast div_nonneg h hpos.le)
  obtain ⟨a, ha⟩ := Int.eq_ofNat_of_zero_le hsign
  have hunits : F.units (F.ofUnits n) = a * 2 ^ F.dropped n := by
    have hle := significand_le (F := F) n
    have hleading := le_significand (F := F) (n := n)
    unfold ofUnits
    rw [ha, Int.toNat_natCast]
    refine units_significand (by omega) ?_
    rcases Nat.eq_zero_or_pos (F.dropped n) with hzero | hdropped
    · exact .inl hzero
    · exact .inr (by have := hleading (by omega); omega)
  have hnear := abs_sub_nearestEven_le (n / 2 ^ F.dropped n)
  rw [ha] at hnear
  have hscaled : n - (F.units (F.ofUnits n) : ℚ) =
      (n / 2 ^ F.dropped n - ((a : ℤ) : ℚ)) * 2 ^ F.dropped n := by
    rw [hunits, sub_mul, div_mul_cancel₀ _ hpos.ne']
    push_cast
    rfl
  rw [hscaled, abs_mul, abs_of_pos hpos]
  have hmul := mul_le_mul_of_nonneg_right hnear hpos.le
  linarith

/-- Above the least numbers the error is relative to the number. -/
theorem two_pow_dropped_le (n : ℚ) :
    2 ^ F.dropped n ≤ max 1 (n / 2 ^ F.trailing) := by
  by_cases hzero : F.dropped n = 0
  · rw [hzero, pow_zero]
    exact le_max_left _ _
  · refine le_max_of_le_right ((le_div_iff₀ (by positivity)).mpr ?_)
    rw [mul_comm]
    exact le_of_dropped hzero

end Mpubsub.Lib.Ieee754.Format
