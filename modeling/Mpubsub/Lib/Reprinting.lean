import Mpubsub.Lib.Decimal
import Mpubsub.Lib.Nearest

/-!
# Printing and reading numbers

A number of a format is printed with a fixed number of digits and read again. The number that is
read prints to the same digits (`reprints`): where the format is finer than the decimal numbers,
because it is near enough to what was printed, and among the least numbers of the format, which are
coarser, because it is the number that was printed. So a number that was read from as many digits
is read again (`reread_nearest`), and any other is off by less than the digits say
(`abs_value_reread_sub_le`).
-/

namespace Mpubsub.Lib.Ieee754.Format

variable {F : Format} {p : Nat}

/-- The decimal numbers with `p` digits behind the first are coarser than the format from `10 ^ e`
on, and finer below. At `10 ^ e` itself they are coarser on one side only. -/
structure Reprints (F : Format) (p : Nat) (e : ℤ) : Prop where
  digits : 10 ^ (p + 1) < 2 ^ F.trailing
  finer : (10 : ℚ) ^ (e - 1 - p) * 2 ^ F.scale < 1
  coarser : 1 < (10 : ℚ) ^ (e - p) * 2 ^ F.scale
  subnormal : (10 : ℚ) ^ e * 2 ^ F.scale ≤ 2 ^ F.trailing
  border : (10 : ℚ) ^ e ≤ F.value (F.nearest (10 ^ e))

/-- The number that is read when the digits of a magnitude have been printed. -/
def reread (F : Format) (p : Nat) (m : Nat) (h : 0 < F.value m) : Nat :=
  F.nearest (Decimal.nearest p (F.value m) h).value

theorem value_pos {m : Nat} (h : m ≠ 0) : 0 < F.value m :=
  div_pos (by exact_mod_cast units_pos h) (by positivity)

/-- Among the least numbers, the nearest is the one that is less than half of one away. -/
theorem nearest_of_abs_lt {m : Nat} {x : ℚ} (hm : F.value m * 2 ^ F.scale < 2 ^ F.trailing)
    (hfinite : m < F.infinity) (h : |x - F.value m| * 2 ^ F.scale < 1 / 2) : F.nearest x = m := by
  have hunits : F.value m * 2 ^ F.scale = F.units m := by
    unfold value
    rw [div_mul_cancel₀ _ (by positivity)]
  have hsub : m < 2 ^ F.trailing := by
    by_contra hnormal
    obtain ⟨e, f, -, -, heq⟩ := exists_normal hnormal
    rw [hunits, heq] at hm
    have hlt : (2 ^ F.trailing + f) * 2 ^ e < 2 ^ F.trailing := by exact_mod_cast hm
    have hle := Nat.le_mul_of_pos_right (2 ^ F.trailing + f) (Nat.two_pow_pos e)
    omega
  have hself : F.units m = m := by rw [units, if_pos hsub]
  have hpos : (0 : ℚ) < 2 ^ F.scale := by positivity
  have hnear : |x * 2 ^ F.scale - ((m : Nat) : ℤ)| < 1 / 2 := by
    rw [← abs_of_pos hpos, ← abs_mul, sub_mul, hunits, hself] at h
    exact_mod_cast h
  have hdropped : F.dropped (x * 2 ^ F.scale) = 0 := by
    refine dropped_eq_zero ?_
    have hle : ((m : Nat) : ℚ) + 1 ≤ 2 ^ F.trailing := by exact_mod_cast hsub
    have hone : (1 : ℚ) ≤ 2 ^ F.trailing := one_le_pow₀ (by norm_num)
    have hupper := (abs_lt.mp hnear).2
    rw [pow_succ]
    push_cast at hupper
    linarith
  unfold nearest ofUnits
  rw [hdropped, pow_zero, div_one, Rounding.nearestEven_of_abs_lt hnear, Int.toNat_natCast]
  omega

/-- What a number is read as is off by half a least number or by half a unit of its last place. -/
theorem abs_sub_value_nearest_le {x : ℚ} (h : 0 ≤ x) (hfinite : F.nearest x < F.infinity) :
    |x - F.value (F.nearest x)| ≤ max (1 / 2 ^ F.scale) (x / 2 ^ F.trailing) / 2 := by
  have hpos : (0 : ℚ) < 2 ^ F.scale := by positivity
  have heq : F.nearest x = F.ofUnits (x * 2 ^ F.scale) := by
    unfold nearest at hfinite ⊢
    omega
  have hnear := abs_units_sub_le (F := F) (mul_nonneg h hpos.le)
  have hrel := two_pow_dropped_le (F := F) (x * 2 ^ F.scale)
  have hscaled : x - F.value (F.nearest x) =
      (x * 2 ^ F.scale - F.units (F.ofUnits (x * 2 ^ F.scale))) / 2 ^ F.scale := by
    rw [heq, value, sub_div, mul_div_cancel_right₀ _ hpos.ne']
  have hmax : max 1 (x * 2 ^ F.scale / 2 ^ F.trailing) / 2 ^ F.scale =
      max (1 / 2 ^ F.scale) (x / 2 ^ F.trailing) := by
    rw [← max_div_div_right hpos.le]
    congr 1
    field_simp
  rw [hscaled, abs_div, abs_of_pos hpos, ← hmax, div_right_comm]
  exact div_le_div_of_nonneg_right (hnear.trans (div_le_div_of_nonneg_right hrel (by norm_num)))
    hpos.le

theorem abs_value_nearest_sub_lt {x u : ℚ} (h : 0 ≤ x) (hfinite : F.nearest x < F.infinity)
    (hleast : 1 / 2 ^ F.scale < u) (hrel : x / 2 ^ F.trailing < u) :
    |F.value (F.nearest x) - x| < u / 2 := by
  have herror := abs_sub_value_nearest_le h hfinite
  have hmax := max_lt hleast hrel
  rw [abs_sub_comm]
  linarith

section

variable {e : ℤ} (hF : F.Reprints p e) {m : Nat} (hm : m < F.infinity) (hv : 0 < F.value m)
include hF

/-- Where the decimal numbers are finer, the number that was printed is read. -/
theorem reread_of_finer (hm : m < F.infinity) (hlog : Int.log 10 (F.value m) < e) :
    F.reread p m hv = m := by
  have hpos : (0 : ℚ) < 2 ^ F.scale := by positivity
  have hbelow : F.value m < 10 ^ e := by
    exact_mod_cast (Int.lt_zpow_iff_log_lt (by decide : 1 < 10) hv).mpr hlog
  refine nearest_of_abs_lt ((mul_lt_mul_of_pos_right hbelow hpos).trans_le hF.subnormal) hm ?_
  have hnear := Decimal.abs_sub_nearest_le (p := p) hv
  have hunit : (10 : ℚ) ^ (Int.log 10 (F.value m) - p) ≤ 10 ^ (e - 1 - p) :=
    zpow_le_zpow_right₀ (by norm_num) (by omega)
  rw [abs_sub_comm] at hnear
  have hmul := mul_le_mul_of_nonneg_right (hnear.trans (div_le_div_of_nonneg_right hunit
    (by norm_num))) hpos.le
  have hfiner := hF.finer
  linarith

/-- Where they are coarser, the number that is read is near to what was printed. -/
theorem abs_sub_reread_lt {d : Decimal p} (he : e ≤ d.exponent)
    (hfinite : F.nearest d.value < F.infinity) :
    |F.value (F.nearest d.value) - d.value| < d.unit / 2 ∧
      (d.value ≤ F.value (F.nearest d.value) ∨ 10 ^ p < d.digits ∨
        |F.value (F.nearest d.value) - d.value| < d.unit / 20) := by
  have hunit := d.unit_pos
  have hdigits : (10 : ℚ) ^ (p + 1) < 2 ^ F.trailing := by exact_mod_cast hF.digits
  have hpow : (10 : ℚ) ^ (e - p) ≤ d.unit := zpow_le_zpow_right₀ (by norm_num) (by omega)
  have hleast : 1 / 2 ^ F.scale < (10 : ℚ) ^ (e - p) := (div_lt_iff₀ (by positivity)).mpr hF.coarser
  have hrel : d.value / 2 ^ F.trailing < d.unit := by
    have hbound : (d.digits : ℚ) < 10 ^ (p + 1) := by exact_mod_cast d.bounded
    rw [div_lt_iff₀ (by positivity), Decimal.value, mul_comm]
    exact mul_lt_mul_of_pos_left (hbound.trans hdigits) hunit
  refine ⟨abs_value_nearest_sub_lt d.value_pos.le hfinite (hleast.trans_le hpow) hrel, ?_⟩
  rcases d.leading.lt_or_eq with hmore | hten
  · exact .inr (.inl hmore)
  rcases he.lt_or_eq with hlt | heq
  · -- One decade above the border the least numbers are ten times as fine.
    refine .inr (.inr ?_)
    have hfine : (10 : ℚ) ^ (e - p) * 10 ≤ d.unit := by
      unfold Decimal.unit
      rw [← zpow_add_one₀ (by norm_num)]
      exact zpow_le_zpow_right₀ (by norm_num) (by omega)
    have hrel' : d.value / 2 ^ F.trailing < d.unit / 10 := by
      have hmul := mul_lt_mul_of_pos_left hdigits hunit
      rw [pow_succ] at hmul
      rw [div_lt_div_iff₀ (by positivity) (by norm_num), Decimal.value, ← hten]
      push_cast
      linarith
    have hclose := abs_value_nearest_sub_lt d.value_pos.le hfinite (by linarith) hrel'
    linarith
  · refine .inl ?_
    rw [Decimal.value_eq_zpow hten.symm, ← heq]
    exact hF.border

/-- A decimal number that is read as a finite number is printed for it. -/
theorem nearest_value_nearest {d : Decimal p} (he : e ≤ d.exponent)
    (hfinite : F.nearest d.value < F.infinity) :
    ∃ hw : 0 < F.value (F.nearest d.value),
      Decimal.nearest p (F.value (F.nearest d.value)) hw = d := by
  obtain ⟨hnear, hbelow⟩ := abs_sub_reread_lt hF he hfinite
  have hd := d.zpow_le_value
  have hunit : d.unit ≤ 10 ^ d.exponent := zpow_le_zpow_right₀ (by norm_num) (by omega)
  have hpos := d.unit_pos
  have hw : 0 < F.value (F.nearest d.value) := by
    have hlow := (abs_lt.mp hnear).1
    linarith
  exact ⟨hw, Decimal.nearest_eq_of_near hw hnear hbelow⟩

/-- The number that is read prints to the same digits. -/
theorem reprints (hm : m < F.infinity) (hfinite : F.reread p m hv < F.infinity) :
    ∃ hw : 0 < F.value (F.reread p m hv),
      Decimal.nearest p (F.value (F.reread p m hv)) hw = Decimal.nearest p (F.value m) hv := by
  rcases lt_or_ge (Int.log 10 (F.value m)) e with hfiner | hcoarser
  · have heq := reread_of_finer hF hv hm hfiner
    simp only [heq]
    exact ⟨hv, trivial⟩
  · exact nearest_value_nearest hF (hcoarser.trans (Decimal.log_le_exponent hv)) hfinite

/-- What has been read from digits is read again. -/
theorem reread_nearest {d : Decimal p} (heq : m = F.nearest d.value) (hm : m < F.infinity) :
    F.reread p m hv = m := by
  rcases lt_or_ge (Int.log 10 (F.value m)) e with hfiner | hcoarser
  · exact reread_of_finer hF hv hm hfiner
  have hlarge : (10 : ℚ) ^ e ≤ F.value m := by
    exact_mod_cast (Int.zpow_le_iff_le_log (by decide : 1 < 10) hv).mpr hcoarser
  obtain ⟨d, he, rfl⟩ : ∃ d : Decimal p, e ≤ d.exponent ∧ m = F.nearest d.value := by
    by_cases he : e ≤ d.exponent
    · exact ⟨d, he, heq⟩
    · -- The digits are read as the border is.
      obtain ⟨border, hexponent, hvalue⟩ := Decimal.exists_value_eq_zpow p e
      refine ⟨border, hexponent.ge, Nat.le_antisymm ?_ ?_⟩
      · have hroom := d.value_add_unit_le
        have hpos := d.unit_pos
        have hmono : (10 : ℚ) ^ (d.exponent + 1) ≤ 10 ^ e :=
          zpow_le_zpow_right₀ (by norm_num) (by omega)
        rw [heq, hvalue]
        exact nearest_mono (by linarith)
      · rw [hvalue]
        exact (nearest_mono hlarge).trans_eq (nearest_value hm)
  obtain ⟨hw, hsame⟩ := nearest_value_nearest hF he hm
  unfold reread
  rw [hsame]

/-- The number that is read is off by less than the digits say. -/
theorem abs_value_reread_sub_le (hm : m < F.infinity) (hfinite : F.reread p m hv < F.infinity) :
    |F.value (F.reread p m hv) - F.value m| ≤ F.value m / 10 ^ p := by
  rcases lt_or_ge (Int.log 10 (F.value m)) e with hfiner | hcoarser
  · rw [reread_of_finer hF hv hm hfiner, sub_self, abs_zero]
    positivity
  · have hpos : (0 : ℚ) < 2 ^ F.scale := by positivity
    have hten : (0 : ℚ) < 10 ^ p := by positivity
    have hdigits : (10 : ℚ) ^ (p + 1) < 2 ^ F.trailing := by exact_mod_cast hF.digits
    have hlog : (10 : ℚ) ^ Int.log 10 (F.value m) ≤ F.value m := by
      exact_mod_cast Int.zpow_log_le_self (by decide : 1 < 10) hv
    have hunit : (10 : ℚ) ^ (Int.log 10 (F.value m) - p) ≤ F.value m / 10 ^ p := by
      rw [zpow_sub₀ (by norm_num), zpow_natCast]
      exact div_le_div_of_nonneg_right hlog hten.le
    have hprint := Decimal.abs_sub_nearest_le (p := p) hv
    have hread := abs_sub_value_nearest_le (Decimal.nearest p (F.value m) hv).value_pos.le hfinite
    have hleast : 1 / 2 ^ F.scale ≤ F.value m / 10 ^ p := by
      have hlast : 1 / 2 ^ F.scale < (10 : ℚ) ^ (e - p) := (div_lt_iff₀ hpos).mpr hF.coarser
      have hmono : (10 : ℚ) ^ (e - p) ≤ 10 ^ (Int.log 10 (F.value m) - p) :=
        zpow_le_zpow_right₀ (by norm_num) (by omega)
      linarith
    have hrel : (Decimal.nearest p (F.value m) hv).value / 2 ^ F.trailing ≤ F.value m / 10 ^ p := by
      have hdouble : (Decimal.nearest p (F.value m) hv).value ≤ 10 * F.value m := by
        have hone : F.value m / 10 ^ p ≤ F.value m :=
          div_le_self hv.le (one_le_pow₀ (by norm_num))
        linarith [(abs_le.mp hprint).1]
      rw [div_le_div_iff₀ (by positivity) hten]
      calc (Decimal.nearest p (F.value m) hv).value * 10 ^ p
          ≤ 10 * F.value m * 10 ^ p := mul_le_mul_of_nonneg_right hdouble hten.le
        _ = F.value m * 10 ^ (p + 1) := by ring
        _ ≤ F.value m * 2 ^ F.trailing := mul_le_mul_of_nonneg_left hdigits.le hv.le
    have hmax := max_le hleast hrel
    have hsplit := abs_sub_le (F.value m) (Decimal.nearest p (F.value m) hv).value
      (F.value (F.reread p m hv))
    rw [abs_sub_comm]
    unfold reread at hsplit ⊢
    linarith

end

end Mpubsub.Lib.Ieee754.Format

/-! ## A `float` with six digits -/

namespace Mpubsub.Lib.Ieee754

open Format

/-- The border is at `1e-39`, which is read as a little more. -/
theorem binary32_reprints : binary32.Reprints 5 (-39) := by
  refine ⟨by decide, by norm_num [binary32, scale], by norm_num [binary32, scale],
    by norm_num [binary32, scale], ?_⟩
  have hvalue : binary32.value 713624 = 713624 / 2 ^ 149 := by
    norm_num [value, units, scale, binary32]
  have hnearest : binary32.nearest ((10 : ℚ) ^ (-39 : ℤ)) = 713624 := by
    refine nearest_of_abs_lt ?_ (by decide) ?_
    · rw [hvalue]
      norm_num [binary32, scale]
    · rw [hvalue, abs_sub_comm, abs_of_nonneg (by norm_num)]
      norm_num [binary32, scale]
  rw [hnearest, hvalue]
  norm_num

theorem value_lt {m : Nat} (hm : m < binary32.infinity) : binary32.value m < 2 ^ 128 := by
  have hlt : ((binary32.units m : Nat) : ℚ) < ((2 ^ binary32.top : Nat) : ℚ) :=
    Nat.cast_lt.mpr (units_lt hm (by decide))
  have htop : binary32.top = 128 + binary32.scale := rfl
  unfold value
  rw [div_lt_iff₀ (by positivity), ← pow_add, ← htop]
  rwa [Nat.cast_pow] at hlt

theorem log_value_lt {m : Nat} (hm : m < binary32.infinity) (hv : 0 < binary32.value m) :
    Int.log 10 (binary32.value m) < 39 := by
  refine (Int.lt_zpow_iff_log_lt (by decide : 1 < 10) hv).mp ?_
  push_cast
  exact (value_lt hm).trans (by norm_num)

/-- No finite `float` prints to a number that is read as infinite. -/
theorem reread_lt_infinity {m : Nat} (hm : m < binary32.infinity) (hv : 0 < binary32.value m) :
    binary32.reread 5 m hv < binary32.infinity := by
  have htop := value_lt hm
  have hlog := log_value_lt hm hv
  have hnear := Decimal.abs_sub_nearest_le (p := 5) hv
  have hunit : (10 : ℚ) ^ (Int.log 10 (binary32.value m) - (5 : Nat)) ≤ 10 ^ (33 : ℤ) :=
    zpow_le_zpow_right₀ (by norm_num) (by omega)
  unfold reread
  generalize Decimal.nearest 5 (binary32.value m) hv = d at hnear ⊢
  have hupper : d.value < 340283 * 10 ^ (33 : ℤ) := by
    have hlow := (abs_le.mp hnear).1
    norm_num at hunit ⊢
    norm_num at htop
    linarith
  have hle : d.value ≤ 340282 * 10 ^ (33 : ℤ) := by
    by_contra hlarge
    rw [not_le] at hlarge
    have hexponent : d.exponent = 38 := by
      have hhigh : (10 : ℚ) ^ d.exponent < 10 ^ (39 : ℤ) :=
        (d.zpow_le_value.trans_lt hupper).trans (by norm_num)
      have hlow : (10 : ℚ) ^ (38 : ℤ) < 10 ^ (d.exponent + 1) := by
        have hroom := d.value_add_unit_le
        have hpos := d.unit_pos
        have hstart : (10 : ℚ) ^ (38 : ℤ) < 340282 * 10 ^ (33 : ℤ) := by norm_num
        linarith
      have hhigh' := (zpow_lt_zpow_iff_right₀ (by norm_num)).mp hhigh
      have hlow' := (zpow_lt_zpow_iff_right₀ (by norm_num)).mp hlow
      omega
    have hunit' : d.unit = 10 ^ (33 : ℤ) := by
      unfold Decimal.unit
      rw [hexponent]
      norm_num
    unfold Decimal.value at hlarge hupper
    rw [hunit'] at hlarge hupper
    have hdigits := lt_of_mul_lt_mul_right hlarge (by positivity)
    have hdigits' := lt_of_mul_lt_mul_right hupper (by positivity)
    have hone : 340282 < d.digits := by exact_mod_cast hdigits
    have htwo : d.digits < 340283 := by exact_mod_cast hdigits'
    omega
  refine nearest_lt_infinity (by decide : 0x7F7FFFFF < binary32.infinity) (hle.trans ?_)
  norm_num [value, units, scale, binary32]

end Mpubsub.Lib.Ieee754
