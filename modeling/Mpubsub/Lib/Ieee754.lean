import Mathlib.Data.Nat.Log
import Mathlib.Tactic.Ring

/-!
# Binary interchange formats

The numbers of IEEE 754 by their bits: a sign above a magnitude. `units` is what a finite
magnitude stands for, counted in least positive numbers of the format, and `round` the magnitude
nearest to a given number, with ties to even; `round_units` and `units_round` say that they are
inverse. The conversions to another format and between numbers and integers come from these two.
-/

namespace Mpubsub.Lib.Ieee754

/-- A format: the widths of the exponent and of the trailing significand. -/
structure Format where
  exponent : Nat
  trailing : Nat

/-- The integer nearest to `n / 2 ^ j`, the even one of two. -/
def halfEven (n j : Nat) : Nat :=
  if 2 * (n % 2 ^ j) < 2 ^ j ∨ (2 * (n % 2 ^ j) = 2 ^ j ∧ n / 2 ^ j % 2 = 0) then n / 2 ^ j
  else n / 2 ^ j + 1

theorem halfEven_mul (a j : Nat) : halfEven (a * 2 ^ j) j = a := by
  have hpos : 0 < 2 ^ j := Nat.two_pow_pos j
  rw [halfEven, Nat.mul_mod_left, Nat.mul_div_cancel _ hpos, if_pos (Or.inl (by simp))]

namespace Format

variable (F G : Format)

/-- The width of a magnitude. -/
def width : Nat := F.exponent + F.trailing

/-- The magnitude of the infinities; the NaNs lie above. -/
def infinity : Nat := (2 ^ F.exponent - 1) * 2 ^ F.trailing

/-- The least positive number is `2 ^ -scale`. -/
def scale : Nat := 2 ^ (F.exponent - 1) + F.trailing - 2

/-- A finite magnitude, counted in least positive numbers. -/
def units (m : Nat) : Nat :=
  if m < 2 ^ F.trailing then m
  else (2 ^ F.trailing + m % 2 ^ F.trailing) * 2 ^ (m / 2 ^ F.trailing - 1)

/-- The magnitude nearest to `n / 2 ^ s` least positive numbers. -/
def round (n s : Nat) : Nat :=
  let drop := (n / 2 ^ s).log2 - F.trailing
  min (drop * 2 ^ F.trailing + halfEven n (s + drop)) F.infinity

variable {F}

/-- A normal magnitude, by exponent and significand. -/
theorem exists_normal {m : Nat} (h : ¬m < 2 ^ F.trailing) :
    ∃ e f, f < 2 ^ F.trailing ∧ m = e * 2 ^ F.trailing + (2 ^ F.trailing + f) ∧
      F.units m = (2 ^ F.trailing + f) * 2 ^ e := by
  have hpos : 0 < 2 ^ F.trailing := Nat.two_pow_pos _
  obtain ⟨e, he⟩ := Nat.exists_eq_add_of_le' (Nat.div_pos (Nat.le_of_not_lt h) hpos)
  refine ⟨e, m % 2 ^ F.trailing, Nat.mod_lt _ hpos, ?_, ?_⟩
  · have hsplit := Nat.div_add_mod' m (2 ^ F.trailing)
    rw [he] at hsplit
    rw [← Nat.add_assoc, ← Nat.succ_mul]
    exact hsplit.symm
  · rw [units, if_neg h, he, Nat.add_sub_cancel]

theorem units_pos {m : Nat} (h : m ≠ 0) : 0 < F.units m := by
  unfold units
  split
  · exact Nat.pos_of_ne_zero h
  · exact Nat.mul_pos (Nat.lt_of_lt_of_le (Nat.two_pow_pos _) (Nat.le_add_right _ _))
      (Nat.two_pow_pos _)

theorem log2_significand {t f : Nat} (hf : f < 2 ^ t) (e : Nat) :
    ((2 ^ t + f) * 2 ^ e).log2 = t + e := by
  have hpos : 0 < 2 ^ t := Nat.two_pow_pos t
  have hlow : 2 ^ t * 2 ^ e ≤ (2 ^ t + f) * 2 ^ e := Nat.mul_le_mul_right _ (by omega)
  have hhigh : (2 ^ t + f) * 2 ^ e < 2 ^ (t + 1) * 2 ^ e :=
    Nat.mul_lt_mul_of_pos_right (by rw [Nat.pow_succ]; omega) (Nat.two_pow_pos e)
  have hne : (2 ^ t + f) * 2 ^ e ≠ 0 :=
    Nat.ne_of_gt (Nat.mul_pos (by omega) (Nat.two_pow_pos e))
  refine (Nat.log2_eq_iff hne).mpr ⟨?_, ?_⟩
  · rw [Nat.pow_add]
    exact hlow
  · rw [Nat.add_right_comm, Nat.pow_add]
    exact hhigh

/-- A magnitude is the nearest to the number it stands for. -/
theorem round_units {m : Nat} (h : m < F.infinity) (s : Nat) :
    F.round (F.units m * 2 ^ s) s = m := by
  rw [round, Nat.mul_div_cancel _ (Nat.two_pow_pos s)]
  by_cases hsub : m < 2 ^ F.trailing
  · have hlog : m.log2 - F.trailing = 0 := by
      rcases Nat.eq_zero_or_pos m with rfl | hm
      · simp
      · have := (Nat.log2_lt (Nat.ne_of_gt hm)).mpr hsub
        omega
    rw [units, if_pos hsub]
    simp only [hlog, Nat.add_zero, halfEven_mul, Nat.zero_mul, Nat.zero_add]
    exact Nat.min_eq_left (Nat.le_of_lt h)
  · obtain ⟨e, f, hf, hm, hunits⟩ := exists_normal hsub
    rw [hunits, log2_significand hf, Nat.add_sub_cancel_left]
    have hround : halfEven ((2 ^ F.trailing + f) * 2 ^ e * 2 ^ s) (s + e) = 2 ^ F.trailing + f := by
      rw [Nat.mul_assoc, ← Nat.pow_add, Nat.add_comm e s, halfEven_mul]
    rw [hround, ← hm]
    exact Nat.min_eq_left (Nat.le_of_lt h)

/-- The numbers with a significand of the format, as far as the exponent goes. -/
def Exact (F : Format) (n : Nat) : Prop := ∃ a j, a < 2 ^ (F.trailing + 1) ∧ n = a * 2 ^ j

/-- Where the numbers end: all below are under the infinity. -/
def top (F : Format) : Nat := F.trailing + 2 ^ F.exponent - 2

theorem exact_units (m : Nat) : F.Exact (F.units m) := by
  by_cases hsub : m < 2 ^ F.trailing
  · refine ⟨m, 0, Nat.lt_of_lt_of_le hsub (Nat.pow_le_pow_right (by decide) (by omega)), ?_⟩
    rw [units, if_pos hsub, Nat.pow_zero, Nat.mul_one]
  · obtain ⟨e, f, hf, -, hunits⟩ := exists_normal hsub
    exact ⟨_, e, by rw [Nat.pow_succ]; omega, hunits⟩

theorem Exact.mul_two_pow {n : Nat} (h : F.Exact n) (s : Nat) : F.Exact (n * 2 ^ s) := by
  obtain ⟨a, j, ha, rfl⟩ := h
  exact ⟨a, j + s, ha, by rw [Nat.pow_add, Nat.mul_assoc]⟩

theorem units_add {e f : Nat} (hf : f < 2 ^ F.trailing) :
    F.units (e * 2 ^ F.trailing + (2 ^ F.trailing + f)) = (2 ^ F.trailing + f) * 2 ^ e := by
  have hpos : 0 < 2 ^ F.trailing := Nat.two_pow_pos _
  have hm : e * 2 ^ F.trailing + (2 ^ F.trailing + f) = f + (e + 1) * 2 ^ F.trailing := by ring
  rw [hm, units, if_neg (by rw [Nat.succ_mul]; omega), Nat.add_mul_mod_self_right,
    Nat.mod_eq_of_lt hf, Nat.add_mul_div_right _ _ hpos, Nat.div_eq_of_lt hf, Nat.zero_add,
    Nat.add_sub_cancel]

/-- An exact number, by exponent and significand. -/
theorem Exact.exists_normal {n : Nat} (h : F.Exact n) (hle : 2 ^ F.trailing ≤ n) :
    ∃ e f, f < 2 ^ F.trailing ∧ n = (2 ^ F.trailing + f) * 2 ^ e := by
  have hne : n ≠ 0 := Nat.ne_of_gt (Nat.lt_of_lt_of_le (Nat.two_pow_pos _) hle)
  obtain ⟨e, he⟩ := Nat.exists_eq_add_of_le ((Nat.le_log2 hne).mpr hle)
  obtain ⟨hlow, hhigh⟩ := (Nat.log2_eq_iff hne).mp he
  obtain ⟨a, j, ha, rfl⟩ := h
  have hej : e ≤ j := by
    have hlt : 2 ^ (F.trailing + e) < 2 ^ (F.trailing + 1 + j) := by
      refine Nat.lt_of_le_of_lt hlow ?_
      rw [Nat.pow_add]
      exact Nat.mul_lt_mul_of_pos_right ha (Nat.two_pow_pos j)
    have := (Nat.pow_lt_pow_iff_right (by decide)).mp hlt
    omega
  have hsplit : a * 2 ^ j = a * 2 ^ (j - e) * 2 ^ e := by
    rw [Nat.mul_assoc, ← Nat.pow_add, Nat.sub_add_cancel hej]
  rw [hsplit, Nat.pow_add] at hlow
  rw [hsplit, Nat.add_right_comm, Nat.pow_add] at hhigh
  obtain ⟨f, hf⟩ := Nat.exists_eq_add_of_le (Nat.le_of_mul_le_mul_right hlow (Nat.two_pow_pos e))
  have hlt := Nat.lt_of_mul_lt_mul_right hhigh
  rw [hf, Nat.pow_succ] at hlt
  exact ⟨e, f, by omega, by rw [hsplit, hf]⟩

/-- An exact number is the one that its magnitude stands for. -/
theorem units_round {n : Nat} (h : F.Exact n) (hlt : n < 2 ^ F.top) (hexp : 2 ≤ F.exponent) :
    F.round n 0 < F.infinity ∧ F.units (F.round n 0) = n := by
  have hfour : 4 ≤ 2 ^ F.exponent := Nat.pow_le_pow_right (n := 2) (by decide) hexp
  have hround : F.round n 0 = min ((n.log2 - F.trailing) * 2 ^ F.trailing +
      halfEven n (n.log2 - F.trailing)) F.infinity := by
    rw [round, Nat.pow_zero, Nat.div_one, Nat.zero_add]
  rcases Nat.lt_or_ge n (2 ^ F.trailing) with hsub | hnormal
  · have hlog : n.log2 - F.trailing = 0 := by
      rcases Nat.eq_zero_or_pos n with rfl | hn
      · simp
      · have := (Nat.log2_lt (Nat.ne_of_gt hn)).mpr hsub
        omega
    have heven : halfEven n 0 = n := by simpa using halfEven_mul n 0
    have hinf : n < F.infinity :=
      Nat.lt_of_lt_of_le hsub (Nat.le_mul_of_pos_left _ (by omega))
    rw [hround, hlog, heven, Nat.zero_mul, Nat.zero_add, Nat.min_eq_left (Nat.le_of_lt hinf)]
    exact ⟨hinf, by rw [units, if_pos hsub]⟩
  · obtain ⟨e, f, hf, rfl⟩ := h.exists_normal hnormal
    have hbound : F.trailing + e < F.top := by
      refine (Nat.pow_lt_pow_iff_right (a := 2) (by decide)).mp (Nat.lt_of_le_of_lt ?_ hlt)
      rw [Nat.pow_add]
      exact Nat.mul_le_mul_right _ (Nat.le_add_right _ _)
    have hinf : e * 2 ^ F.trailing + (2 ^ F.trailing + f) < F.infinity := by
      have hlast : (e + 2) * 2 ^ F.trailing ≤ F.infinity := by
        refine Nat.mul_le_mul_right _ ?_
        rw [top] at hbound
        omega
      have hexpand : (e + 2) * 2 ^ F.trailing =
          e * 2 ^ F.trailing + (2 ^ F.trailing + 2 ^ F.trailing) := by ring
      omega
    rw [hround, log2_significand hf, Nat.add_sub_cancel_left, halfEven_mul,
      Nat.min_eq_left (Nat.le_of_lt hinf)]
    exact ⟨hinf, units_add hf⟩

/-- The numbers that magnitudes stand for end there too. -/
theorem units_lt {m : Nat} (h : m < F.infinity) (hexp : 2 ≤ F.exponent) :
    F.units m < 2 ^ F.top := by
  have hfour : 4 ≤ 2 ^ F.exponent := Nat.pow_le_pow_right (n := 2) (by decide) hexp
  by_cases hsub : m < 2 ^ F.trailing
  · rw [units, if_pos hsub]
    exact Nat.lt_of_lt_of_le hsub (Nat.pow_le_pow_right (by decide) (by rw [top]; omega))
  · obtain ⟨e, f, hf, hm, hunits⟩ := exists_normal hsub
    have he : e + 1 < 2 ^ F.exponent - 1 := by
      refine Nat.lt_of_mul_lt_mul_right (a := 2 ^ F.trailing) (Nat.lt_of_le_of_lt ?_ h)
      rw [hm, Nat.succ_mul]
      omega
    rw [hunits]
    calc (2 ^ F.trailing + f) * 2 ^ e
        < 2 ^ (F.trailing + 1) * 2 ^ e :=
          Nat.mul_lt_mul_of_pos_right (by rw [Nat.pow_succ]; omega) (Nat.two_pow_pos e)
      _ = 2 ^ (F.trailing + 1 + e) := (Nat.pow_add ..).symm
      _ ≤ 2 ^ F.top := Nat.pow_le_pow_right (by decide) (by rw [top]; omega)

/-! ## Conversion to another format -/

/-- A NaN's payload, made quiet. -/
def quiet (F : Format) (payload : Nat) : Nat :=
  2 ^ (F.trailing - 1) + payload % 2 ^ (F.trailing - 1)

/-- The magnitude in another format. A NaN keeps the upper bits of its payload. -/
def convert (F G : Format) (m : Nat) : Nat :=
  if m < F.infinity then G.round (F.units m * 2 ^ (G.scale - F.scale)) (F.scale - G.scale)
  else if m = F.infinity then G.infinity
  else G.infinity + G.quiet
    ((m - F.infinity) * 2 ^ (G.trailing - F.trailing) / 2 ^ (F.trailing - G.trailing))

/-- The magnitude with a quiet NaN. -/
def quieted (F : Format) (m : Nat) : Nat :=
  if m ≤ F.infinity then m else F.infinity + F.quiet (m - F.infinity)

/-- Every number of `F` is one of `G`. -/
structure Embeds (F G : Format) : Prop where
  trailing_pos : 0 < F.trailing
  exponent : 2 ≤ F.exponent ∧ 2 ≤ G.exponent
  trailing_le : F.trailing ≤ G.trailing
  scale_le : F.scale ≤ G.scale
  top_le : F.top + (G.scale - F.scale) ≤ G.top

theorem infinity_add (F : Format) : F.infinity + 2 ^ F.trailing = 2 ^ F.width := by
  rw [infinity, ← Nat.succ_mul, Nat.succ_eq_add_one, Nat.sub_add_cancel (Nat.two_pow_pos _), width,
    Nat.pow_add]

theorem quiet_pos (F : Format) (payload : Nat) : 0 < F.quiet payload :=
  Nat.lt_of_lt_of_le (Nat.two_pow_pos _) (Nat.le_add_right _ _)

theorem quiet_lt (h : 0 < F.trailing) (payload : Nat) : F.quiet payload < 2 ^ F.trailing := by
  obtain ⟨t, ht⟩ := Nat.exists_eq_add_of_le' h
  have := Nat.mod_lt payload (Nat.two_pow_pos t)
  rw [quiet, ht, Nat.add_sub_cancel, Nat.pow_succ]
  omega

@[simp] theorem quiet_quiet (F : Format) (payload : Nat) :
    F.quiet (F.quiet payload) = F.quiet payload := by
  rw [quiet, quiet, Nat.add_mod_left, Nat.mod_mod]

theorem convert_lt (hF : 0 < G.trailing) (m : Nat) : convert F G m < 2 ^ G.width := by
  have hpos := Nat.two_pow_pos G.trailing
  rw [← G.infinity_add, convert]
  split
  · exact Nat.lt_of_le_of_lt (Nat.min_le_right _ _) (by omega)
  split
  · omega
  · have := quiet_lt hF
      ((m - F.infinity) * 2 ^ (G.trailing - F.trailing) / 2 ^ (F.trailing - G.trailing))
    omega

theorem quieted_lt (hF : 0 < F.trailing) (m : Nat) : F.quieted m < 2 ^ F.width := by
  have hpos := Nat.two_pow_pos F.trailing
  have hquiet := quiet_lt hF (m - F.infinity)
  rw [← F.infinity_add, quieted]
  split <;> omega

section Embeds

variable {G : Format}

theorem Exact.embeds (h : Embeds F G) {n : Nat} (hn : F.Exact n) : G.Exact n := by
  obtain ⟨a, j, ha, rfl⟩ := hn
  exact ⟨a, j, Nat.lt_of_lt_of_le ha
    (Nat.pow_le_pow_right (by decide) (Nat.succ_le_succ h.trailing_le)), rfl⟩

/-- A finite number stays what it is. -/
theorem units_convert (h : Embeds F G) {m : Nat} (hm : m < F.infinity) :
    convert F G m < G.infinity ∧
      G.units (convert F G m) = F.units m * 2 ^ (G.scale - F.scale) := by
  have hscale : F.scale - G.scale = 0 := Nat.sub_eq_zero_of_le h.scale_le
  rw [convert, if_pos hm, hscale]
  refine units_round (((exact_units m).embeds h).mul_two_pow _) ?_ h.exponent.2
  calc F.units m * 2 ^ (G.scale - F.scale)
      < 2 ^ F.top * 2 ^ (G.scale - F.scale) :=
        Nat.mul_lt_mul_of_pos_right (units_lt hm h.exponent.1) (Nat.two_pow_pos _)
    _ = 2 ^ (F.top + (G.scale - F.scale)) := (Nat.pow_add ..).symm
    _ ≤ 2 ^ G.top := Nat.pow_le_pow_right (by decide) h.top_le

theorem convert_nan (h : Embeds F G) {m : Nat} (hm : F.infinity < m) :
    convert F G m =
      G.infinity + F.quiet (m - F.infinity) * 2 ^ (G.trailing - F.trailing) := by
  have htrailing : F.trailing - G.trailing = 0 := Nat.sub_eq_zero_of_le h.trailing_le
  have hsplit : G.trailing - 1 = F.trailing - 1 + (G.trailing - F.trailing) := by
    have := h.trailing_pos
    have := h.trailing_le
    omega
  rw [convert, if_neg (Nat.lt_asymm hm), if_neg (Nat.ne_of_gt hm), htrailing, Nat.pow_zero,
    Nat.div_one, quiet, quiet, hsplit, Nat.pow_add, Nat.mul_mod_mul_right, Nat.add_mul]

/-- There and back, only the payload of a NaN has changed. -/
theorem convert_convert (h : Embeds F G) (m : Nat) :
    convert G F (convert F G m) = F.quieted m := by
  have htrailing : F.trailing - G.trailing = 0 := Nat.sub_eq_zero_of_le h.trailing_le
  have hscale : F.scale - G.scale = 0 := Nat.sub_eq_zero_of_le h.scale_le
  rcases Nat.lt_trichotomy m F.infinity with hlt | rfl | hgt
  · obtain ⟨hfinite, hunits⟩ := units_convert h hlt
    rw [convert, if_pos hfinite, hunits, hscale, Nat.pow_zero, Nat.mul_one, round_units hlt,
      quieted, if_pos (Nat.le_of_lt hlt)]
  · rw [show convert F G F.infinity = G.infinity by simp [convert], quieted,
      if_pos (Nat.le_refl _)]
    simp [convert]
  · have hpayload := Nat.mul_pos (F.quiet_pos (m - F.infinity))
      (Nat.two_pow_pos (G.trailing - F.trailing))
    rw [convert_nan h hgt, convert, if_neg (by omega), if_neg (by omega),
      Nat.add_sub_cancel_left, htrailing, Nat.pow_zero, Nat.mul_one,
      Nat.mul_div_cancel _ (Nat.two_pow_pos _), quiet_quiet, quieted, if_neg (by omega)]

@[simp] theorem convert_quieted (h : Embeds F G) (m : Nat) :
    convert F G (F.quieted m) = convert F G m := by
  unfold quieted
  split
  · rfl
  · rename_i hm
    have hquiet := F.quiet_pos (m - F.infinity)
    rw [convert_nan h (by omega), convert_nan h (by omega), Nat.add_sub_cancel_left, quiet_quiet]

end Embeds

/-! ## Signs -/

/-- The conversion of a number with its sign. -/
def convertBits (F G : Format) (bits : Nat) : Nat :=
  bits / 2 ^ F.width * 2 ^ G.width + convert F G (bits % 2 ^ F.width)

def quietedBits (F : Format) (bits : Nat) : Nat :=
  bits / 2 ^ F.width * 2 ^ F.width + F.quieted (bits % 2 ^ F.width)

theorem div_bits {w a m : Nat} (h : m < 2 ^ w) : (a * 2 ^ w + m) / 2 ^ w = a := by
  rw [Nat.add_comm, Nat.add_mul_div_right _ _ (Nat.two_pow_pos w), Nat.div_eq_of_lt h,
    Nat.zero_add]

theorem mod_bits {w a m : Nat} (h : m < 2 ^ w) : (a * 2 ^ w + m) % 2 ^ w = m := by
  rw [Nat.add_comm, Nat.add_mul_mod_self_right, Nat.mod_eq_of_lt h]

theorem bits_lt {v w bits m : Nat} (hbits : bits < 2 ^ (v + 1)) (hm : m < 2 ^ w) :
    bits / 2 ^ v * 2 ^ w + m < 2 ^ (w + 1) := by
  have hsign : bits / 2 ^ v < 2 :=
    Nat.div_lt_of_lt_mul (by rwa [Nat.pow_succ] at hbits)
  have := Nat.mul_le_mul_right (2 ^ w) (Nat.le_of_lt_succ hsign)
  rw [Nat.pow_succ]
  omega

section Embeds

variable {G : Format}

theorem convertBits_convertBits (h : Embeds F G) (bits : Nat) :
    convertBits G F (convertBits F G bits) = F.quietedBits bits := by
  have hlt := convert_lt (F := F) G (Nat.lt_of_lt_of_le h.trailing_pos h.trailing_le)
    (bits % 2 ^ F.width)
  rw [convertBits, convertBits, div_bits hlt, mod_bits hlt, convert_convert h, quietedBits]

theorem convertBits_quietedBits (h : Embeds F G) (bits : Nat) :
    convertBits F G (F.quietedBits bits) = convertBits F G bits := by
  have hlt := quieted_lt h.trailing_pos (bits % 2 ^ F.width)
  rw [convertBits, quietedBits, div_bits hlt, mod_bits hlt, convert_quieted h, convertBits]

end Embeds

/-! ## Integers -/

/-- The number nearest to an integer. -/
def ofInt (F : Format) (n : Int) : Nat :=
  (if n < 0 then 1 else 0) * 2 ^ F.width + F.round (n.natAbs * 2 ^ F.scale) 0

theorem ofInt_lt (F : Format) (n : Int) : F.ofInt n < 2 ^ (F.width + 1) := by
  have hround : F.round (n.natAbs * 2 ^ F.scale) 0 ≤ F.infinity := Nat.min_le_right _ _
  have hpos := Nat.two_pow_pos F.trailing
  have hwidth := F.infinity_add
  rw [ofInt, Nat.pow_succ]
  split <;> omega

/-- The integer that a number is. -/
def toInt? (F : Format) (bits : Nat) : Option Int :=
  let m := bits % 2 ^ F.width
  if m < F.infinity ∧ F.units m % 2 ^ F.scale = 0 then
    some ((if bits / 2 ^ F.width = 0 then 1 else -1) * (F.units m / 2 ^ F.scale : Nat))
  else none

theorem mul_scale_lt {n k : Nat} (h : n < 2 ^ k) (hk : k + F.scale ≤ F.top) :
    n * 2 ^ F.scale < 2 ^ F.top := by
  calc n * 2 ^ F.scale < 2 ^ k * 2 ^ F.scale := Nat.mul_lt_mul_of_pos_right h (Nat.two_pow_pos _)
    _ = 2 ^ (k + F.scale) := (Nat.pow_add ..).symm
    _ ≤ 2 ^ F.top := Nat.pow_le_pow_right (by decide) hk

/-- An integer is exact where it is read back. -/
theorem toInt?_ofInt {n : Int} (h : F.Exact n.natAbs) (hlt : n.natAbs * 2 ^ F.scale < 2 ^ F.top)
    (hexp : 2 ≤ F.exponent) : F.toInt? (F.ofInt n) = some n := by
  obtain ⟨hfinite, hunits⟩ := units_round (h.mul_two_pow F.scale) hlt hexp
  have hpos := Nat.two_pow_pos F.trailing
  have hwidth := F.infinity_add
  have hm : F.round (n.natAbs * 2 ^ F.scale) 0 < 2 ^ F.width := by omega
  rw [toInt?, ofInt, div_bits hm, mod_bits hm, hunits, Nat.mul_mod_left,
    Nat.mul_div_cancel _ (Nat.two_pow_pos _), if_pos ⟨hfinite, rfl⟩]
  congr 1
  by_cases hneg : n < 0
  · rw [if_pos hneg, if_neg Nat.one_ne_zero]
    omega
  · rw [if_neg hneg, if_pos rfl]
    omega

/-- An integer of the smaller format is the same number in the larger. -/
theorem convertBits_ofInt {G : Format} (h : Embeds F G) {n : Int} (hexact : F.Exact n.natAbs)
    (hlt : n.natAbs * 2 ^ F.scale < 2 ^ F.top) : convertBits F G (F.ofInt n) = G.ofInt n := by
  obtain ⟨hfinite, hunits⟩ := units_round (hexact.mul_two_pow F.scale) hlt h.exponent.1
  have hpos := Nat.two_pow_pos F.trailing
  have hwidth := F.infinity_add
  have hm : F.round (n.natAbs * 2 ^ F.scale) 0 < 2 ^ F.width := by omega
  have hscale : F.scale - G.scale = 0 := Nat.sub_eq_zero_of_le h.scale_le
  rw [convertBits, ofInt, div_bits hm, mod_bits hm, convert, if_pos hfinite, hunits, hscale,
    Nat.mul_assoc, ← Nat.pow_add, Nat.add_sub_cancel' h.scale_le, ofInt]

/-- No negative number but zero is a natural number. -/
theorem neg_of_toInt? {bits : Nat} {n : Int} (h : F.toInt? bits = some n)
    (hsign : bits / 2 ^ F.width ≠ 0) (hm : bits % 2 ^ F.width ≠ 0) : n < 0 := by
  obtain ⟨⟨-, hint⟩, hn⟩ := Option.ite_none_right_eq_some.mp h
  cases hn
  have hpos : 0 < F.units (bits % 2 ^ F.width) / 2 ^ F.scale :=
    Nat.div_pos (Nat.le_of_dvd (units_pos hm) (Nat.dvd_of_mod_eq_zero hint)) (Nat.two_pow_pos _)
  rw [if_neg hsign]
  omega

end Format

/-! ## The two formats of a `float` and a `double` -/

def binary32 : Format := ⟨8, 23⟩

def binary64 : Format := ⟨11, 52⟩

theorem binary32_embeds : Format.Embeds binary32 binary64 where
  trailing_pos := by decide
  exponent := by decide
  trailing_le := by decide
  scale_le := by decide
  top_le := by decide

/-- A `double` from a `float`. -/
def widen (bits : UInt32) : UInt64 :=
  UInt64.ofNat (Format.convertBits binary32 binary64 bits.toNat)

/-- The `float` nearest to a `double`. -/
def narrow (bits : UInt64) : UInt32 :=
  UInt32.ofNat (Format.convertBits binary64 binary32 bits.toNat)

/-- A `float` with a quiet NaN. -/
def quieted (bits : UInt32) : UInt32 := UInt32.ofNat (binary32.quietedBits bits.toNat)

theorem toNat_widen (bits : UInt32) :
    (widen bits).toNat = Format.convertBits binary32 binary64 bits.toNat := by
  have hlt : Format.convertBits binary32 binary64 bits.toNat < 2 ^ 64 :=
    Format.bits_lt (w := binary64.width) bits.toNat_lt (Format.convert_lt _ (by decide) _)
  rw [widen, UInt64.toNat_ofNat', Nat.mod_eq_of_lt hlt]

theorem toNat_quieted (bits : UInt32) : (quieted bits).toNat = binary32.quietedBits bits.toNat := by
  have hlt : binary32.quietedBits bits.toNat < 2 ^ 32 :=
    Format.bits_lt (w := binary32.width) bits.toNat_lt (Format.quieted_lt (by decide) _)
  rw [quieted, UInt32.toNat_ofNat', Nat.mod_eq_of_lt hlt]

/-- Narrowing takes a widened number back, -/
@[simp] theorem narrow_widen (bits : UInt32) : narrow (widen bits) = quieted bits := by
  rw [narrow, toNat_widen, Format.convertBits_convertBits binary32_embeds, quieted]

/-- which widens to the same again. -/
@[simp] theorem widen_quieted (bits : UInt32) : widen (quieted bits) = widen bits := by
  rw [widen, toNat_quieted, Format.convertBits_quietedBits binary32_embeds, widen]

@[simp] theorem quieted_quieted (bits : UInt32) : quieted (quieted bits) = quieted bits := by
  rw [← narrow_widen, widen_quieted, narrow_widen]

example : widen 0x3FC00000 = 0x3FF8000000000000 ∧ narrow 0x3FB999999999999A = 0x3DCCCCCD ∧
    narrow 0x7FEFFFFFFFFFFFFF = 0x7F800000 := by decide +kernel

end Mpubsub.Lib.Ieee754
