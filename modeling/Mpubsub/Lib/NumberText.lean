import Mathlib.Data.List.DropRight
import Mathlib.Data.Nat.Log
import Mpubsub.Lib.Bytes
import Mpubsub.Lib.Reprinting

/-!
# Numbers as texts

The numbers of a binary format as C prints and reads them: `%g` (`formatG`) and `strtod`
(`strtod`), both correctly rounded, in the locale with the decimal point. What the digits between
the parentheses of a NaN mean is left to a parameter. A printed number is read in full
(`strtod_formatG`), and prints to the same text again (`formatG_rereadBits`).
-/

namespace Mpubsub.Lib

/-! ## Digits -/

def ascii (c : Char) : UInt8 := UInt8.ofNat c.toNat

def lower (b : UInt8) : UInt8 := if 65 ≤ b ∧ b ≤ 90 then b + 32 else b

def digit (n : Nat) : UInt8 := UInt8.ofNat (48 + n % 10)

/-- The last `width` digits of a number. -/
def digitsOf : Nat → Nat → Bytes
  | 0, _ => []
  | width + 1, n => digitsOf width (n / 10) ++ [digit n]

/-- How the digits of a number are read: those of its exponent are decimal. -/
structure Numeral where
  base : Nat
  digit? : UInt8 → Option Nat
  mark : Char
  radix : ℚ
  weight : Nat

namespace Numeral

def isDigit (num : Numeral) (b : UInt8) : Bool := (num.digit? b).isSome

def ofDigits (num : Numeral) (l : Bytes) : Nat :=
  l.foldl (fun n b => num.base * n + (num.digit? b).getD 0) 0

def decimal : Numeral where
  base := 10
  digit? b := if 48 ≤ b ∧ b ≤ 57 then some (b.toNat - 48) else none
  mark := 'e'
  radix := 10
  weight := 1

/-- An exponent is one of two here, and a digit is four binary ones. -/
def hexadecimal : Numeral where
  base := 16
  digit? b :=
    if 48 ≤ b ∧ b ≤ 57 then some (b.toNat - 48)
    else if 97 ≤ lower b ∧ lower b ≤ 102 then some ((lower b).toNat - 87)
    else none
  mark := 'p'
  radix := 2
  weight := 4

end Numeral

open Numeral

theorem ofDigits_foldl (num : Numeral) (l : Bytes) (n : Nat) :
    l.foldl (fun n b => num.base * n + (num.digit? b).getD 0) n =
      n * num.base ^ l.length + num.ofDigits l := by
  unfold ofDigits
  induction l generalizing n with
  | nil => simp
  | cons b l ih =>
    rw [List.foldl_cons, List.foldl_cons, ih, ih (num.base * 0 + _), List.length_cons, pow_succ]
    ring

theorem ofDigits_append (num : Numeral) (l r : Bytes) :
    num.ofDigits (l ++ r) = num.ofDigits l * num.base ^ r.length + num.ofDigits r := by
  rw [ofDigits, List.foldl_append, ofDigits_foldl]
  rfl

theorem digit?_digit (n : Nat) : decimal.digit? (digit n) = some (n % 10) := by
  have hlt : n % 10 < 10 := Nat.mod_lt _ (by decide)
  have hnat : (digit n).toNat = 48 + n % 10 := by
    unfold digit
    rw [UInt8.toNat_ofNat', Nat.mod_eq_of_lt (by omega)]
  have hrange : 48 ≤ digit n ∧ digit n ≤ 57 := by
    rw [UInt8.le_iff_toNat_le, UInt8.le_iff_toNat_le, hnat]
    exact ⟨Nat.le_add_right _ _, by show 48 + n % 10 ≤ 57; omega⟩
  show (if 48 ≤ digit n ∧ digit n ≤ 57 then some ((digit n).toNat - 48) else none) = _
  rw [if_pos hrange, hnat, Nat.add_sub_cancel_left]

theorem isDigit_of_mem_digitsOf {width n : Nat} {b : UInt8} (h : b ∈ digitsOf width n) :
    decimal.isDigit b = true := by
  induction width generalizing n with
  | zero => cases h
  | succ width ih =>
    rcases List.mem_append.mp h with h | h
    · exact ih h
    · obtain rfl := List.mem_singleton.mp h
      rw [isDigit, digit?_digit]
      rfl

@[simp] theorem length_digitsOf (width n : Nat) : (digitsOf width n).length = width := by
  induction width generalizing n with
  | zero => rfl
  | succ width ih => rw [digitsOf, List.length_append, ih, List.length_singleton]

theorem ofDigits_digitsOf {width n : Nat} (h : n < 10 ^ width) :
    decimal.ofDigits (digitsOf width n) = n := by
  induction width generalizing n with
  | zero =>
    obtain rfl : n = 0 := by simpa using h
    rfl
  | succ width ih =>
    have hlast : decimal.ofDigits [digit n] = n % 10 := by
      show 10 * 0 + (decimal.digit? (digit n)).getD 0 = _
      rw [digit?_digit]
      simp
    rw [digitsOf, ofDigits_append, ih (Nat.div_lt_of_lt_mul (by rwa [pow_succ'] at h)), hlast]
    show n / 10 * 10 ^ 1 + n % 10 = n
    omega

theorem ofDigits_zeros (k : Nat) : decimal.ofDigits (List.replicate k (ascii '0')) = 0 := by
  induction k with
  | zero => rfl
  | succ k ih =>
    rw [List.replicate_succ', ofDigits_append, ih]
    rfl

/-! ## Reading -/

def isSpace (b : UInt8) : Bool := b = ascii ' ' || 9 ≤ b && b ≤ 13

def scanSign : Bytes → Bool × Bytes
  | [] => (false, [])
  | b :: s =>
    if b = ascii '-' then (true, s) else if b = ascii '+' then (false, s) else (false, b :: s)

/-- The word, in capitals or not. -/
def startsWith (word : List Char) (s : Bytes) : Bool :=
  (s.take word.length).map lower = word.map ascii

namespace Numeral

/-- The exponent, and 0 if there is none. -/
def scanExponent (num : Numeral) : Bytes → ℤ
  | [] => 0
  | b :: s =>
    if lower b = ascii num.mark then
      let (negative, s) := scanSign s
      let n : ℤ := decimal.ofDigits (s.takeWhile decimal.isDigit)
      if negative then -n else n
    else 0

/-- The digits behind the point, and what follows. -/
def scanFraction (num : Numeral) : Bytes → Bytes × Bytes
  | [] => ([], [])
  | b :: s => if b = ascii '.' then s.span num.isDigit else ([], b :: s)

/-- The number that the text begins with. -/
def scan (num : Numeral) (s : Bytes) : Option ℚ :=
  let (whole, s) := s.span num.isDigit
  let (frac, s) := num.scanFraction s
  if whole ++ frac = [] then none
  else some (num.ofDigits (whole ++ frac) *
    num.radix ^ (num.scanExponent s - num.weight * frac.length))

end Numeral

/-- What may stand between the parentheses of a NaN. -/
def isNChar (b : UInt8) : Bool :=
  decimal.isDigit b || 97 ≤ lower b && lower b ≤ 122 || b = ascii '_'

def nCharSequence : Bytes → Bytes
  | [] => []
  | b :: s =>
    if b = ascii '(' then
      let (sequence, s) := s.span isNChar
      if s.head? = some (ascii ')') then sequence else []
    else []

/-! ## Printing -/

/-- The digits behind the point without the zeros at their end, and the point if there are any. -/
def fraction (l : Bytes) : Bytes :=
  let l := l.rdropWhile (· = ascii '0')
  if l = [] then [] else ascii '.' :: l

/-- The exponent with its sign and with two digits at least. -/
def exponentText (e : ℤ) : Bytes :=
  ascii 'e' :: (if e < 0 then ascii '-' else ascii '+') ::
    digitsOf (max 2 (Nat.log 10 e.natAbs + 1)) e.natAbs

/-- `%g`, with the precision `p + 1`. -/
def Decimal.text {p : Nat} (d : Decimal p) : Bytes :=
  let l := digitsOf (p + 1) d.digits
  if d.exponent < -4 ∨ p + 1 ≤ d.exponent then
    l.take 1 ++ fraction (l.drop 1) ++ exponentText d.exponent
  else if d.exponent < 0 then
    [ascii '0'] ++ fraction (List.replicate (-1 - d.exponent).toNat (ascii '0') ++ l)
  else
    l.take (d.exponent.toNat + 1) ++ fraction (l.drop (d.exponent.toNat + 1))

example : (Decimal.mk (p := 5) 123450 2 (by decide) (by decide)).text =
    [49, 50, 51, 46, 52, 53] := by
  decide

/-! ## What is printed is read -/

/-- The digits that a text begins with. -/
theorem span_digits {num : Numeral} {l r : Bytes} (hl : ∀ b ∈ l, num.isDigit b = true)
    (hr : ∀ b ∈ r.head?, num.isDigit b = false) : (l ++ r).span num.isDigit = (l, r) := by
  rw [List.span_eq_takeWhile_dropWhile, List.takeWhile_append_of_pos hl,
    List.dropWhile_append_of_pos hl]
  cases r with
  | nil => simp
  | cons b r => simp [hr b rfl]

/-- Only zeros are left out. -/
theorem fraction_spec (l : Bytes) :
    ∃ kept k, l = kept ++ List.replicate k (ascii '0') ∧
      fraction l = if kept = [] then [] else ascii '.' :: kept := by
  refine ⟨l.rdropWhile (· = ascii '0'), (l.rtakeWhile (· = ascii '0')).length, ?_, rfl⟩
  have hzeros : l.rtakeWhile (· = ascii '0') =
      List.replicate (l.rtakeWhile (· = ascii '0')).length (ascii '0') := by
    refine List.eq_replicate_iff.mpr ⟨rfl, ?_⟩
    intro b hb
    simpa using List.mem_rtakeWhile_imp hb
  rw [← hzeros]
  exact List.rdropWhile_append_rtakeWhile.symm

theorem ofDigits_trailing (l : Bytes) (k : Nat) (x : ℤ) :
    (decimal.ofDigits (l ++ List.replicate k (ascii '0')) : ℚ) * 10 ^ (x - k) =
      (decimal.ofDigits l : ℚ) * 10 ^ x := by
  have hbase : decimal.base = 10 := rfl
  rw [ofDigits_append, ofDigits_zeros, List.length_replicate, Nat.add_zero, hbase,
    zpow_sub₀ (by norm_num), zpow_natCast]
  push_cast
  field_simp

/-- A text with a point, or without one, and what stands behind the digits. -/
theorem scan_shape {whole frac rest : Bytes} (hne : whole ≠ [])
    (hwhole : ∀ b ∈ whole, decimal.isDigit b = true) (hfrac : ∀ b ∈ frac, decimal.isDigit b = true)
    (hrest : ∀ b ∈ rest.head?, b = ascii 'e') :
    decimal.scan (whole ++ fraction frac ++ rest) =
      some ((decimal.ofDigits (whole ++ frac) : ℚ) *
        10 ^ (decimal.scanExponent rest - frac.length)) := by
  have hnodigit : ∀ b ∈ rest.head?, decimal.isDigit b = false := by
    intro b hb
    rw [hrest b hb]
    rfl
  have hnopoint : decimal.scanFraction rest = ([], rest) := by
    cases rest with
    | nil => rfl
    | cons b s =>
      obtain rfl := hrest b rfl
      rfl
  obtain ⟨kept, k, rfl, hfraction⟩ := fraction_spec frac
  have hkept : ∀ b ∈ kept, decimal.isDigit b = true :=
    fun b hb => hfrac b (List.mem_append_left _ hb)
  have hvalue : (decimal.ofDigits (whole ++ (kept ++ List.replicate k (ascii '0'))) : ℚ) *
      10 ^ (decimal.scanExponent rest - (kept ++ List.replicate k (ascii '0')).length) =
        decimal.ofDigits (whole ++ kept) * 10 ^ (decimal.scanExponent rest - kept.length) := by
    have htrailing := ofDigits_trailing (whole ++ kept) k (decimal.scanExponent rest - kept.length)
    rw [← htrailing, List.append_assoc, List.length_append, List.length_replicate]
    push_cast
    congr 2
    ring
  rw [hvalue, hfraction]
  unfold scan
  by_cases hnone : kept = []
  · rw [if_pos hnone, hnone, List.append_nil, span_digits hwhole hnodigit]
    simp only [hnopoint, List.append_nil, hne, if_false]
    rfl
  · have hpoint : ∀ b ∈ (ascii '.' :: (kept ++ rest)).head?, decimal.isDigit b = false := by
      rintro b ⟨⟩
      rfl
    have hsplit : decimal.scanFraction (ascii '.' :: (kept ++ rest)) = (kept, rest) := by
      show (kept ++ rest).span decimal.isDigit = _
      exact span_digits hkept hnodigit
    rw [if_neg hnone, List.append_assoc, List.cons_append, span_digits hwhole hpoint]
    simp only [hsplit, List.append_eq_nil_iff, hne, false_and, if_false]
    show some (_ * (10 : ℚ) ^ (_ - (1 : ℤ) * _)) = _
    rw [one_mul]

theorem scanExponent_exponentText (e : ℤ) : decimal.scanExponent (exponentText e) = e := by
  have hdigits : ∀ n : Nat, decimal.ofDigits
      ((digitsOf (max 2 (Nat.log 10 n + 1)) n).takeWhile decimal.isDigit) = n := by
    intro n
    have hall : (digitsOf (max 2 (Nat.log 10 n + 1)) n).takeWhile decimal.isDigit =
        digitsOf (max 2 (Nat.log 10 n + 1)) n := by
      rw [List.takeWhile_eq_self_iff]
      exact fun b hb => isDigit_of_mem_digitsOf hb
    rw [hall]
    refine ofDigits_digitsOf ((Nat.lt_pow_succ_log_self (by decide : 1 < 10) n).trans_le ?_)
    exact Nat.pow_le_pow_right (by decide) (le_max_right _ _)
  have hmark (s : Bytes) : decimal.scanExponent (ascii 'e' :: s) =
      if (scanSign s).1 then -(decimal.ofDigits ((scanSign s).2.takeWhile decimal.isDigit) : ℤ)
      else (decimal.ofDigits ((scanSign s).2.takeWhile decimal.isDigit) : ℤ) := rfl
  have hplus : ascii '+' ≠ ascii '-' := by decide
  unfold exponentText
  rw [hmark]
  by_cases hneg : e < 0
  · rw [if_pos hneg]
    simp only [scanSign, if_true, hdigits]
    omega
  · rw [if_neg hneg]
    simp only [scanSign, hplus, if_true, if_false, hdigits, Bool.false_eq_true]
    omega

namespace Decimal

variable {p : Nat} (d : Decimal p)

theorem ofDigits_digits : decimal.ofDigits (digitsOf (p + 1) d.digits) = d.digits :=
  ofDigits_digitsOf d.bounded

/-- The text of a decimal number is read as the number. -/
theorem scan_text : decimal.scan d.text = some d.value := by
  have hall : ∀ b ∈ digitsOf (p + 1) d.digits, decimal.isDigit b = true :=
    fun b hb => isDigit_of_mem_digitsOf hb
  have htake (k : Nat) : ∀ b ∈ (digitsOf (p + 1) d.digits).take k, decimal.isDigit b = true :=
    fun b hb => hall b (List.mem_of_mem_take hb)
  have hdrop (k : Nat) : ∀ b ∈ (digitsOf (p + 1) d.digits).drop k, decimal.isDigit b = true :=
    fun b hb => hall b (List.mem_of_mem_drop hb)
  have hne (k : Nat) : (digitsOf (p + 1) d.digits).take (k + 1) ≠ [] := by
    intro hnil
    have hlen := congrArg List.length hnil
    simp at hlen
  have hnorest : ∀ b ∈ ([] : Bytes).head?, b = ascii 'e' := by
    rintro b ⟨⟩
  unfold text value unit
  simp only
  split
  · rw [scan_shape (hne 0) (htake 1) (hdrop 1) (by rintro b ⟨⟩; rfl), List.take_append_drop,
      d.ofDigits_digits, scanExponent_exponentText, List.length_drop, length_digitsOf,
      Nat.add_sub_cancel]
  split
  · have hzeros : ∀ b ∈ List.replicate (-1 - d.exponent).toNat (ascii '0') ++
        digitsOf (p + 1) d.digits, decimal.isDigit b = true := by
      intro b hb
      rcases List.mem_append.mp hb with hb | hb
      · obtain rfl := List.eq_of_mem_replicate hb
        rfl
      · exact hall b hb
    have hscan := scan_shape (List.cons_ne_nil (ascii '0') []) (by simp; rfl) hzeros hnorest
    rw [List.append_nil] at hscan
    rw [hscan]
    have hvalue : decimal.ofDigits ([ascii '0'] ++ (List.replicate (-1 - d.exponent).toNat
        (ascii '0') ++ digitsOf (p + 1) d.digits)) = d.digits := by
      rw [← List.append_assoc, ofDigits_append, d.ofDigits_digits]
      have hlead := ofDigits_zeros ((-1 - d.exponent).toNat + 1)
      rw [List.replicate_succ] at hlead
      rw [List.singleton_append, hlead, Nat.zero_mul, Nat.zero_add]
    rw [hvalue, List.length_append, List.length_replicate, length_digitsOf]
    congr 3
    show (0 : ℤ) - _ = _
    push_cast
    omega
  · have hscan := scan_shape (hne d.exponent.toNat) (htake _) (hdrop (d.exponent.toNat + 1)) hnorest
    rw [List.append_nil] at hscan
    rw [hscan, List.take_append_drop, d.ofDigits_digits, List.length_drop, length_digitsOf]
    congr 3
    show (0 : ℤ) - _ = _
    omega

/-- The first byte is a digit. -/
theorem text_eq_cons : ∃ b s, d.text = b :: s ∧ decimal.isDigit b = true := by
  have hne (k : Nat) : ∃ b l, (digitsOf (p + 1) d.digits).take (k + 1) = b :: l ∧
      decimal.isDigit b = true := by
    cases hdigits : digitsOf (p + 1) d.digits with
    | nil =>
      have hlen := congrArg List.length hdigits
      simp at hlen
    | cons b l =>
      exact ⟨b, l.take k, rfl, isDigit_of_mem_digitsOf (hdigits ▸ List.mem_cons_self)⟩
  unfold text
  simp only
  split
  · obtain ⟨b, l, heq, hb⟩ := hne 0
    exact ⟨b, _, by rw [heq, List.cons_append, List.cons_append], hb⟩
  split
  · exact ⟨ascii '0', _, rfl, rfl⟩
  · obtain ⟨b, l, heq, hb⟩ := hne d.exponent.toNat
    exact ⟨b, _, by rw [heq, List.cons_append], hb⟩

/-- A text of up to `p + 6` bytes: the digits, a point, and three zeros or the exponent. -/
theorem length_text_le (h : d.exponent.natAbs < 100) : d.text.length ≤ p + 6 := by
  have hfraction (l : Bytes) : (fraction l).length ≤ l.length + 1 := by
    obtain ⟨kept, k, rfl, heq⟩ := fraction_spec l
    rw [heq]
    split
    · exact Nat.zero_le _
    · rw [List.length_cons, List.length_append]
      omega
  have hexponent : (exponentText d.exponent).length = 4 := by
    have hlog : Nat.log 10 d.exponent.natAbs < 2 := Nat.log_lt_of_lt_pow' (by decide) h
    unfold exponentText
    rw [List.length_cons, List.length_cons, length_digitsOf, max_eq_left (by omega)]
  unfold text
  simp only
  split
  · have hlen := hfraction ((digitsOf (p + 1) d.digits).drop 1)
    rw [List.length_drop, length_digitsOf] at hlen
    rw [List.length_append, List.length_append, List.length_take, length_digitsOf, hexponent]
    omega
  split
  · have hlen := hfraction (List.replicate (-1 - d.exponent).toNat (ascii '0') ++
      digitsOf (p + 1) d.digits)
    rw [List.length_append, List.length_replicate, length_digitsOf] at hlen
    rw [List.length_append, List.length_singleton]
    omega
  · have hlen := hfraction ((digitsOf (p + 1) d.digits).drop (d.exponent.toNat + 1))
    rw [List.length_drop, length_digitsOf] at hlen
    rw [List.length_append, List.length_take, length_digitsOf]
    omega

end Decimal

/-- The bytes of a printed number. -/
def isPlain (b : UInt8) : Bool :=
  decimal.isDigit b || b = ascii '.' || b = ascii 'e' || b = ascii '+' || b = ascii '-'

theorem isPlain_of_isDigit {b : UInt8} (h : decimal.isDigit b = true) : isPlain b = true := by
  simp [isPlain, h]

theorem plain_digitsOf (width n : Nat) : ∀ b ∈ digitsOf width n, isPlain b = true :=
  fun _ hb => isPlain_of_isDigit (isDigit_of_mem_digitsOf hb)

theorem plain_fraction {l : Bytes} (h : ∀ b ∈ l, isPlain b = true) :
    ∀ b ∈ fraction l, isPlain b = true := by
  obtain ⟨kept, k, rfl, hfraction⟩ := fraction_spec l
  intro b hb
  rw [hfraction] at hb
  split at hb
  · cases hb
  · rcases List.mem_cons.mp hb with rfl | hb
    · rfl
    · exact h b (List.mem_append_left _ hb)

theorem Decimal.plain_text {p : Nat} (d : Decimal p) : ∀ b ∈ d.text, isPlain b = true := by
  have hall := plain_digitsOf (p + 1) d.digits
  have htake (k : Nat) : ∀ b ∈ (digitsOf (p + 1) d.digits).take k, isPlain b = true :=
    fun b hb => hall b (List.mem_of_mem_take hb)
  have hdrop (k : Nat) : ∀ b ∈ fraction ((digitsOf (p + 1) d.digits).drop k), isPlain b = true :=
    plain_fraction fun b hb => hall b (List.mem_of_mem_drop hb)
  unfold text
  simp only
  split
  · refine List.forall_mem_append.mpr ⟨List.forall_mem_append.mpr ⟨htake 1, hdrop 1⟩, ?_⟩
    unfold exponentText
    refine List.forall_mem_cons.mpr ⟨rfl, List.forall_mem_cons.mpr ⟨?_, plain_digitsOf _ _⟩⟩
    split <;> rfl
  split
  · refine List.forall_mem_append.mpr ⟨List.forall_mem_singleton.mpr rfl, plain_fraction ?_⟩
    refine List.forall_mem_append.mpr ⟨?_, hall⟩
    intro b hb
    obtain rfl := List.eq_of_mem_replicate hb
    rfl
  · exact List.forall_mem_append.mpr ⟨htake _, hdrop _⟩

theorem lower_of_isPlain {b : UInt8} (h : isPlain b = true) : lower b = b := by
  unfold lower
  rw [if_neg]
  rintro ⟨hlow, hhigh⟩
  have hdigit : decimal.isDigit b = false := by
    have hlarge : ¬b ≤ 57 := by
      rw [UInt8.le_iff_toNat_le] at hlow ⊢
      show ¬b.toNat ≤ 57
      have : 65 ≤ b.toNat := hlow
      omega
    show (if 48 ≤ b ∧ b ≤ 57 then some _ else none).isSome = false
    rw [if_neg (fun hb => hlarge hb.2)]
    rfl
  unfold isPlain at h
  rw [hdigit] at h
  simp only [Bool.false_or, Bool.or_eq_true, decide_eq_true_eq] at h
  rcases h with ((rfl | rfl) | rfl) | rfl
  · exact absurd hlow (by decide)
  · exact absurd hhigh (by decide)
  · exact absurd hlow (by decide)
  · exact absurd hlow (by decide)

/-- No word with another letter begins there. -/
theorem startsWith_eq_false {word : List Char} {c : Char} (hc : c ∈ word)
    (hletter : isPlain (ascii c) = false) {s : Bytes} (hs : ∀ b ∈ s, isPlain b = true) :
    startsWith word s = false := by
  refine decide_eq_false ?_
  intro heq
  have hmem : ascii c ∈ (s.take word.length).map lower := heq ▸ List.mem_map_of_mem hc
  obtain ⟨b, hb, hlower⟩ := List.mem_map.mp hmem
  have hplain := hs b (List.mem_of_mem_take hb)
  rw [lower_of_isPlain hplain] at hlower
  rw [hlower, hletter] at hplain
  cases hplain

namespace Ieee754.Format

/-- The magnitudes of the NaNs. -/
def NaN (F : Format) : Type := { m : Nat // F.infinity < m ∧ m < 2 ^ F.width }

variable (F : Format) (nan : Bytes → F.NaN) (p : Nat)

def scanMagnitude (s : Bytes) : Option Nat :=
  if startsWith ['i', 'n', 'f'] s then some F.infinity
  else if startsWith ['n', 'a', 'n'] s then some (nan (nCharSequence (s.drop 3))).1
  else
    let number := (if startsWith ['0', 'x'] s then hexadecimal.scan (s.drop 2) else none) <|>
      decimal.scan s
    number.map F.nearest

/-- `strtod`, and nothing if there is no number. -/
def strtod (s : Bytes) : Option Nat :=
  let (negative, s) := scanSign (s.dropWhile isSpace)
  (F.scanMagnitude nan s).map fun m => (if negative then 2 ^ F.width else 0) + m

def magnitudeText (m : Nat) : Bytes :=
  if F.infinity < m then ['n', 'a', 'n'].map ascii
  else if m = F.infinity then ['i', 'n', 'f'].map ascii
  else if h : m = 0 then [ascii '0']
  else (Decimal.nearest p (F.value m) (value_pos h)).text

/-- `%g` with the precision `p + 1`. -/
def formatG (bits : Nat) : Bytes :=
  (if 2 ^ F.width ≤ bits then [ascii '-'] else []) ++ F.magnitudeText p (bits % 2 ^ F.width)

/-- The magnitude that is read when a magnitude has been printed. -/
def rereadMagnitude (m : Nat) : Nat :=
  if F.infinity < m then (nan []).1
  else if m = F.infinity then m
  else if h : m = 0 then 0
  else F.reread p m (value_pos h)

/-- The bits that are read when bits have been printed. -/
def rereadBits (bits : Nat) : Nat :=
  (if 2 ^ F.width ≤ bits then 2 ^ F.width else 0) + F.rereadMagnitude nan p (bits % 2 ^ F.width)

variable {F p}

theorem scanMagnitude_of_plain {s : Bytes} (hs : ∀ b ∈ s, isPlain b = true) :
    F.scanMagnitude nan s = (decimal.scan s).map F.nearest := by
  unfold scanMagnitude
  rw [startsWith_eq_false (c := 'i') (by simp) (by rfl) hs,
    startsWith_eq_false (c := 'a') (by simp) (by rfl) hs,
    startsWith_eq_false (c := 'x') (by simp) (by rfl) hs]
  rfl

/-- A magnitude is read in full. -/
theorem scanMagnitude_magnitudeText (m : Nat) :
    F.scanMagnitude nan (F.magnitudeText p m) = some (F.rereadMagnitude nan p m) := by
  unfold magnitudeText rereadMagnitude
  split
  · rfl
  split
  · rename_i hinf
    rw [hinf]
    rfl
  split
  · rename_i hinf hzero
    have hnearest : F.nearest 0 = 0 := by
      have hpos : 0 < F.infinity := Nat.pos_of_ne_zero fun h => hinf (hzero.trans h.symm)
      have hself := nearest_value hpos
      rwa [value, units, if_pos (Nat.two_pow_pos _), Nat.cast_zero, zero_div] at hself
    have hscan : decimal.scan [ascii '0'] = some 0 := by
      show some (((0 : Nat) : ℚ) * _) = some 0
      rw [Nat.cast_zero, zero_mul]
    rw [scanMagnitude_of_plain nan (List.forall_mem_singleton.mpr rfl), hscan]
    exact congrArg some hnearest
  · rw [scanMagnitude_of_plain nan (Decimal.plain_text _), Decimal.scan_text]
    rfl

/-- The first byte is neither a space nor a sign. -/
theorem magnitudeText_eq_cons (m : Nat) : ∃ b s, F.magnitudeText p m = b :: s ∧
    isSpace b = false ∧ b ≠ ascii '-' ∧ b ≠ ascii '+' := by
  unfold magnitudeText
  split
  · exact ⟨ascii 'n', _, rfl, rfl, by decide, by decide⟩
  split
  · exact ⟨ascii 'i', _, rfl, rfl, by decide, by decide⟩
  split
  · exact ⟨ascii '0', _, rfl, rfl, by decide, by decide⟩
  · obtain ⟨b, s, heq, hb⟩ := Decimal.text_eq_cons
      (Decimal.nearest p (F.value m) (value_pos (by assumption)))
    have hlow : 48 ≤ b.toNat := by
      by_contra hlt
      have hsmall : ¬(48 ≤ b ∧ b ≤ 57) := fun h => hlt (UInt8.le_iff_toNat_le.mp h.1)
      rw [isDigit, show decimal.digit? b = if 48 ≤ b ∧ b ≤ 57 then some (b.toNat - 48) else none
        from rfl, if_neg hsmall] at hb
      cases hb
    have hother {c : UInt8} (hc : c.toNat < 48) : b ≠ c := by
      rintro rfl
      omega
    refine ⟨b, s, heq, ?_, hother (by decide), hother (by decide)⟩
    have hspace : b ≠ ascii ' ' := hother (by decide)
    have hlarge : ¬b ≤ 13 := by
      rw [UInt8.le_iff_toNat_le]
      show ¬b.toNat ≤ 13
      omega
    simp [isSpace, hspace, hlarge]

/-- The printed bits are read in full. -/
theorem strtod_formatG (bits : Nat) :
    F.strtod nan (F.formatG p bits) = some (F.rereadBits nan p bits) := by
  obtain ⟨b, s, heq, hspace, hminus, hplus⟩ := magnitudeText_eq_cons (F := F) (p := p)
    (bits % 2 ^ F.width)
  have hread := scanMagnitude_magnitudeText nan (F := F) (p := p) (bits % 2 ^ F.width)
  unfold strtod formatG rereadBits
  by_cases hneg : 2 ^ F.width ≤ bits
  · have hsign : scanSign (([ascii '-'] ++ F.magnitudeText p (bits % 2 ^ F.width)).dropWhile
        isSpace) = (true, F.magnitudeText p (bits % 2 ^ F.width)) := rfl
    rw [if_pos hneg, if_pos hneg, hsign]
    simp only [hread, Option.map_some, if_true]
  · have hsign : scanSign (([] ++ F.magnitudeText p (bits % 2 ^ F.width)).dropWhile
        isSpace) = (false, F.magnitudeText p (bits % 2 ^ F.width)) := by
      rw [List.nil_append, heq, List.dropWhile_cons_of_neg (by simp [hspace])]
      show (if b = ascii '-' then (true, s) else if b = ascii '+' then (false, s)
        else (false, b :: s)) = (false, b :: s)
      rw [if_neg hminus, if_neg hplus]
    rw [if_neg hneg, if_neg hneg, hsign]
    simp only [hread, Option.map_some, Bool.false_eq_true, if_false]

section

variable {e : ℤ} (hF : F.Reprints p e)
  (hfinite : ∀ m (hv : 0 < F.value m), m < F.infinity → F.reread p m hv < F.infinity)
include hF hfinite

/-- The magnitude that is read prints to the same text. -/
theorem magnitudeText_rereadMagnitude (m : Nat) :
    F.magnitudeText p (F.rereadMagnitude nan p m) = F.magnitudeText p m := by
  unfold rereadMagnitude
  split
  · rename_i hnan
    unfold magnitudeText
    rw [if_pos (nan []).2.1, if_pos hnan]
  split
  · rfl
  split
  · rename_i hzero
    rw [hzero]
  · rename_i hnan hinf hne
    have hm : m < F.infinity := by omega
    have hread := hfinite m (value_pos hne) hm
    obtain ⟨hw, hsame⟩ := reprints hF (value_pos hne) hm hread
    have hne' : F.reread p m (value_pos hne) ≠ 0 := by
      intro hzero
      rw [hzero, value, units, if_pos (Nat.two_pow_pos _)] at hw
      simp at hw
    unfold magnitudeText
    rw [if_neg (Nat.not_lt_of_lt hread), if_neg (Nat.ne_of_lt hread), dif_neg hne', if_neg hnan,
      if_neg hinf, dif_neg hne, hsame]

omit hF in
theorem rereadMagnitude_lt (m : Nat) (hwidth : F.infinity < 2 ^ F.width) :
    F.rereadMagnitude nan p m < 2 ^ F.width := by
  unfold rereadMagnitude
  split
  · exact (nan []).2.2
  split
  · omega
  split
  · exact Nat.two_pow_pos _
  · rename_i hnan hinf hne
    exact (hfinite m (value_pos hne) (by omega)).trans hwidth

/-- The bits that are read print to the same text. -/
theorem formatG_rereadBits (hwidth : F.infinity < 2 ^ F.width) (bits : Nat) :
    F.formatG p (F.rereadBits nan p bits) = F.formatG p bits := by
  have hlt := rereadMagnitude_lt nan hfinite (bits % 2 ^ F.width) hwidth
  have hsame := magnitudeText_rereadMagnitude nan hF hfinite (bits % 2 ^ F.width)
  unfold rereadBits formatG
  split
  · rw [if_pos (Nat.le_add_right _ _), Nat.add_mod_left, Nat.mod_eq_of_lt hlt, hsame]
  · rw [Nat.zero_add, if_neg (Nat.not_le_of_lt hlt), Nat.mod_eq_of_lt hlt, hsame]

end

end Ieee754.Format

/-! ## A `float` with six digits -/

namespace Ieee754

open Format

theorem natAbs_exponent_lt {m : Nat} (hne : m ≠ 0) (hm : m < binary32.infinity) :
    (Decimal.nearest 5 (binary32.value m) (value_pos hne)).exponent.natAbs < 100 := by
  have hlow : -45 ≤ Int.log 10 (binary32.value m) := by
    refine (Int.zpow_le_iff_le_log (by decide : 1 < 10) (value_pos hne)).mp ?_
    have hone : (1 : ℚ) ≤ binary32.units m := by exact_mod_cast units_pos hne
    unfold value
    rw [le_div_iff₀ (by positivity)]
    refine le_trans ?_ hone
    norm_num [binary32, scale]
  have hv : 0 < binary32.value m := value_pos hne
  have hhigh := log_value_lt hm hv
  have hlog := Decimal.log_le_exponent (p := 5) hv
  have hnext := Decimal.exponent_le_log_add_one (p := 5) hv
  omega

/-- The text of a `float` fits into a buffer of 13 bytes, and has no NUL. -/
theorem length_formatG_le (bits : Nat) : (binary32.formatG 5 bits).length ≤ 12 := by
  have hmagnitude (m : Nat) : (binary32.magnitudeText 5 m).length ≤ 11 := by
    unfold magnitudeText
    split
    · exact Nat.le_of_ble_eq_true rfl
    split
    · exact Nat.le_of_ble_eq_true rfl
    split
    · exact Nat.le_of_ble_eq_true rfl
    · rename_i hnan hinf hne
      exact Decimal.length_text_le _ (natAbs_exponent_lt hne (by omega))
  have hle := hmagnitude (bits % 2 ^ binary32.width)
  unfold formatG
  split
  · rw [List.length_append, List.length_singleton]
    omega
  · rw [List.nil_append]
    omega

theorem zero_notMem_formatG (bits : Nat) : 0 ∉ binary32.formatG 5 bits := by
  have hmagnitude (m : Nat) : 0 ∉ binary32.magnitudeText 5 m := by
    unfold magnitudeText
    split
    · decide
    split
    · decide
    split
    · decide
    · intro hzero
      cases Decimal.plain_text _ 0 hzero
  unfold formatG
  intro hzero
  rcases List.mem_append.mp hzero with hzero | hzero
  · split at hzero
    · exact absurd hzero (by decide)
    · cases hzero
  · exact hmagnitude _ hzero

end Ieee754

end Mpubsub.Lib
