import Mpubsub.Lib.Utf8
import Mathlib.Data.List.Perm.Basic

/-!
# Tables as text

A list of lines, sorted and joined, as a canonical text of the set of lines. Sorting forgets
the order and nothing else (`mergeSort_eq_iff_perm`), joining forgets nothing where the
separator is in no part (`intercalate_inj`), and UTF-8 commutes with both (`utf8_sortedLines`).
-/

namespace Mpubsub.Lib

/-! ## Sorting -/

section Sorting

variable {α : Type*} [LE α] [DecidableLE α] [Std.IsLinearOrder α] {l m : List α}

theorem pairwise_mergeSort_le (l : List α) : (l.mergeSort fun a b => a ≤ b).Pairwise (· ≤ ·) := by
  refine List.Pairwise.imp of_decide_eq_true (List.pairwise_mergeSort ?_ ?_ l)
  · intro a b c hab hbc
    exact decide_eq_true (Std.le_trans (of_decide_eq_true hab) (of_decide_eq_true hbc))
  · intro a b
    rcases Std.le_total (a := a) (b := b) with h | h
    · exact Bool.or_eq_true_iff.mpr (.inl (decide_eq_true h))
    · exact Bool.or_eq_true_iff.mpr (.inr (decide_eq_true h))

/-- What is left of a list when it is sorted is how often each element is in it. -/
theorem mergeSort_eq_iff_perm :
    (l.mergeSort fun a b => a ≤ b) = (m.mergeSort fun a b => a ≤ b) ↔ l.Perm m := by
  constructor
  · intro h
    exact (List.mergeSort_perm l _).symm.trans (h ▸ List.mergeSort_perm m _)
  · intro h
    have hperm := (List.mergeSort_perm l fun a b => decide (a ≤ b)).trans
      (h.trans (List.mergeSort_perm m fun a b => decide (a ≤ b)).symm)
    exact hperm.eq_of_pairwise (fun a b _ _ => Std.le_antisymm) (pairwise_mergeSort_le l)
      (pairwise_mergeSort_le m)

end Sorting

/-! ## Joining -/

/-- A text is the join of one list of parts only. -/
theorem intercalate_inj {sep : Char} {ls ms : List String} (hls : ls ≠ []) (hms : ms ≠ [])
    (hl : ∀ l ∈ ls, sep ∉ l.toList) (hm : ∀ m ∈ ms, sep ∉ m.toList) :
    (String.singleton sep).intercalate ls = (String.singleton sep).intercalate ms ↔ ls = ms := by
  constructor
  · intro h
    have hsplit : ∀ {ls : List String}, ls ≠ [] → (∀ l ∈ ls, sep ∉ l.toList) →
        ((String.singleton sep).intercalate ls).toList.splitOn sep = ls.map String.toList := by
      intro ls hls hl
      rw [String.toList_intercalate, String.toList_singleton]
      refine List.splitOn_intercalate sep ?_ (mt List.map_eq_nil_iff.mp hls)
      intro cs hcs
      obtain ⟨l, hmem, rfl⟩ := List.mem_map.mp hcs
      exact hl l hmem
    have hmap : ls.map String.toList = ms.map String.toList := by
      rw [← hsplit hls hl, ← hsplit hms hm, h]
    exact List.map_injective_iff.mpr (fun s t => String.toList_inj.mp) hmap
  · rintro rfl
    rfl

/-- Lines in order, one after the other. -/
def sortedLines (lines : List String) : String :=
  "\n".intercalate (lines.mergeSort fun a b => a ≤ b)

theorem sortedLines_eq_of_perm {ls ms : List String} (h : ls.Perm ms) :
    sortedLines ls = sortedLines ms := by
  rw [sortedLines, sortedLines, mergeSort_eq_iff_perm.mpr h]

/-- The text says which lines it is made of. -/
theorem perm_of_sortedLines_eq {ls ms : List String} (hls : ls ≠ []) (hms : ms ≠ [])
    (hl : ∀ l ∈ ls, '\n' ∉ l.toList) (hm : ∀ m ∈ ms, '\n' ∉ m.toList)
    (h : sortedLines ls = sortedLines ms) : ls.Perm ms := by
  have hne : ∀ {ls : List String}, ls ≠ [] → (ls.mergeSort fun a b => a ≤ b) ≠ [] := by
    intro ls hls hnil
    have hperm := List.mergeSort_perm ls fun a b => decide (a ≤ b)
    rw [hnil] at hperm
    exact hls hperm.nil_eq.symm
  exact mergeSort_eq_iff_perm.mp ((intercalate_inj (hne hls) (hne hms)
    (fun l hmem => hl l (List.mem_mergeSort.mp hmem))
    (fun m hmem => hm m (List.mem_mergeSort.mp hmem))).mp h)

/-! ## UTF-8 -/

theorem utf8_intercalate (s : String) (l : List String) :
    utf8 (s.intercalate l) = (utf8 s).intercalate (l.map utf8) := by
  rw [utf8_eq_flatMap, String.toList_intercalate]
  induction l with
  | nil => rfl
  | cons t l ih =>
    cases l with
    | nil =>
      rw [List.map_singleton, List.map_singleton, List.intercalate_singleton,
        List.intercalate_singleton, ← utf8_eq_flatMap]
    | cons u l =>
      rw [List.map_cons, List.map_cons, List.map_cons, List.map_cons,
        List.intercalate_cons_cons, List.intercalate_cons_cons, List.flatMap_append,
        List.flatMap_append, ← utf8_eq_flatMap, ← utf8_eq_flatMap]
      rw [List.map_cons, List.map_cons] at ih
      rw [ih]

/-- Sorted as characters and encoded is encoded and sorted as bytes. -/
theorem utf8_sortedLines (lines : List String) :
    utf8 (sortedLines lines) =
      (utf8 "\n").intercalate ((lines.map utf8).mergeSort fun a b => a ≤ b) := by
  rw [sortedLines, utf8_intercalate, List.map_mergeSort]
  intro a _ b _
  exact decide_eq_decide.mpr utf8_le_utf8_iff.symm

/-! ## Decimal numbers -/

theorem isDigit_of_mem_repr {n : Nat} {c : Char} (h : c ∈ n.repr.toList) : c.isDigit := by
  rw [Nat.toList_repr] at h
  exact Nat.isDigit_of_mem_toDigits (by omega) (by omega) h

theorem repr_inj {m n : Nat} : m.repr = n.repr ↔ m = n := by
  constructor
  · intro h
    have hdigits : Nat.toDigits 10 m = Nat.toDigits 10 n := by
      rw [← Nat.toList_repr, ← Nat.toList_repr, h]
    rw [← Nat.ofDigitChars_ten_toDigits (n := m), hdigits, Nat.ofDigitChars_ten_toDigits]
  · rintro rfl
    rfl

theorem ofDigitChars_cons (c : Char) (l : List Char) :
    Nat.ofDigitChars 10 (c :: l) 0 =
      10 ^ l.length * (c.toNat - 48) + Nat.ofDigitChars 10 l 0 := by
  rw [Nat.ofDigitChars_cons, Nat.ofDigitChars_eq_ofDigitChars_zero, Nat.mul_zero, Nat.zero_add]
  rfl

theorem ofDigitChars_lt {l : List Char} (h : ∀ c ∈ l, c.isDigit) :
    Nat.ofDigitChars 10 l 0 < 10 ^ l.length := by
  induction l with
  | nil => exact Nat.one_pos
  | cons c l ih =>
    obtain ⟨hc, hl⟩ := List.forall_mem_cons.mp h
    have hdigit : c.toNat - 48 ≤ 9 := by
      have hle : c.toNat ≤ 57 := (Char.isDigit_iff_toNat.mp hc).2
      omega
    have hmul : 10 ^ l.length * (c.toNat - 48) ≤ 10 ^ l.length * 9 := Nat.mul_le_mul_left _ hdigit
    have hrest := ih hl
    rw [ofDigitChars_cons, List.length_cons, Nat.pow_succ]
    omega

/-- Numerals of one length compare as their numbers. -/
theorem digits_append_lt_iff {l m : List Char} (hlen : l.length = m.length)
    (hl : ∀ c ∈ l, c.isDigit) (hm : ∀ c ∈ m, c.isDigit) (x y : List Char) :
    l ++ x < m ++ y ↔ Nat.ofDigitChars 10 l 0 < Nat.ofDigitChars 10 m 0 ∨
      Nat.ofDigitChars 10 l 0 = Nat.ofDigitChars 10 m 0 ∧ x < y := by
  induction l generalizing m with
  | nil =>
    rw [List.eq_nil_of_length_eq_zero hlen.symm]
    simp
  | cons c l ih =>
    cases m with
    | nil => cases hlen
    | cons d m =>
      obtain ⟨hc, hl⟩ := List.forall_mem_cons.mp hl
      obtain ⟨hd, hm⟩ := List.forall_mem_cons.mp hm
      have hlen' : l.length = m.length := Nat.succ.inj hlen
      have hc1 : 48 ≤ c.toNat := (Char.isDigit_iff_toNat.mp hc).1
      have hd1 : 48 ≤ d.toNat := (Char.isDigit_iff_toNat.mp hd).1
      have hl1 := ofDigitChars_lt hl
      have hm1 := ofDigitChars_lt hm
      rw [List.cons_append, List.cons_append, List.cons_lt_cons_iff, ih hlen' hl hm,
        ofDigitChars_cons, ofDigitChars_cons, ← hlen']
      rw [← hlen'] at hm1
      rcases Nat.lt_trichotomy c.toNat d.toNat with hlt | heq | hgt
      · -- The first digit decides, by more than the rest can make up for.
        have hmul : 10 ^ l.length * (c.toNat - 48 + 1) ≤ 10 ^ l.length * (d.toNat - 48) :=
          Nat.mul_le_mul_left _ (by omega)
        rw [Nat.mul_add, Nat.mul_one] at hmul
        exact ⟨fun _ => .inl (by omega), fun _ => .inl hlt⟩
      · have hcd : c = d := Char.toNat_inj.mp heq
        subst hcd
        have hirrefl : ¬c < c := Char.lt_irrefl c
        simp only [hirrefl, true_and, false_or, Nat.add_lt_add_iff_left, Nat.add_left_cancel_iff]
      · have hmul : 10 ^ l.length * (d.toNat - 48 + 1) ≤ 10 ^ l.length * (c.toNat - 48) :=
          Nat.mul_le_mul_left _ (by omega)
        rw [Nat.mul_add, Nat.mul_one] at hmul
        constructor
        · rintro (hlt | ⟨rfl, -⟩)
          · exact absurd (show c.toNat < d.toNat from hlt) (by omega)
          · omega
        · rintro (hlt | ⟨heq, -⟩)
          · omega
          · omega

/-- The number that the leading digits of `n` make, as many of them as `m` has. -/
def leading (m n : Nat) : Nat := n / 10 ^ (n.repr.length - m.repr.length)

theorem length_repr (n : Nat) : n.repr.length = (Nat.toDigits 10 n).length := by
  rw [← String.length_toList, Nat.toList_repr]

theorem ofDigitChars_take (n k : Nat) :
    Nat.ofDigitChars 10 ((Nat.toDigits 10 n).take k) 0 =
      n / 10 ^ ((Nat.toDigits 10 n).length - k) := by
  have hdigits : ∀ c ∈ (Nat.toDigits 10 n).drop k, c.isDigit := fun c hc =>
    Nat.isDigit_of_mem_toDigits (by omega) (by omega) (List.mem_of_mem_drop hc)
  have hlt := ofDigitChars_lt hdigits
  rw [List.length_drop] at hlt
  have hn : 10 ^ ((Nat.toDigits 10 n).length - k) *
      Nat.ofDigitChars 10 ((Nat.toDigits 10 n).take k) 0 +
        Nat.ofDigitChars 10 ((Nat.toDigits 10 n).drop k) 0 = n := by
    rw [← List.length_drop, ← Nat.ofDigitChars_eq_ofDigitChars_zero, ← Nat.ofDigitChars_append,
      List.take_append_drop, Nat.ofDigitChars_ten_toDigits]
  refine (Nat.div_eq_of_lt_le ?_ ?_).symm
  · rw [Nat.mul_comm]
    omega
  · rw [Nat.mul_comm, Nat.mul_add, Nat.mul_one]
    omega

/-- Behind a numeral and a character that comes after the digits, the smaller number comes
first only where it is smaller than the leading digits of the other. -/
theorem repr_append_lt_iff {m n : Nat} (hlt : m < n) {c : Char} (hc : '9' < c)
    (x y : List Char) : m.repr.toList ++ c :: x < n.repr.toList ++ c :: y ↔ m < leading m n := by
  have hdigits (n : Nat) : ∀ d ∈ Nat.toDigits 10 n, d.isDigit := fun d hd =>
    Nat.isDigit_of_mem_toDigits (by omega) (by omega) hd
  have hlen : (Nat.toDigits 10 m).length ≤ (Nat.toDigits 10 n).length := by
    have hn := (Nat.length_toDigits_le_iff (n := n) (show 1 < 10 by omega)
      Nat.length_toDigits_pos).mp (Nat.le_refl _)
    exact (Nat.length_toDigits_le_iff (by omega) Nat.length_toDigits_pos).mpr (by omega)
  have htake : ((Nat.toDigits 10 n).take (Nat.toDigits 10 m).length).length =
      (Nat.toDigits 10 m).length := by
    rw [List.length_take, Nat.min_eq_left hlen]
  rw [Nat.toList_repr, Nat.toList_repr,
    ← List.take_append_drop (Nat.toDigits 10 m).length (Nat.toDigits 10 n), List.append_assoc,
    digits_append_lt_iff htake.symm (hdigits m)
      (fun d hd => hdigits n d (List.mem_of_mem_take hd)),
    ofDigitChars_take, Nat.ofDigitChars_ten_toDigits, leading, length_repr, length_repr]
  constructor
  · rintro (hfirst | ⟨heq, hrest⟩)
    · exact hfirst
    · -- The longer numeral goes on with a digit.
      cases hdrop : (Nat.toDigits 10 n).drop (Nat.toDigits 10 m).length with
      | nil =>
        have hle := List.drop_eq_nil_iff.mp hdrop
        rw [Nat.sub_eq_zero_of_le hle, Nat.pow_zero, Nat.div_one] at heq
        omega
      | cons d ds =>
        have hd : d.isDigit := hdigits n d (List.mem_of_mem_drop (hdrop ▸ List.mem_cons_self))
        have hle : d.toNat ≤ 57 := (Char.isDigit_iff_toNat.mp hd).2
        have h9 : 57 < c.toNat := hc
        rw [hdrop, List.cons_append, List.cons_lt_cons_iff] at hrest
        rcases hrest with hcd | ⟨rfl, -⟩
        · exact absurd (show c.toNat < d.toNat from hcd) (by omega)
        · omega
  · exact .inl

end Mpubsub.Lib
