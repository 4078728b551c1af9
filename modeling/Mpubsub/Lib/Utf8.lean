import Mpubsub.Lib.Bytes
import Mathlib.Tactic.SplitIfs

/-!
# UTF-8

A string in UTF-8 (`utf8`), character by character. The encoding keeps the order: strings
compare by code points as their encodings do byte by byte (`utf8_le_utf8_iff`).
-/

namespace Mpubsub.Lib

/-- A string in UTF-8. -/
def utf8 (s : String) : Bytes := s.toUTF8.data.toList

theorem utf8_eq_flatMap (s : String) : utf8 s = s.toList.flatMap String.utf8EncodeChar := by
  show s.toByteArray.data.toList = _
  rw [← String.utf8Encode_toList, List.utf8Encode, List.data_toByteArray]

@[simp] theorem utf8_append (s t : String) : utf8 (s ++ t) = utf8 s ++ utf8 t := by
  rw [utf8_eq_flatMap, utf8_eq_flatMap, utf8_eq_flatMap, String.toList_append, List.flatMap_append]

/-! ## NUL -/

theorem zero_mem_utf8EncodeChar (c : Char) : 0 ∈ String.utf8EncodeChar c ↔ c = '\x00' := by
  have hc : c.val.toNat < 0x110000 := by
    rcases c.valid with h | h <;> omega
  have hzero : c = '\x00' ↔ c.val.toNat = 0 := by
    rw [← Char.toNat_inj]
    rfl
  have hbyte (n : Nat) (hn : n < 256) : (0 : UInt8) = UInt8.ofNat n ↔ n = 0 := by
    rw [← UInt8.toNat_inj, UInt8.toNat_ofNat', Nat.mod_eq_of_lt hn]
    exact eq_comm
  rw [hzero]
  unfold String.utf8EncodeChar
  dsimp only
  generalize c.val.toNat = n at *
  -- All bytes but those of ASCII have their top bit set.
  split_ifs <;> simp (disch := omega) only [List.mem_cons, List.not_mem_nil, or_false, hbyte]
  all_goals omega

theorem zero_mem_utf8 (s : String) : 0 ∈ utf8 s ↔ '\x00' ∈ s.toList := by
  simp only [utf8_eq_flatMap, List.mem_flatMap, zero_mem_utf8EncodeChar, exists_eq_right]

/-! ## Order -/

theorem ofNat_cons_lt {a b : Nat} (ha : a < 256) (hb : b < 256) {l m : Bytes} :
    UInt8.ofNat a :: l < UInt8.ofNat b :: m ↔ a < b ∨ a = b ∧ l < m := by
  rw [List.cons_lt_cons_iff, UInt8.lt_iff_toNat_lt, ← UInt8.toNat_inj, UInt8.toNat_ofNat',
    UInt8.toNat_ofNat', Nat.mod_eq_of_lt ha, Nat.mod_eq_of_lt hb]

/-- Numbers compare by their digits in base 64. -/
theorem sextets_lt {m n : Nat} (h : m < n) :
    m / 262144 < n / 262144 ∨ m / 262144 = n / 262144 ∧
      (m / 4096 % 64 < n / 4096 % 64 ∨ m / 4096 % 64 = n / 4096 % 64 ∧
        (m / 64 % 64 < n / 64 % 64 ∨ m / 64 % 64 = n / 64 % 64 ∧ m % 64 < n % 64)) := by
  have hm : m / 64 / 64 = m / 4096 ∧ m / 4096 / 64 = m / 262144 := by omega
  have hn : n / 64 / 64 = n / 4096 ∧ n / 4096 / 64 = n / 262144 := by omega
  have hdigit (m n : Nat) (h : m < n) : m / 64 < n / 64 ∨ m / 64 = n / 64 ∧ m % 64 < n % 64 := by
    omega
  rcases hdigit m n h with h | ⟨heq, h⟩
  · rcases hdigit _ _ h with h | ⟨heq, h⟩
    · rcases hdigit _ _ h with h | ⟨heq, h⟩ <;> omega
    · omega
  · omega

/-- The encodings of two characters differ before one of them ends. -/
theorem utf8EncodeChar_append_lt {c d : Char} (h : c < d) (x y : Bytes) :
    String.utf8EncodeChar c ++ x < String.utf8EncodeChar d ++ y := by
  have hlt : c.val.toNat < d.val.toNat := h
  have hc : c.val.toNat < 0x110000 := by
    rcases c.valid with h | h <;> omega
  have hd : d.val.toNat < 0x110000 := by
    rcases d.valid with h | h <;> omega
  unfold String.utf8EncodeChar
  dsimp only
  generalize c.val.toNat = m at *
  generalize d.val.toNat = n at *
  have hdigits := sextets_lt hlt
  have hm : m / 262144 % 8 = m / 262144 := by omega
  have hn : n / 262144 % 8 = n / 262144 := by omega
  -- The cases where the smaller character has the longer encoding cannot be.
  split_ifs <;> first
    | omega
    | simp (disch := omega) only [List.cons_append, ofNat_cons_lt, Nat.add_lt_add_iff_right,
        Nat.add_right_cancel_iff, hm, hn]
      omega
theorem flatMap_utf8EncodeChar_lt {s t : List Char} (h : s < t) :
    s.flatMap String.utf8EncodeChar < t.flatMap String.utf8EncodeChar := by
  induction s generalizing t with
  | nil =>
    cases t with
    | nil => exact absurd h (List.lt_irrefl [])
    | cons d t =>
      rw [List.flatMap_nil, List.flatMap_cons]
      obtain ⟨b, bs, hd⟩ := List.exists_cons_of_ne_nil (String.utf8EncodeChar_ne_nil (c := d))
      rw [hd, List.cons_append]
      exact List.nil_lt_cons _ _
  | cons c s ih =>
    cases t with
    | nil => exact absurd h (List.not_lt_nil _)
    | cons d t =>
      rw [List.flatMap_cons, List.flatMap_cons]
      rcases List.cons_lt_cons_iff.mp h with hlt | ⟨rfl, hrest⟩
      · exact utf8EncodeChar_append_lt hlt _ _
      · exact List.append_left_lt (ih hrest)

theorem utf8_lt_utf8 {s t : String} (h : s < t) : utf8 s < utf8 t := by
  rw [utf8_eq_flatMap, utf8_eq_flatMap]
  exact flatMap_utf8EncodeChar_lt (String.lt_iff.mp h)

/-- Strings compare as their encodings do. -/
theorem utf8_le_utf8_iff {s t : String} : utf8 s ≤ utf8 t ↔ s ≤ t := by
  constructor
  · intro h
    by_contra hnot
    exact absurd (utf8_lt_utf8 (Std.not_le.mp hnot)) (List.not_lt.mpr h)
  · intro h hlt
    have hne : s ≠ t := by
      rintro rfl
      exact List.lt_irrefl _ hlt
    have hst : s < t := by
      by_contra hnot
      exact hne (Std.le_antisymm h (Std.not_lt.mp hnot))
    exact List.lt_asymm hlt (utf8_lt_utf8 hst)

theorem utf8_injective : Function.Injective utf8 := by
  intro s t h
  exact Std.le_antisymm (utf8_le_utf8_iff.mp (h ▸ List.le_refl _))
    (utf8_le_utf8_iff.mp (h ▸ List.le_refl _))

/-! ## Texts that are not UTF-8 -/

/-- The encoding of a string. -/
def ValidUtf8 (text : Bytes) : Prop := ∃ s, utf8 s = text

/-- The first character of a text, as far as one starts there. -/
def decodeRune (text : Bytes) : Option Char := ByteArray.utf8DecodeChar? text.toByteArray 0

/-- The character for what is none. -/
def replacement : Char := '\uFFFD'

/-- The same text behind `skip` bytes, with a replacement for every byte at which no character
starts. -/
def toValidFrom : Nat → Bytes → Bytes
  | _, [] => []
  | skip + 1, _ :: text => toValidFrom skip text
  | 0, b :: text =>
    match decodeRune (b :: text) with
    | some c => String.utf8EncodeChar c ++ toValidFrom (c.utf8Size - 1) text
    | none => String.utf8EncodeChar replacement ++ toValidFrom 0 text

def toValid (text : Bytes) : Bytes := toValidFrom 0 text

theorem validUtf8_flatMap (cs : List Char) : ValidUtf8 (cs.flatMap String.utf8EncodeChar) :=
  ⟨String.ofList cs, by rw [utf8_eq_flatMap, String.toList_ofList]⟩

theorem validUtf8_toValid (text : Bytes) : ValidUtf8 (toValid text) := by
  have hchars : ∀ skip, ∃ cs : List Char, toValidFrom skip text =
      cs.flatMap String.utf8EncodeChar := by
    induction text with
    | nil => exact fun skip => ⟨[], by cases skip <;> rfl⟩
    | cons b text ih =>
      intro skip
      cases skip with
      | succ skip => exact ih skip
      | zero =>
        rw [toValidFrom]
        cases decodeRune (b :: text) with
        | some c =>
          obtain ⟨cs, hcs⟩ := ih (c.utf8Size - 1)
          exact ⟨c :: cs, by rw [List.flatMap_cons, ← hcs]⟩
        | none =>
          obtain ⟨cs, hcs⟩ := ih 0
          exact ⟨replacement :: cs, by rw [List.flatMap_cons, ← hcs]⟩
  obtain ⟨cs, hcs⟩ := hchars 0
  rw [toValid, hcs]
  exact validUtf8_flatMap cs

theorem toValidFrom_append (p text : Bytes) :
    toValidFrom p.length (p ++ text) = toValidFrom 0 text := by
  induction p with
  | nil => rfl
  | cons b p ih => exact ih

theorem decodeRune_append (c : Char) (text : Bytes) :
    decodeRune (String.utf8EncodeChar c ++ text) = some c := by
  rw [decodeRune, List.toByteArray_append, ByteArray.utf8DecodeChar?_utf8EncodeChar_append]

/-- A character stays. -/
theorem toValid_append (c : Char) (text : Bytes) :
    toValid (String.utf8EncodeChar c ++ text) = String.utf8EncodeChar c ++ toValid text := by
  obtain ⟨b, bs, hc⟩ := List.exists_cons_of_ne_nil (String.utf8EncodeChar_ne_nil (c := c))
  have hlength : bs.length = c.utf8Size - 1 := by
    rw [← String.length_utf8EncodeChar, hc, List.length_cons, Nat.add_sub_cancel]
  have hrune := decodeRune_append c text
  rw [hc, List.cons_append] at hrune ⊢
  rw [toValid, toValidFrom, hrune]
  simp only
  rw [hc, ← hlength, toValidFrom_append]
  rfl

/-- Only a valid text stays as it is. -/
theorem toValid_eq_iff {text : Bytes} : toValid text = text ↔ ValidUtf8 text := by
  constructor
  · intro h
    rw [← h]
    exact validUtf8_toValid text
  · rintro ⟨s, rfl⟩
    rw [utf8_eq_flatMap]
    induction s.toList with
    | nil => rfl
    | cons c cs ih => rw [List.flatMap_cons, toValid_append, ih]

theorem validUtf8_of_ascii {text : Bytes} (h : ∀ b ∈ text, b < 128) : ValidUtf8 text := by
  have hchars : ∃ cs : List Char, text = cs.flatMap String.utf8EncodeChar := by
    induction text with
    | nil => exact ⟨[], rfl⟩
    | cons b text ih =>
      rw [List.forall_mem_cons] at h
      obtain ⟨cs, hcs⟩ := ih h.2
      have hascii : ∀ n < 128, String.utf8EncodeChar (Char.ofNat n) = [UInt8.ofNat n] := by
        decide +kernel
      refine ⟨Char.ofNat b.toNat :: cs, ?_⟩
      rw [List.flatMap_cons, hascii _ (UInt8.lt_iff_toNat_lt.mp h.1), UInt8.ofNat_toNat, ← hcs]
      rfl
  obtain ⟨cs, rfl⟩ := hchars
  exact validUtf8_flatMap cs

end Mpubsub.Lib
