import Mpubsub.Lib.Utf8

/-!
# Base64

The standard alphabet with padding: three bytes in four characters. A decoder takes what the
encoder has written (`decode_encode`), which is ASCII (`exists_utf8_encode`).
-/

namespace Mpubsub.Lib.Base64

/-- The character of a digit. -/
def digit (n : Nat) : UInt8 :=
  if n < 26 then UInt8.ofNat (65 + n)
  else if n < 52 then UInt8.ofNat (71 + n)
  else if n < 62 then UInt8.ofNat (n - 4)
  else if n = 62 then 43
  else 47

/-- The digit of a character. -/
def value? (c : UInt8) : Option Nat :=
  if 65 ≤ c ∧ c ≤ 90 then some (c.toNat - 65)
  else if 97 ≤ c ∧ c ≤ 122 then some (c.toNat - 71)
  else if 48 ≤ c ∧ c ≤ 57 then some (c.toNat + 4)
  else if c = 43 then some 62
  else if c = 47 then some 63
  else none

/-- The character `=`. -/
def pad : UInt8 := 61

def encode : Bytes → Bytes
  | [] => []
  | [a] => [digit (a.toNat / 4), digit (a.toNat % 4 * 16), pad, pad]
  | [a, b] =>
    [digit (a.toNat / 4), digit (a.toNat % 4 * 16 + b.toNat / 16), digit (b.toNat % 16 * 4), pad]
  | a :: b :: c :: rest =>
    digit (a.toNat / 4) :: digit (a.toNat % 4 * 16 + b.toNat / 16) ::
      digit (b.toNat % 16 * 4 + c.toNat / 64) :: digit (c.toNat % 64) :: encode rest

/-- The four characters of a group, of which only the last may have padding. -/
def decodeGroups : Bytes → Option Bytes
  | [] => some []
  | w :: x :: y :: z :: rest =>
    if z = pad then
      if rest ≠ [] then none
      else if y = pad then do
        let w ← value? w
        let x ← value? x
        return [UInt8.ofNat (w * 4 + x / 16)]
      else do
        let w ← value? w
        let x ← value? x
        let y ← value? y
        return [UInt8.ofNat (w * 4 + x / 16), UInt8.ofNat (x * 16 + y / 4)]
    else do
      let w ← value? w
      let x ← value? x
      let y ← value? y
      let z ← value? z
      let bytes ← decodeGroups rest
      return UInt8.ofNat (w * 4 + x / 16) :: UInt8.ofNat (x * 16 + y / 4) ::
        UInt8.ofNat (y * 64 + z) :: bytes
  | _ => none

/-- Line breaks are skipped. -/
def decode (text : Bytes) : Option Bytes := decodeGroups (text.filter fun c => c ≠ 10 ∧ c ≠ 13)

theorem digit_spec : ∀ n < 64, value? (digit n) = some n ∧ digit n ≠ pad ∧ digit n ≠ 10 ∧
    digit n ≠ 13 ∧ digit n < 128 := by
  decide

theorem value?_digit {n : Nat} (h : n < 64) : value? (digit n) = some n := (digit_spec n h).1

theorem digit_ne_pad {n : Nat} (h : n < 64) : digit n ≠ pad := (digit_spec n h).2.1

/-- The digits of the encoding. -/
theorem mem_encode {bytes : Bytes} {c : UInt8} (h : c ∈ encode bytes) :
    c = pad ∨ ∃ n < 64, c = digit n := by
  induction bytes using encode.induct with
  | case1 => cases h
  | case2 a =>
    have := a.toNat_lt
    simp only [encode, List.mem_cons, List.not_mem_nil, or_false] at h
    rcases h with h | h | h | h
    · exact .inr ⟨_, by omega, h⟩
    · exact .inr ⟨_, by omega, h⟩
    · exact .inl h
    · exact .inl h
  | case3 a b =>
    have := a.toNat_lt
    have := b.toNat_lt
    simp only [encode, List.mem_cons, List.not_mem_nil, or_false] at h
    rcases h with h | h | h | h
    · exact .inr ⟨_, by omega, h⟩
    · exact .inr ⟨_, by omega, h⟩
    · exact .inr ⟨_, by omega, h⟩
    · exact .inl h
  | case4 a b c rest ih =>
    have := a.toNat_lt
    have := b.toNat_lt
    have := c.toNat_lt
    simp only [encode, List.mem_cons] at h
    rcases h with h | h | h | h | h
    · exact .inr ⟨_, by omega, h⟩
    · exact .inr ⟨_, by omega, h⟩
    · exact .inr ⟨_, by omega, h⟩
    · exact .inr ⟨_, by omega, h⟩
    · exact ih h

theorem ofNat_eq {n : Nat} {b : UInt8} (h : n % 256 = b.toNat) : UInt8.ofNat n = b := by
  rw [← UInt8.toNat_inj, UInt8.toNat_ofNat', h]

theorem decodeGroups_encode (bytes : Bytes) : decodeGroups (encode bytes) = some bytes := by
  induction bytes using encode.induct with
  | case1 => rfl
  | case2 a =>
    have ha := a.toNat_lt
    have h₀ : UInt8.ofNat (a.toNat / 4 * 4 + a.toNat % 4 * 16 / 16) = a := ofNat_eq (by omega)
    rw [encode, decodeGroups, if_pos rfl, if_neg (not_not.mpr rfl), if_pos rfl,
      value?_digit (by omega), value?_digit (by omega)]
    exact congrArg (fun b => some [b]) h₀
  | case3 a b =>
    have ha := a.toNat_lt
    have hb := b.toNat_lt
    have h₀ : UInt8.ofNat (a.toNat / 4 * 4 + (a.toNat % 4 * 16 + b.toNat / 16) / 16) = a :=
      ofNat_eq (by omega)
    have h₁ : UInt8.ofNat ((a.toNat % 4 * 16 + b.toNat / 16) * 16 + b.toNat % 16 * 4 / 4) = b :=
      ofNat_eq (by omega)
    rw [encode, decodeGroups, if_pos rfl, if_neg (not_not.mpr rfl),
      if_neg (digit_ne_pad (by omega)), value?_digit (by omega), value?_digit (by omega),
      value?_digit (by omega)]
    show some [_, _] = _
    rw [h₀, h₁]
  | case4 a b c rest ih =>
    have ha := a.toNat_lt
    have hb := b.toNat_lt
    have hc := c.toNat_lt
    have h₀ : UInt8.ofNat (a.toNat / 4 * 4 + (a.toNat % 4 * 16 + b.toNat / 16) / 16) = a :=
      ofNat_eq (by omega)
    have h₁ : UInt8.ofNat ((a.toNat % 4 * 16 + b.toNat / 16) * 16 +
        (b.toNat % 16 * 4 + c.toNat / 64) / 4) = b := ofNat_eq (by omega)
    have h₂ : UInt8.ofNat ((b.toNat % 16 * 4 + c.toNat / 64) * 64 + c.toNat % 64) = c :=
      ofNat_eq (by omega)
    rw [encode, decodeGroups, if_neg (digit_ne_pad (by omega)), value?_digit (by omega),
      value?_digit (by omega), value?_digit (by omega), value?_digit (by omega), ih]
    show some (_ :: _ :: _ :: _) = _
    rw [h₀, h₁, h₂]

/-- What is encoded is decoded. -/
theorem decode_encode (bytes : Bytes) : decode (encode bytes) = some bytes := by
  have hall : ∀ c ∈ encode bytes, decide (c ≠ 10 ∧ c ≠ 13) = true := by
    intro c hc
    rcases mem_encode hc with rfl | ⟨n, hn, rfl⟩
    · decide
    · obtain ⟨-, -, h₁, h₂, -⟩ := digit_spec n hn
      exact decide_eq_true ⟨h₁, h₂⟩
  rw [decode, List.filter_eq_self.mpr hall, decodeGroups_encode]

/-- A text of ASCII is valid. -/
theorem validUtf8_encode (bytes : Bytes) : ValidUtf8 (encode bytes) := by
  refine validUtf8_of_ascii fun c hc => ?_
  rcases mem_encode hc with rfl | ⟨n, hn, rfl⟩
  · decide
  · exact (digit_spec n hn).2.2.2.2

example : encode (utf8 "foob") = utf8 "Zm9vYg==" := by decide +kernel

end Mpubsub.Lib.Base64
