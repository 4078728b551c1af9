import Mpubsub.Bridge.Proto

/-!
# Varints of the bridge

`readVarint` stops behind ten bytes, which have room for 70 bits. The last of them has one bit
that is left of 64, and the loop shifts the others out.
-/

namespace Mpubsub.Theorems

open Mpubsub.Lib Mpubsub.Lib.Protobuf Mpubsub.Bridge

/-- What is reported for some bytes is the number of the varint that they start with. -/
structure VarintReported (data : Bytes) : Prop where
  value : ∀ val n, readVarint data = some (val, n) → ∃ v rest, data = v ++ rest ∧ IsVarint v ∧
    v.length ≤ 10 ∧ groupsValue v < 2 ^ 64 ∧ val.toNat = groupsValue v ∧ n = v.length
  large : ∀ v rest, data = v ++ rest → IsVarint v → 2 ^ 64 ≤ groupsValue v → readVarint data = none
  overlong : ∀ v rest, data = v ++ rest → IsVarint v → 10 < v.length → readVarint data = none
  truncated : (∀ b ∈ data, 0x80 ≤ b) → readVarint data = none

/-- Nine bytes with the continuation bit, and a last one with more than the lowest bit. -/
def StartsWide (data : Bytes) : Prop :=
  ∃ nine b rest, data = nine ++ b :: rest ∧ nine.length = 9 ∧ (∀ c ∈ nine, 0x80 ≤ c) ∧
    0x02 ≤ b ∧ b < 0x80

variable {data : Bytes}

/-- The loop takes a varint of ten bytes at most, and 64 bits of its number. -/
theorem readVarint_eq_some_iff {val : UInt64} {n : Nat} :
    readVarint data = some (val, n) ↔ ∃ v rest, data = v ++ rest ∧ IsVarint v ∧ v.length ≤ 10 ∧
      UInt64.ofNat (groupsValue v) = val ∧ v.length = n := by
  rw [readVarint_eq, Option.map_eq_some_iff]
  constructor
  · rintro ⟨⟨m, k⟩, hparse, heq⟩
    cases heq
    obtain ⟨v, rest, hdata, hv, hlen, rfl, rfl⟩ := parseVarint_eq_some_iff.mp hparse
    exact ⟨v, rest, hdata, hv, hlen, rfl, rfl⟩
  · rintro ⟨v, rest, hdata, hv, hlen, rfl, rfl⟩
    exact ⟨(groupsValue v, v.length),
      parseVarint_eq_some_iff.mpr ⟨v, rest, hdata, hv, hlen, rfl, rfl⟩, rfl⟩

/-- Ten bytes have more than 64 bits where the last of them has more than one. -/
theorem startsWide_iff :
    StartsWide data ↔ ∃ v rest, data = v ++ rest ∧ IsVarint v ∧ v.length ≤ 10 ∧
      2 ^ 64 ≤ groupsValue v := by
  have hsum (front : Bytes) (b : UInt8) (h : b.toNat < 128) :
      groupsValue (front ++ [b]) = groupsValue front + 128 ^ front.length * b.toNat := by
    rw [groupsValue_append, groupsValue_cons, Nat.mod_eq_of_lt h]
    rfl
  constructor
  · rintro ⟨nine, b, rest, rfl, hnine, hmore, hwide, hlast⟩
    have hlast : b.toNat < 128 := UInt8.lt_iff_toNat_lt.mp hlast
    have hwide : 2 ≤ b.toNat := UInt8.le_iff_toNat_le.mp hwide
    refine ⟨nine ++ [b], rest, by simp, ?_, by simp [hnine], ?_⟩
    · exact isVarint_concat (fun c hc => UInt8.le_iff_toNat_le.mp (hmore c hc)) hlast
    · rw [hsum nine b hlast, hnine]
      omega
  · rintro ⟨v, rest, rfl, hv, hlen, hlarge⟩
    obtain ⟨front, b, rfl, hmore, hlast⟩ := hv.concat
    rw [List.length_append, List.length_singleton] at hlen
    have hfront := groupsValue_lt front
    -- Eight groups in front have 56 bits, and the last one has 7.
    have hnine : front.length = 9 := by
      by_contra hne
      have hpow : 128 ^ front.length * 128 ≤ 128 ^ 9 := by
        rw [← Nat.pow_succ]
        exact Nat.pow_le_pow_right (by decide) (by omega)
      have hdigit : 128 ^ front.length * b.toNat ≤ 128 ^ front.length * 127 :=
        Nat.mul_le_mul_left _ (by omega)
      rw [hsum front b hlast] at hlarge
      omega
    refine ⟨front, b, rest, by simp, hnine, fun c hc => ?_, ?_, ?_⟩
    · exact UInt8.le_iff_toNat_le.mpr (hmore c hc)
    · rw [hsum front b hlast, hnine] at hlarge
      rw [hnine] at hfront
      refine UInt8.le_iff_toNat_le.mpr ?_
      show 2 ≤ b.toNat
      omega
    · exact UInt8.lt_iff_toNat_lt.mpr hlast

theorem length_of_readVarint {v rest : Bytes} {p : UInt64 × Nat} (h : readVarint (v ++ rest) = some p)
    (hv : IsVarint v) : v.length ≤ 10 := by
  obtain ⟨w, rest', hdata, hw, hlen, -⟩ := readVarint_eq_some_iff.mp h
  rwa [hv.eq_of_append_eq hw hdata]

/-- Ten bytes whose last one has the second bit set: the number is `2 ^ 64`, and 0 is reported. -/
theorem wide_varint_reported :
    readVarint (List.replicate 9 0x80 ++ [0x02]) = some (0, 10) ∧
      IsVarint (List.replicate 9 0x80 ++ [0x02]) ∧
      groupsValue (List.replicate 9 0x80 ++ [0x02]) = 2 ^ 64 ∧
      ¬VarintReported (List.replicate 9 0x80 ++ [0x02]) := by
  have hread : readVarint (List.replicate 9 0x80 ++ [0x02]) = some (0, 10) := by decide
  have hv : IsVarint (List.replicate 9 0x80 ++ [0x02]) := by
    refine isVarint_concat (fun c hc => ?_) (by decide)
    rw [List.eq_of_mem_replicate hc]
    decide
  have hvalue : groupsValue (List.replicate 9 0x80 ++ [0x02]) = 2 ^ 64 := by decide
  refine ⟨hread, hv, hvalue, fun h => ?_⟩
  have hnone := h.large _ [] (List.append_nil _).symm hv (Nat.le_of_eq hvalue.symm)
  cases hread.symm.trans hnone

/-- **`readVarint` reports the number of a varint, or none, if and only if** the bytes do not start
with nine that have the continuation bit and a tenth from `0x02` to `0x7F`. -/
theorem varint_reported_iff (data : Bytes) : VarintReported data ↔ ¬StartsWide data := by
  constructor
  · intro h hwide
    obtain ⟨v, rest, hdata, hv, hlen, hlarge⟩ := startsWide_iff.mp hwide
    have hread := readVarint_eq_some_iff.mpr ⟨v, rest, hdata, hv, hlen, rfl, rfl⟩
    cases hread.symm.trans (h.large v rest hdata hv hlarge)
  · intro hnot
    have hfits (v rest : Bytes) (hdata : data = v ++ rest) (hv : IsVarint v) (hlen : v.length ≤ 10) :
        groupsValue v < 2 ^ 64 := by
      by_contra hlarge
      exact hnot (startsWide_iff.mpr ⟨v, rest, hdata, hv, hlen, Nat.not_lt.mp hlarge⟩)
    refine ⟨fun val n h => ?_, fun v rest hdata hv hlarge => ?_, fun v rest hdata hv hlong => ?_,
      fun hmore => ?_⟩
    · obtain ⟨v, rest, hdata, hv, hlen, rfl, rfl⟩ := readVarint_eq_some_iff.mp h
      have hvalue := hfits v rest hdata hv hlen
      refine ⟨v, rest, hdata, hv, hlen, hvalue, ?_, rfl⟩
      rw [UInt64.toNat_ofNat', Nat.mod_eq_of_lt hvalue]
    · rw [Option.eq_none_iff_forall_ne_some]
      intro p hread
      have hlen := length_of_readVarint (hdata ▸ hread) hv
      exact absurd (hfits v rest hdata hv hlen) (Nat.not_lt.mpr hlarge)
    · rw [Option.eq_none_iff_forall_ne_some]
      intro p hread
      exact absurd (length_of_readVarint (hdata ▸ hread) hv) (Nat.not_le.mpr hlong)
    · rw [Option.eq_none_iff_forall_ne_some]
      intro p hread
      obtain ⟨v, rest, rfl, hv, -⟩ := readVarint_eq_some_iff.mp hread
      obtain ⟨front, b, rfl, -, hlast⟩ := hv.concat
      have hb : 0x80 ≤ b := hmore b (by simp)
      exact absurd (UInt8.le_iff_toNat_le.mp hb) (Nat.not_le.mpr hlast)

end Mpubsub.Theorems
