import Mpubsub.Lib.Bytes
import Mathlib.Algebra.BigOperators.Ring.List
import Mathlib.Data.Nat.Log
import Mathlib.Tactic.Ring

/-!
# The protobuf encoding

Numbers as varints (base-128 groups, least significant first, a continuation bit
on all but the last) and records: a key that packs the field number with the
wire type, then the value. Every encoding has its size as an arithmetic function
of what is encoded (`length_varint`, `length_record`). A varint is taken apart group by
group (`varint_of_le`, `varint_induction`); what is parsed is a varint, of any number of bytes,
with the sum of its groups (`parseVarint_eq_some_iff`); and zigzag has its inverse
(`unzigzag32_zigzag32`, `unzigzag64_zigzag64`).
-/

namespace Mpubsub.Lib.Protobuf

/-- The groups of `n`, where `k + 1` of them are enough. -/
def varintGroups : Nat → Nat → Bytes
  | 0, n => [UInt8.ofNat n]
  | k + 1, n =>
    if n < 128 then [UInt8.ofNat n]
    else UInt8.ofNat (n % 128 + 128) :: varintGroups k (n / 128)

def varint (n : Nat) : Bytes := varintGroups n.log2 n

/-- The number of base-128 digits. -/
def varintSize (n : Nat) : Nat := Nat.log 128 n + 1

theorem length_varintGroups {k n : Nat} (h : n < 128 ^ (k + 1)) :
    (varintGroups k n).length = varintSize n := by
  induction k generalizing n with
  | zero =>
    rw [varintGroups, varintSize, Nat.log_of_lt (by simpa using h)]
    rfl
  | succ k ih =>
    unfold varintGroups
    split
    · rename_i hsmall
      rw [varintSize, Nat.log_of_lt hsmall]
      rfl
    · rename_i hlarge
      have hdiv : n / 128 < 128 ^ (k + 1) := by
        rw [Nat.div_lt_iff_lt_mul (by decide), ← Nat.pow_succ]
        exact h
      rw [List.length_cons, ih hdiv, varintSize, varintSize,
        Nat.log_of_one_lt_of_le (by decide) (Nat.not_lt.mp hlarge)]

theorem lt_pow_log2 (n : Nat) : n < 128 ^ (n.log2 + 1) :=
  calc n < 2 ^ (n.log2 + 1) := Nat.lt_log2_self
    _ ≤ 128 ^ (n.log2 + 1) := Nat.pow_le_pow_left (by decide) _

@[simp] theorem length_varint (n : Nat) : (varint n).length = varintSize n :=
  length_varintGroups (lt_pow_log2 n)

/-- More groups than are needed change nothing. -/
theorem varintGroups_congr {k k' n : Nat} (h : n < 128 ^ (k + 1)) (h' : n < 128 ^ (k' + 1)) :
    varintGroups k n = varintGroups k' n := by
  induction k generalizing k' n with
  | zero =>
    have hsmall : n < 128 := by simpa using h
    cases k' with
    | zero => rfl
    | succ k' => rw [varintGroups, varintGroups, if_pos hsmall]
  | succ k ih =>
    have hdiv {j : Nat} (hj : n < 128 ^ (j + 1 + 1)) : n / 128 < 128 ^ (j + 1) := by
      rw [Nat.div_lt_iff_lt_mul (by decide), ← Nat.pow_succ]
      exact hj
    cases k' with
    | zero => rw [varintGroups, varintGroups, if_pos (by simpa using h')]
    | succ k' => rw [varintGroups, varintGroups, ih (hdiv h) (hdiv h')]

theorem varintGroups_eq {k n : Nat} (h : n < 128 ^ (k + 1)) : varintGroups k n = varint n :=
  varintGroups_congr h (lt_pow_log2 n)

theorem varint_of_lt {n : Nat} (h : n < 128) : varint n = [UInt8.ofNat n] := by
  rw [← varintGroups_eq (k := 0) (by simpa using h), varintGroups]

theorem varint_of_le {n : Nat} (h : 128 ≤ n) :
    varint n = UInt8.ofNat (n % 128 + 128) :: varint (n / 128) := by
  have hfuel : n < 128 ^ (n + 1) :=
    Nat.lt_trans (Nat.lt_pow_self (by decide)) (Nat.pow_lt_pow_right (by decide) (by omega))
  obtain ⟨k, rfl⟩ := Nat.exists_eq_add_of_le' (Nat.le_trans (by decide : 1 ≤ 128) h)
  rw [← varintGroups_eq hfuel, varintGroups, if_neg (Nat.not_lt.mpr h), varintGroups_eq]
  rw [Nat.div_lt_iff_lt_mul (by decide), ← Nat.pow_succ]
  exact hfuel

/-- Along the groups of a varint. -/
theorem varint_induction {P : Nat → Prop} (last : ∀ n, n < 128 → P n)
    (more : ∀ n, 128 ≤ n → P (n / 128) → P n) (n : Nat) : P n := by
  induction n using Nat.strongRecOn with
  | ind n ih =>
    rcases Nat.lt_or_ge n 128 with hlt | hle
    · exact last n hlt
    · exact more n hle (ih _ (Nat.div_lt_self (by omega) (by decide)))

theorem varintSize_of_lt {n : Nat} (h : n < 128) : varintSize n = 1 := by
  rw [varintSize, Nat.log_of_lt h]

theorem varintSize_of_le {n : Nat} (h : 128 ≤ n) : varintSize n = varintSize (n / 128) + 1 := by
  rw [varintSize, varintSize, Nat.log_of_one_lt_of_le (by decide) h]

theorem varintSize_le {n k : Nat} (h : n < 128 ^ (k + 1)) : varintSize n ≤ k + 1 := by
  have hlog : Nat.log 128 n < k + 1 := Nat.log_lt_of_lt_pow' (Nat.succ_ne_zero k) h
  exact hlog

/-! ## Records -/

/-- A value on the wire. -/
inductive WireValue where
  | varint (v : UInt64)
  | len (payload : Bytes)
  | fixed32 (bits : UInt32)
deriving DecidableEq

namespace WireValue

def wireType : WireValue → Nat
  | varint _ => 0
  | len _ => 2
  | fixed32 _ => 5

theorem wireType_lt (w : WireValue) : w.wireType < 8 := by
  cases w <;> simp [wireType]

def encode : WireValue → Bytes
  | varint v => Protobuf.varint v.toNat
  | len payload => Protobuf.varint payload.length ++ payload
  | fixed32 bits => storeU32le bits

def size : WireValue → Nat
  | varint v => varintSize v.toNat
  | len payload => varintSize payload.length + payload.length
  | fixed32 _ => 4

@[simp] theorem length_encode (w : WireValue) : w.encode.length = w.size := by
  cases w with
  | varint v => exact length_varint _
  | len payload => rw [encode, List.length_append, length_varint, size]
  | fixed32 bits => rfl

end WireValue

/-- The key of a record: field number and wire type. -/
def key (tag : UInt32) (wireType : Nat) : Nat := tag.toNat * 8 + wireType

/-- The key of a value is a 64-bit number, from which shift and mask take tag and wire type. -/
theorem exists_key (tag : UInt32) (w : WireValue) :
    ∃ k : UInt64, k.toNat = key tag w.wireType ∧ (k >>> 3).toUInt32 = tag ∧
      (k &&& 7).toNat = w.wireType := by
  have htag : tag.toNat < 2 ^ 32 := tag.toNat_lt
  have hwt := w.wireType_lt
  have hkey : (UInt64.ofNat (key tag w.wireType)).toNat = key tag w.wireType := by
    rw [UInt64.toNat_ofNat', Nat.mod_eq_of_lt (by rw [key]; omega)]
  refine ⟨UInt64.ofNat (key tag w.wireType), hkey, ?_, ?_⟩
  · apply UInt32.toNat_inj.mp
    rw [UInt64.toNat_toUInt32, UInt64.toNat_shiftRight, hkey,
      show (3 : UInt64).toNat % 64 = 3 from rfl, Nat.shiftRight_eq_div_pow, key]
    omega
  · rw [UInt64.toNat_and, hkey, show (7 : UInt64).toNat = 2 ^ 3 - 1 from rfl,
      Nat.and_two_pow_sub_one_eq_mod, key]
    omega

/-- A field of a message on the wire. -/
def record (tag : UInt32) (w : WireValue) : Bytes := varint (key tag w.wireType) ++ w.encode

def recordSize (tag : UInt32) (w : WireValue) : Nat :=
  varintSize (key tag w.wireType) + w.size

@[simp] theorem length_record (tag : UInt32) (w : WireValue) :
    (record tag w).length = recordSize tag w := by
  rw [record, List.length_append, length_varint, WireValue.length_encode, recordSize]

/-! ## Reading -/

/-- The varint at the start of some bytes, of at most `k` groups: the number and the number of
bytes. -/
def parseVarint : Nat → Bytes → Option (Nat × Nat)
  | 0, _ => none
  | _, [] => none
  | k + 1, b :: data =>
    if b.toNat < 128 then some (b.toNat, 1)
    else (parseVarint k data).map fun p => (b.toNat - 128 + 128 * p.1, p.2 + 1)

theorem parseVarint_varint {k n : Nat} (h : n < 128 ^ (k + 1)) (rest : Bytes) :
    parseVarint (k + 1) (varint n ++ rest) = some (n, varintSize n) := by
  induction n using varint_induction generalizing k with
  | last n hlt =>
    have hbyte : (UInt8.ofNat n).toNat = n := by
      rw [UInt8.toNat_ofNat', Nat.mod_eq_of_lt (by omega)]
    rw [varint_of_lt hlt, varintSize_of_lt hlt, List.singleton_append, parseVarint, hbyte,
      if_pos hlt]
  | more n hle ih =>
    have hbyte : (UInt8.ofNat (n % 128 + 128)).toNat = n % 128 + 128 := by
      rw [UInt8.toNat_ofNat', Nat.mod_eq_of_lt (by omega)]
    cases k with
    | zero => exact absurd h (Nat.not_lt.mpr (by simpa using hle))
    | succ k =>
      rw [varint_of_le hle, varintSize_of_le hle, List.cons_append, parseVarint, hbyte,
        if_neg (by omega), ih (Nat.div_lt_of_lt_mul (by rwa [Nat.pow_succ'] at h)),
        Option.map_some, Nat.add_sub_cancel, Nat.mod_add_div]

theorem parseVarint_bounds {k v n : Nat} {data : Bytes} (h : parseVarint k data = some (v, n)) :
    0 < n ∧ n ≤ data.length := by
  induction k generalizing data v n with
  | zero => cases h
  | succ k ih =>
    cases data with
    | nil => cases h
    | cons b data =>
      unfold parseVarint at h
      split at h
      · cases h
        exact ⟨Nat.one_pos, Nat.succ_le_succ (Nat.zero_le _)⟩
      · obtain ⟨p, hp, heq⟩ := Option.map_eq_some_iff.mp h
        cases heq
        have := ih hp
        rw [List.length_cons]
        omega

/-- What comes behind does not matter. -/
theorem parseVarint_append {k : Nat} {data : Bytes} {p : Nat × Nat}
    (h : parseVarint k data = some p) (rest : Bytes) : parseVarint k (data ++ rest) = some p := by
  induction k generalizing data p with
  | zero => cases h
  | succ k ih =>
    cases data with
    | nil => cases h
    | cons b data =>
      unfold parseVarint at h
      rw [List.cons_append, parseVarint]
      split at h
      · rename_i hlast
        rw [if_pos hlast, h]
      · rename_i hmore
        obtain ⟨q, hq, rfl⟩ := Option.map_eq_some_iff.mp h
        rw [if_neg hmore, ih hq, Option.map_some]

/-- A varint, of any number of bytes. -/
inductive IsVarint : Bytes → Prop
  | last (b : UInt8) (h : b.toNat < 128) : IsVarint [b]
  | more (b : UInt8) {v : Bytes} (h : 128 ≤ b.toNat) (hv : IsVarint v) : IsVarint (b :: v)

/-- The number of a varint: the sum of its 7-bit groups, each at its place. -/
def groupsValue (v : Bytes) : Nat := (v.mapIdx fun i b => b.toNat % 128 * 2 ^ (7 * i)).sum

theorem groupsValue_cons (b : UInt8) (v : Bytes) :
    groupsValue (b :: v) = b.toNat % 128 + 128 * groupsValue v := by
  have htail : (v.mapIdx fun i c => c.toNat % 128 * 2 ^ (7 * (i + 1))) =
      (v.mapIdx fun i c => c.toNat % 128 * 2 ^ (7 * i)).map (128 * ·) := by
    apply List.ext_getElem?
    intro i
    simp only [List.getElem?_map, List.getElem?_mapIdx, Option.map_map]
    congr 1
    funext c
    simp only [Function.comp]
    ring
  rw [groupsValue, List.mapIdx_cons, List.sum_cons, htail, List.sum_map_mul_left, List.map_id',
    Nat.mul_zero, Nat.pow_zero, Nat.mul_one, groupsValue]

theorem groupsValue_append (v w : Bytes) :
    groupsValue (v ++ w) = groupsValue v + 128 ^ v.length * groupsValue w := by
  induction v with
  | nil => simp [groupsValue]
  | cons b v ih =>
    rw [List.cons_append, groupsValue_cons, ih, groupsValue_cons, List.length_cons]
    ring

theorem groupsValue_lt (v : Bytes) : groupsValue v < 128 ^ v.length := by
  induction v with
  | nil => simp [groupsValue]
  | cons b v ih =>
    rw [groupsValue_cons, List.length_cons, Nat.pow_succ]
    omega

/-- All bytes but the last of a varint have the continuation bit. -/
theorem IsVarint.concat {v : Bytes} (h : IsVarint v) :
    ∃ front b, v = front ++ [b] ∧ (∀ c ∈ front, 128 ≤ c.toNat) ∧ b.toNat < 128 := by
  induction h with
  | last b h => exact ⟨[], b, rfl, by simp, h⟩
  | more b h hv ih =>
    obtain ⟨front, c, rfl, hfront, hc⟩ := ih
    exact ⟨b :: front, c, rfl, List.forall_mem_cons.mpr ⟨h, hfront⟩, hc⟩

theorem isVarint_concat {front : Bytes} {b : UInt8} (hfront : ∀ c ∈ front, 128 ≤ c.toNat)
    (hb : b.toNat < 128) : IsVarint (front ++ [b]) := by
  induction front with
  | nil => exact .last b hb
  | cons c front ih =>
    rw [List.forall_mem_cons] at hfront
    exact .more c hfront.1 (ih hfront.2)

/-- What is parsed is a varint at the start, its number and its length. -/
theorem parseVarint_eq_some_iff {k m n : Nat} {data : Bytes} :
    parseVarint k data = some (m, n) ↔ ∃ v rest, data = v ++ rest ∧ IsVarint v ∧ v.length ≤ k ∧
      groupsValue v = m ∧ v.length = n := by
  constructor
  · intro h
    induction k generalizing data m n with
    | zero => cases h
    | succ k ih =>
      cases data with
      | nil => cases h
      | cons b data =>
        unfold parseVarint at h
        split at h
        · rename_i hlast
          cases h
          refine ⟨[b], data, rfl, .last b hlast, Nat.le_add_left 1 k, ?_, rfl⟩
          rw [groupsValue_cons, Nat.mod_eq_of_lt hlast]
          rfl
        · rename_i hmore
          obtain ⟨p, hp, heq⟩ := Option.map_eq_some_iff.mp h
          cases heq
          obtain ⟨v, rest, rfl, hv, hlen, hvalue, hn⟩ := ih hp
          refine ⟨b :: v, rest, rfl, .more b (Nat.not_lt.mp hmore) hv, ?_, ?_, ?_⟩
          · exact Nat.succ_le_succ hlen
          · have hb : b.toNat < 256 := b.toNat_lt
            rw [groupsValue_cons, hvalue]
            omega
          · rw [List.length_cons, hn]
  · rintro ⟨v, rest, rfl, hv, hlen, rfl, rfl⟩
    induction hv generalizing k with
    | last b h =>
      obtain ⟨k, rfl⟩ := Nat.exists_eq_add_of_le' hlen
      rw [List.singleton_append, List.length_singleton, parseVarint, if_pos h, groupsValue_cons,
        Nat.mod_eq_of_lt h]
      rfl
    | @more b v h hv ih =>
      obtain ⟨k, rfl⟩ := Nat.exists_eq_add_of_le' (Nat.le_trans (Nat.le_add_left 1 _) hlen)
      have hb : b.toNat < 256 := b.toNat_lt
      rw [List.cons_append, parseVarint, if_neg (Nat.not_lt.mpr h),
        ih (Nat.le_of_succ_le_succ hlen), Option.map_some, groupsValue_cons, List.length_cons,
        show b.toNat % 128 = b.toNat - 128 by omega]

/-- Bytes start with one varint at most. -/
theorem IsVarint.eq_of_append_eq {v w rest rest' : Bytes} (hv : IsVarint v) (hw : IsVarint w)
    (h : v ++ rest = w ++ rest') : v = w := by
  have hparse := parseVarint_eq_some_iff.mpr
    ⟨v, rest, rfl, hv, Nat.le_max_left v.length w.length, rfl, rfl⟩
  have hparse' := parseVarint_eq_some_iff.mpr
    ⟨w, rest', h, hw, Nat.le_max_right v.length w.length, rfl, rfl⟩
  have hlen : v.length = w.length :=
    congrArg Prod.snd (Option.some.inj (hparse.symm.trans hparse'))
  exact (List.append_inj h hlen).1

/-- A value that has an encoding of its own: the length of a payload is a varint. -/
def WireValue.Fits : WireValue → Prop
  | len payload => payload.length < 2 ^ 64
  | _ => True

/-- The value of a wire type at the start of some bytes, and the number of bytes. -/
def parseValue (wireType : Nat) (data : Bytes) : Option (WireValue × Nat) :=
  match wireType with
  | 0 => (parseVarint 10 data).map fun p => (.varint (UInt64.ofNat p.1), p.2)
  | 2 => (parseVarint 10 data).bind fun p =>
    if p.2 + p.1 ≤ data.length then some (.len ((data.drop p.2).take p.1), p.2 + p.1) else none
  | 5 => if 4 ≤ data.length then some (.fixed32 (loadU32leAt data 0), 4) else none
  | _ => none

theorem parseValue_encode {w : WireValue} (h : w.Fits) (rest : Bytes) :
    parseValue w.wireType (w.encode ++ rest) = some (w, w.size) := by
  have hten {n : Nat} (hn : n < 2 ^ 64) : n < 128 ^ 10 := Nat.lt_trans hn (by decide)
  cases w with
  | varint v =>
    show (parseVarint 10 (Protobuf.varint v.toNat ++ rest)).map _ = _
    rw [parseVarint_varint (hten v.toNat_lt), Option.map_some, UInt64.ofNat_toNat]
    rfl
  | len payload =>
    show (parseVarint 10 ((Protobuf.varint payload.length ++ payload) ++ rest)).bind _ = _
    have hdrop : (Protobuf.varint payload.length ++ (payload ++ rest)).drop
        (varintSize payload.length) = payload ++ rest := List.drop_left' (length_varint _)
    have hroom : varintSize payload.length + payload.length ≤
        (Protobuf.varint payload.length ++ (payload ++ rest)).length := by
      rw [List.length_append, List.length_append, length_varint]
      omega
    rw [List.append_assoc, parseVarint_varint (hten h), Option.bind_some]
    simp only [WireValue.encode, List.append_assoc, hdrop, List.take_left, if_pos hroom]
    rfl
  | fixed32 bits =>
    have hload := loadU32leAt_storeU32le_append bits rest
    have hroom : 4 ≤ (storeU32le bits ++ rest).length := by
      rw [List.length_append, length_storeU32le]
      omega
    show (if 4 ≤ (storeU32le bits ++ rest).length then
      some (WireValue.fixed32 (loadU32leAt (storeU32le bits ++ rest) 0), 4) else none) = _
    rw [if_pos hroom, hload]
    rfl

/-- The record at the start of some bytes, and the number of bytes. -/
def parseRecord (data : Bytes) : Option ((UInt32 × WireValue) × Nat) := do
  let (key, n) ← parseVarint 10 data
  let (w, size) ← parseValue (key % 8) (data.drop n)
  return ((UInt32.ofNat (key / 8), w), n + size)

theorem parseRecord_record (tag : UInt32) {w : WireValue} (h : w.Fits) (rest : Bytes) :
    parseRecord (record tag w ++ rest) = some ((tag, w), (record tag w).length) := by
  have htag : tag.toNat < 2 ^ 32 := tag.toNat_lt
  have hwt := w.wireType_lt
  have hkey : key tag w.wireType < 128 ^ 10 := by
    rw [key]
    omega
  have hmod : key tag w.wireType % 8 = w.wireType := by
    rw [key]
    omega
  have hdiv : key tag w.wireType / 8 = tag.toNat := by
    rw [key]
    omega
  have hdrop : (varint (key tag w.wireType) ++ (w.encode ++ rest)).drop
      (varintSize (key tag w.wireType)) = w.encode ++ rest := List.drop_left' (length_varint _)
  have hfirst := parseVarint_varint (k := 9) hkey (w.encode ++ rest)
  rw [length_record, record, List.append_assoc]
  unfold parseRecord
  rw [hfirst]
  simp only [Option.bind_eq_bind, Option.bind_some, hdrop, hmod, hdiv, parseValue_encode h,
    UInt32.ofNat_toNat]
  rfl

theorem record_ne_nil (tag : UInt32) (w : WireValue) : record tag w ≠ [] := by
  rw [← List.length_pos_iff, length_record, recordSize, varintSize]
  omega

/-- The records of a message, where they are at most `k`. -/
def parseRecords : Nat → Bytes → Option (List (UInt32 × WireValue))
  | 0, data => if data = [] then some [] else none
  | k + 1, data =>
    if data = [] then some []
    else (parseRecord data).bind fun p =>
      (parseRecords k (data.drop p.2)).map fun records => p.1 :: records

theorem parseRecords_records {records : List (UInt32 × WireValue)} (h : ∀ r ∈ records, r.2.Fits)
    {k : Nat} (hk : records.length ≤ k) :
    parseRecords k (records.flatMap fun r => record r.1 r.2) = some records := by
  induction records generalizing k with
  | nil =>
    rw [List.flatMap_nil]
    cases k <;> rfl
  | cons r records ih =>
    rw [List.forall_mem_cons] at h
    obtain ⟨k, rfl⟩ := Nat.exists_eq_add_of_le' (Nat.le_trans (Nat.succ_pos _) hk)
    have hne : record r.1 r.2 ++ records.flatMap (fun r => record r.1 r.2) ≠ [] :=
      List.append_ne_nil_of_left_ne_nil (record_ne_nil _ _) _
    rw [List.flatMap_cons, parseRecords, if_neg hne, parseRecord_record r.1 h.1,
      Option.bind_some, List.drop_left, ih h.2 (Nat.le_of_succ_le_succ hk)]
    rfl

/-! ## Signed values -/

/-- Zigzag: the sign goes to the lowest bit. -/
def zigzag32 (v : Int32) : UInt32 := ((v <<< 1) ^^^ (v >>> 31)).toUInt32

def zigzag64 (v : Int64) : UInt64 := ((v <<< 1) ^^^ (v >>> 63)).toUInt64

/-- What an `int32` is as a varint has the number in its lower half. -/
theorem toInt32_toUInt64 (n : Int32) : n.toInt64.toUInt64.toUInt32.toInt32 = n := by
  apply Int32.toBitVec_inj.mp
  apply BitVec.eq_of_getElem_eq
  intro i hi
  have hwide : i < 64 := by omega
  have hbit := BitVec.getElem_signExtend (x := n.toBitVec) hwide
  rw [dif_pos hi] at hbit
  simpa [BitVec.getLsbD_eq_getElem hwide] using hbit

def unzigzag32 (v : UInt32) : Int32 := ((v >>> 1) ^^^ -(v &&& 1)).toInt32

def unzigzag64 (v : UInt64) : Int64 := ((v >>> 1) ^^^ -(v &&& 1)).toInt64

theorem sshiftRight_sign {w : Nat} (x : BitVec (w + 1)) :
    x.sshiftRight w = if x.msb then BitVec.allOnes (w + 1) else 0 := by
  apply BitVec.eq_of_getElem_eq
  intro i hi
  rw [BitVec.getElem_sshiftRight]
  split
  · rename_i h
    have hlast : w + i = w := by omega
    cases hm : x.msb <;> simp_all [BitVec.msb_eq_getLsbD_last]
  · cases x.msb <;> simp

theorem neg_and_one {w : Nat} (x : BitVec (w + 1)) :
    -(x &&& 1) = if x.getLsbD 0 then BitVec.allOnes (w + 1) else 0 := by
  have h : x &&& 1 = if x.getLsbD 0 then 1 else 0 := by
    apply BitVec.eq_of_getElem_eq
    intro i hi
    cases i <;> cases h0 : x.getLsbD 0 <;> simp_all
  rw [h]
  cases x.getLsbD 0
  · simp
  · simp [BitVec.neg_one_eq_allOnes]

theorem unzigzag_zigzag {w : Nat} (x : BitVec (w + 1)) :
    (((x <<< 1) ^^^ x.sshiftRight w) >>> 1) ^^^ -(((x <<< 1) ^^^ x.sshiftRight w) &&& 1) = x := by
  rw [neg_and_one, sshiftRight_sign]
  apply BitVec.eq_of_getElem_eq
  intro i hi
  -- Only the sign bit is not among the bits that were moved up.
  have hlast (h : ¬1 + i < w + 1) : x.msb = x[i] := by
    have hiw : i = w := by omega
    subst hiw
    rw [BitVec.msb_eq_getLsbD_last, BitVec.getLsbD_eq_getElem (by omega)]
    simp
  by_cases h : 1 + i < w + 1
  · cases hm : x.msb <;> simp [h]
  · cases hm : x.msb <;> simp [h, ← hlast h, hm]

@[simp] theorem unzigzag32_zigzag32 (v : Int32) : unzigzag32 (zigzag32 v) = v := by
  apply Int32.toBitVec_inj.mp
  have h := unzigzag_zigzag v.toBitVec
  simpa [unzigzag32, zigzag32] using h

@[simp] theorem unzigzag64_zigzag64 (v : Int64) : unzigzag64 (zigzag64 v) = v := by
  apply Int64.toBitVec_inj.mp
  have h := unzigzag_zigzag v.toBitVec
  simpa [unzigzag64, zigzag64] using h

example : [0, -1, 1, -2, 2].map zigzag32 = [0, 1, 2, 3, 4] := by decide

example : varint 300 = [0xAC, 0x02] ∧ record 1 (.varint 150) = [0x08, 0x96, 0x01] := by decide

end Mpubsub.Lib.Protobuf
