import Mpubsub.Lib.Rfc8439

/-!
# The pure-Python AEAD (`wire.py`)

ChaCha20-Poly1305 over unbounded integers: every sum is cut to 32 bits with a
mask, the accumulator is one big integer, and the message is walked in slices.
Word by word it is the AEAD of RFC 8439 (`aeadEncryptPy_eq`,
`aeadDecryptPy_eq`). Keys have 32 bytes and nonces 12, as `struct.unpack`
demands.
-/

namespace Mpubsub.Reference

open Mpubsub.Lib

/-! ## ChaCha20 -/

/-- `_rotl32`. -/
def rotl32 (x n : Nat) : Nat := ((x <<< n) ||| (x >>> (32 - n))) &&& 0xFFFFFFFF

/-- `_chacha_qr`. -/
def chachaQr (s : Vector Nat 16) (a b c d : Fin 16) : Vector Nat 16 :=
  let s := setWord s a ((s.get a + s.get b) &&& 0xFFFFFFFF)
  let s := setWord s d (rotl32 (s.get d ^^^ s.get a) 16)
  let s := setWord s c ((s.get c + s.get d) &&& 0xFFFFFFFF)
  let s := setWord s b (rotl32 (s.get b ^^^ s.get c) 12)
  let s := setWord s a ((s.get a + s.get b) &&& 0xFFFFFFFF)
  let s := setWord s d (rotl32 (s.get d ^^^ s.get a) 8)
  let s := setWord s c ((s.get c + s.get d) &&& 0xFFFFFFFF)
  setWord s b (rotl32 (s.get b ^^^ s.get c) 7)

/-- The body of the loop in `_chacha_block`. -/
def chachaRounds (w : Vector Nat 16) : Vector Nat 16 :=
  let w := chachaQr w 0 4 8 12
  let w := chachaQr w 1 5 9 13
  let w := chachaQr w 2 6 10 14
  let w := chachaQr w 3 7 11 15
  let w := chachaQr w 0 5 10 15
  let w := chachaQr w 1 6 11 12
  let w := chachaQr w 2 7 8 13
  chachaQr w 3 4 9 14

/-- Element `i` of `struct.unpack("<…I", data)`. -/
def unpackI (data : Bytes) (i : Nat) : Nat := ofBytesLE ((data.drop (4 * i)).take 4)

/-- `_chacha_block`. -/
def chachaBlock (key : Bytes) (counter : Nat) (nonce : Bytes) : Bytes :=
  let state : Vector Nat 16 := #v[0x61707865, 0x3320646E, 0x79622D32, 0x6B206574,
    unpackI key 0, unpackI key 1, unpackI key 2, unpackI key 3,
    unpackI key 4, unpackI key 5, unpackI key 6, unpackI key 7,
    counter &&& 0xFFFFFFFF, unpackI nonce 0, unpackI nonce 1, unpackI nonce 2]
  let w := Nat.repeat chachaRounds 10 state
  (List.finRange 16).flatMap fun i => toBytesLE 4 ((w.get i + state.get i) &&& 0xFFFFFFFF)

/-- `range(0, stop, step)`. -/
def rangeStep (stop step : Nat) : List Nat :=
  (List.range ((stop + step - 1) / step)).map (step * ·)

/-- `data[i : i + n]`. -/
def slice (data : Bytes) (i n : Nat) : Bytes := (data.drop i).take n

/-- `chacha20`. -/
def chacha20 (key : Bytes) (counter : Nat) (nonce data : Bytes) : Bytes :=
  (rangeStep data.length 64).foldl (fun out i =>
    let ks := chachaBlock key (counter + i / 64) nonce
    out ++ (slice data i 64).mapIdx fun j b => b ^^^ ks.getD j 0) []

/-! ## Poly1305 -/

/-- `_poly1305`. -/
def poly1305 (otk msg : Bytes) : Bytes :=
  let r := ofBytesLE (slice otk 0 16) &&& 0x0FFFFFFC0FFFFFFC0FFFFFFC0FFFFFFF
  let s := ofBytesLE (slice otk 16 16)
  let p := (1 <<< 130) - 5
  let acc := (rangeStep msg.length 16).foldl (fun acc i =>
    let blk := slice msg i 16
    let n := ofBytesLE (blk ++ [1])
    (acc + n) * r % p) 0
  toBytesLE 16 ((acc + s) &&& ((1 <<< 128) - 1))

/-- `_pad16`. -/
def pad16 (b : Bytes) : Bytes := List.replicate ((16 - b.length % 16) % 16) 0

/-- `_poly1305_key`. -/
def poly1305Key (key nonce : Bytes) : Bytes := slice (chachaBlock key 0 nonce) 0 32

/-! ## The AEAD -/

/-- `WireError`, by the place that raises it. -/
inductive WireError where
  | tooShort (len : Nat)
  | badMagic (magic : Bytes)
  | unsupportedVersion (version : UInt8)
  | unknownEncoding (encoding : UInt8)
  | unknownEncMode (encMode : UInt8)
  | encryptedLengthMismatch (payloadLen bodyLen got : Nat)
  | encryptedNoKey
  | authFailed
  | lengthMismatch (payloadLen got : Nat)
deriving DecidableEq

/-- `mac_data`: what the tag is computed over. -/
def macData (aad ct : Bytes) : Bytes :=
  aad ++ pad16 aad ++ ct ++ pad16 ct ++ (toBytesLE 8 aad.length ++ toBytesLE 8 ct.length)

/-- `_aead_encrypt_py`. -/
def aeadEncryptPy (key nonce plaintext aad : Bytes) : Bytes × Bytes :=
  let otk := poly1305Key key nonce
  let ct := chacha20 key 1 nonce plaintext
  (ct, poly1305 otk (macData aad ct))

/-- `_ct_eq`. -/
def ctEq (a b : Bytes) : Bool :=
  if a.length ≠ b.length then false
  else (a.zip b).foldl (fun diff (x, y) => diff ||| (x.toNat ^^^ y.toNat)) 0 == 0

/-- `_aead_decrypt_py`. -/
def aeadDecryptPy (key nonce ciphertext tag aad : Bytes) : Except WireError Bytes :=
  let otk := poly1305Key key nonce
  let expected := poly1305 otk (macData aad ciphertext)
  if !ctEq expected tag then .error .authFailed
  else .ok (chacha20 key 1 nonce ciphertext)

/-! ## Words as numbers -/

theorem and_word (x : Nat) : x &&& 0xFFFFFFFF = x % 2 ^ 32 := Nat.and_two_pow_sub_one_eq_mod x 32

theorem add_word (x y : UInt32) : (x.toNat + y.toNat) &&& 0xFFFFFFFF = (x + y).toNat := by
  rw [and_word, UInt32.toNat_add]

theorem xor_word (x y : UInt32) : x.toNat ^^^ y.toNat = (x ^^^ y).toNat := (UInt32.toNat_xor ..).symm

theorem rotl32_word (x : UInt32) {n : Nat} (hpos : 0 < n) (hlt : n < 32) :
    rotl32 x.toNat n = (Rfc8439.rotl x (UInt32.ofNat n)).toNat := by
  have hx : x.toNat < 2 ^ 32 := x.toNat_lt
  have hn : (UInt32.ofNat n).toNat % 32 = n := by
    rw [UInt32.toNat_ofNat']
    omega
  have hm : (32 - UInt32.ofNat n).toNat % 32 = 32 - n := by
    rw [UInt32.toNat_sub, UInt32.toNat_ofNat']
    show (2 ^ 32 - n % 2 ^ 32 + 32) % 2 ^ 32 % 32 = 32 - n
    omega
  rw [rotl32, Rfc8439.rotl, and_word, Nat.or_mod_two_pow, UInt32.toNat_or, UInt32.toNat_shiftLeft,
    UInt32.toNat_shiftRight, hn, hm, Nat.mod_eq_of_lt (b := 2 ^ 32)
      (Nat.lt_of_le_of_lt (Nat.shiftRight_le ..) hx)]

/-- A quarter round on words held as numbers. -/
theorem chachaQr_map (w : Vector UInt32 16) {i j k l : Fin 16} (h : [i, j, k, l].Nodup) :
    chachaQr (w.map UInt32.toNat) i j k l =
      (Rfc8439.quarterRoundAt w i j k l).map UInt32.toNat := by
  have hget (v : Vector Nat 16) (a b c d : Nat) := Rfc8439.put_get v a b c d h
  have hset (v : Vector Nat 16) (a b c d x : Nat) := Rfc8439.put_set v a b c d x h
  have hmap (a b c d : UInt32) : (Rfc8439.put w i j k l a b c d).map UInt32.toNat =
      Rfc8439.put (w.map UInt32.toNat) i j k l a.toNat b.toNat c.toNat d.toNat := by
    simp [Rfc8439.put, setWord, Vector.map_set]
  have hstart := congrArg (Vector.map UInt32.toNat) (Rfc8439.put_self (i := i) (j := j) (k := k) (l := l) w)
  rw [hmap] at hstart
  rw [Rfc8439.quarterRoundAt_eq, ← hstart]
  simp only [hmap]
  generalize w.map UInt32.toNat = v, w.get i = a, w.get j = b, w.get k = c, w.get l = d
  simp only [chachaQr, (hget _ _ _ _ _).1, (hget _ _ _ _ _).2.1, (hget _ _ _ _ _).2.2.1,
    (hget _ _ _ _ _).2.2.2, (hset _ _ _ _ _ _).1, (hset _ _ _ _ _ _).2.1,
    (hset _ _ _ _ _ _).2.2.1, (hset _ _ _ _ _ _).2.2.2, add_word, xor_word,
    rotl32_word _ (show 0 < 16 by decide) (show 16 < 32 by decide),
    rotl32_word _ (show 0 < 12 by decide) (show 12 < 32 by decide),
    rotl32_word _ (show 0 < 8 by decide) (show 8 < 32 by decide),
    rotl32_word _ (show 0 < 7 by decide) (show 7 < 32 by decide)]
  rfl

theorem chachaRounds_map (w : Vector UInt32 16) :
    chachaRounds (w.map UInt32.toNat) = (Rfc8439.innerBlock w).map UInt32.toNat := by
  unfold chachaRounds Rfc8439.innerBlock
  simp only [chachaQr_map _ (show [(0 : Fin 16), 4, 8, 12].Nodup by decide),
    chachaQr_map _ (show [(1 : Fin 16), 5, 9, 13].Nodup by decide),
    chachaQr_map _ (show [(2 : Fin 16), 6, 10, 14].Nodup by decide),
    chachaQr_map _ (show [(3 : Fin 16), 7, 11, 15].Nodup by decide),
    chachaQr_map _ (show [(0 : Fin 16), 5, 10, 15].Nodup by decide),
    chachaQr_map _ (show [(1 : Fin 16), 6, 11, 12].Nodup by decide),
    chachaQr_map _ (show [(2 : Fin 16), 7, 8, 13].Nodup by decide),
    chachaQr_map _ (show [(3 : Fin 16), 4, 9, 14].Nodup by decide)]

theorem repeat_chachaRounds_map (n : Nat) (w : Vector UInt32 16) :
    Nat.repeat chachaRounds n (w.map UInt32.toNat) =
      (Nat.repeat Rfc8439.innerBlock n w).map UInt32.toNat := by
  induction n with
  | zero => rfl
  | succ n ih => rw [Nat.repeat, ih, chachaRounds_map]; rfl

theorem unpackI_eq (data : Bytes) (i : Nat) :
    unpackI data i = (loadU32leAt data (4 * i)).toNat := (toNat_loadU32leAt data (4 * i)).symm

theorem chachaBlock_eq (key : Bytes) (counter : Nat) (nonce : Bytes) :
    chachaBlock key counter nonce = Rfc8439.block key (UInt32.ofNat counter) nonce := by
  have hcounter : counter &&& 0xFFFFFFFF = (UInt32.ofNat counter).toNat := by
    rw [and_word, UInt32.toNat_ofNat']
  have hstate : (#v[0x61707865, 0x3320646E, 0x79622D32, 0x6B206574,
      unpackI key 0, unpackI key 1, unpackI key 2, unpackI key 3,
      unpackI key 4, unpackI key 5, unpackI key 6, unpackI key 7,
      counter &&& 0xFFFFFFFF, unpackI nonce 0, unpackI nonce 1, unpackI nonce 2] : Vector Nat 16) =
    (#v[0x61707865, 0x3320646E, 0x79622D32, 0x6B206574,
      loadU32leAt key 0, loadU32leAt key 4, loadU32leAt key 8, loadU32leAt key 12,
      loadU32leAt key 16, loadU32leAt key 20, loadU32leAt key 24, loadU32leAt key 28,
      UInt32.ofNat counter, loadU32leAt nonce 0, loadU32leAt nonce 4, loadU32leAt nonce 8] :
        Vector UInt32 16).map UInt32.toNat := by
    -- Rewriting from outside: inside the vector literal, the proof of its size is in the way.
    rw [unpackI_eq key 0, unpackI_eq key 1, unpackI_eq key 2, unpackI_eq key 3, unpackI_eq key 4,
      unpackI_eq key 5, unpackI_eq key 6, unpackI_eq key 7, unpackI_eq nonce 0, unpackI_eq nonce 1,
      unpackI_eq nonce 2, hcounter]
    simp only [Vector.map_mk, List.map_toArray, List.map_cons, List.map_nil, Nat.reduceMul,
      UInt32.reduceToNat]
  unfold chachaBlock Rfc8439.block
  simp only [hstate, repeat_chachaRounds_map]
  refine List.flatMap_congr ?_
  intro i hi
  simp only [get_eq, Fin.getElem_fin, Vector.getElem_map, add_word, storeU32le_eq]

/-! ## The loops over the message -/

/-- Slices of what is left after the first one. -/
theorem slice_succ (data : Bytes) (n i : Nat) :
    slice data (n * (i + 1)) n = slice (data.drop n) (n * i) n := by
  rw [slice, slice, List.drop_drop, Nat.mul_add, Nat.mul_one, Nat.add_comm]

theorem chacha20_eq (key : Bytes) (counter : Nat) (nonce data : Bytes) :
    chacha20 key counter nonce data =
      Rfc8439.chacha20 key (UInt32.ofNat counter) nonce data := by
  have hblock (counter : Nat) (data : Bytes) : (slice data 0 64).mapIdx (fun j b =>
      b ^^^ (chachaBlock key counter nonce).getD j 0) =
      Rfc8439.chacha20 key (UInt32.ofNat counter) nonce (data.take 64) := by
    rw [Rfc8439.chacha20_short _ _ _ (List.length_take_le ..), chachaBlock_eq]
    rfl
  have hloop (n : Nat) : ∀ (counter : Nat) (data : Bytes), data.length ≤ 64 * n →
      (List.range n).flatMap (fun i => (slice data (64 * i) 64).mapIdx fun j b =>
        b ^^^ (chachaBlock key (counter + i) nonce).getD j 0) =
        Rfc8439.chacha20 key (UInt32.ofNat counter) nonce data := by
    induction n with
    | zero =>
      intro counter data hdata
      rw [List.eq_nil_of_length_eq_zero (by omega : data.length = 0)]
      rfl
    | succ n ih =>
      intro counter data hdata
      have hdrop : (data.drop 64).length ≤ 64 * n := by
        rw [List.length_drop]
        omega
      have hnext : UInt32.ofNat counter + 1 = UInt32.ofNat (counter + 1) := by
        rw [UInt32.ofNat_add]
        rfl
      rw [Rfc8439.chacha20_take_drop, hnext, ← ih (counter + 1) _ hdrop, List.range_succ_eq_map,
        List.flatMap_cons, List.flatMap_map, Nat.mul_zero, Nat.add_zero, hblock]
      simp only [Nat.succ_eq_add_one, slice_succ, Nat.add_assoc, Nat.add_comm 1]
  have hcount (i : Nat) : 64 * i / 64 = i := Nat.mul_div_cancel_left i (by decide)
  rw [chacha20, rangeStep, List.foldl_map, ← List.flatMap_eq_foldl]
  simp only [hcount]
  exact hloop _ counter data (by omega)

theorem poly1305_eq (otk msg : Bytes) : poly1305 otk msg = Rfc8439.poly1305 otk msg := by
  have hloop (r n : Nat) : ∀ (acc : Nat) (msg : Bytes),
      (List.range n).foldl (fun acc i =>
        (acc + ofBytesLE (slice msg (16 * i) 16 ++ [1])) * r % ((1 <<< 130) - 5)) acc =
        Rfc8439.accumulate r n acc msg := by
    induction n with
    | zero => exact fun acc msg => rfl
    | succ n ih =>
      intro acc msg
      rw [Rfc8439.accumulate, ← ih, List.range_succ_eq_map, List.foldl_cons, List.foldl_map]
      simp only [Nat.succ_eq_add_one, slice_succ]
      rfl
  have hlow (x : Nat) : x &&& ((1 <<< 128) - 1) = x % 256 ^ 16 :=
    Nat.and_two_pow_sub_one_eq_mod x 128
  rw [poly1305, rangeStep, List.foldl_map, hlow, toBytesLE_mod]
  simp only [hloop]
  rfl

/-! ## The AEAD of RFC 8439 -/

theorem tag_eq (key nonce aad ct : Bytes) :
    poly1305 (poly1305Key key nonce) (macData aad ct) = Rfc8439.tag key nonce aad ct := by
  have hmac : macData aad ct = Rfc8439.macData aad ct := (List.append_assoc ..).symm
  rw [poly1305_eq, hmac, poly1305Key, chachaBlock_eq]
  rfl

theorem aeadEncryptPy_eq (key nonce plaintext aad : Bytes) :
    aeadEncryptPy key nonce plaintext aad = Rfc8439.encrypt key nonce aad plaintext := by
  rw [aeadEncryptPy, tag_eq, chacha20_eq]
  rfl

/-- Or-ing up differences stays zero only on zeros. -/
theorem foldl_or_eq_zero {pairs : List (UInt8 × UInt8)} {acc : Nat} :
    pairs.foldl (fun diff (x, y) => diff ||| (x.toNat ^^^ y.toNat)) acc = 0 ↔
      acc = 0 ∧ ∀ q ∈ pairs, q.1 = q.2 := by
  induction pairs generalizing acc with
  | nil => simp
  | cons q pairs ih =>
    rw [List.foldl_cons, ih, Nat.or_eq_zero_iff, Nat.xor_eq_zero_iff, UInt8.toNat_inj,
      List.forall_mem_cons, and_assoc]

theorem ctEq_iff {a b : Bytes} : ctEq a b = true ↔ a = b := by
  unfold ctEq
  by_cases hlen : a.length = b.length
  · rw [if_neg (not_not_intro hlen), beq_iff_eq, foldl_or_eq_zero]
    constructor
    · rintro ⟨-, h⟩
      apply List.ext_getElem hlen
      intro i h1 h2
      exact h (a[i], b[i]) (List.mem_iff_getElem.mpr ⟨i, by simpa using ⟨h1, h2⟩, by simp⟩)
    · rintro rfl
      refine ⟨rfl, ?_⟩
      intro q hq
      obtain ⟨i, hi, rfl⟩ := List.mem_iff_getElem.mp hq
      simp
  · rw [if_pos hlen]
    constructor
    · intro h
      cases h
    · rintro rfl
      exact absurd rfl hlen

theorem aeadDecryptPy_eq (key nonce ciphertext tag aad : Bytes) :
    aeadDecryptPy key nonce ciphertext tag aad =
      match Rfc8439.decrypt key nonce aad ciphertext tag with
      | some plain => .ok plain
      | none => .error .authFailed := by
  rw [aeadDecryptPy, tag_eq, chacha20_eq, Rfc8439.decrypt]
  by_cases hsame : tag = Rfc8439.tag key nonce aad ciphertext
  · rw [if_pos hsame, ctEq_iff.mpr hsame.symm]
    rfl
  · have hfalse : ctEq (Rfc8439.tag key nonce aad ciphertext) tag = false := by
      rw [Bool.eq_false_iff]
      intro htrue
      exact hsame (ctEq_iff.mp htrue).symm
    rw [if_neg hsame, hfalse]
    rfl

end Mpubsub.Reference
