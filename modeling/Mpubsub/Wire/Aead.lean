import Mpubsub.Wire.ChaCha20Poly1305

/-!
# The vendored AEAD is the one of RFC 8439

ChaCha20 block by block (`chacha20Xor_eq`), the tag over the pieces that
`aead_tag` feeds to Poly1305 (`aeadTag_eq`), and the comparison without an early
exit (`ctEq_iff`): `chacha20poly1305_encrypt` and `chacha20poly1305_decrypt` are
`Rfc8439.encrypt` and `Rfc8439.decrypt`. What the node relies on is that decryption
undoes encryption (`decrypt_encrypt`).
-/

namespace Mpubsub.Wire

open Mpubsub.Lib

/-! ## ChaCha20 -/

theorem chachaQR_eq (w : Vector UInt32 16) {i j k l : Fin 16} (h : [i, j, k, l].Nodup) :
    chachaQR w i j k l = Rfc8439.quarterRoundAt w i j k l := by
  have hget (a b c d : UInt32) := Rfc8439.put_get w a b c d h
  have hset (a b c d x : UInt32) := Rfc8439.put_set w a b c d x h
  rw [Rfc8439.quarterRoundAt_eq]
  conv_lhs => rw [← Rfc8439.put_self (i := i) (j := j) (k := k) (l := l) w]
  generalize w.get i = a, w.get j = b, w.get k = c, w.get l = d
  simp only [chachaQR, (hget _ _ _ _).1, (hget _ _ _ _).2.1, (hget _ _ _ _).2.2.1,
    (hget _ _ _ _).2.2.2, (hset _ _ _ _ _).1, (hset _ _ _ _ _).2.1, (hset _ _ _ _ _).2.2.1,
    (hset _ _ _ _ _).2.2.2]
  rfl

theorem chachaDoubleRound_eq (w : Vector UInt32 16) :
    chachaDoubleRound w = Rfc8439.innerBlock w := by
  unfold chachaDoubleRound Rfc8439.innerBlock
  simp only [chachaQR_eq _ (show [(0 : Fin 16), 4, 8, 12].Nodup by decide),
    chachaQR_eq _ (show [(1 : Fin 16), 5, 9, 13].Nodup by decide),
    chachaQR_eq _ (show [(2 : Fin 16), 6, 10, 14].Nodup by decide),
    chachaQR_eq _ (show [(3 : Fin 16), 7, 11, 15].Nodup by decide),
    chachaQR_eq _ (show [(0 : Fin 16), 5, 10, 15].Nodup by decide),
    chachaQR_eq _ (show [(1 : Fin 16), 6, 11, 12].Nodup by decide),
    chachaQR_eq _ (show [(2 : Fin 16), 7, 8, 13].Nodup by decide),
    chachaQR_eq _ (show [(3 : Fin 16), 4, 9, 14].Nodup by decide)]

theorem chacha20Block_eq (key : Key) (counter : UInt32) (nonce : Bytes) :
    chacha20Block key counter nonce = Rfc8439.block key.toList counter nonce := by
  have hround : chachaDoubleRound = Rfc8439.innerBlock := funext chachaDoubleRound_eq
  unfold chacha20Block Rfc8439.block
  rw [hround]

theorem zipWith_block_eq (key : Key) (counter : UInt32) (nonce : Bytes) {data : Bytes}
    (hdata : data.length ≤ 64) :
    List.zipWith (· ^^^ ·) data (chacha20Block key counter nonce) =
      Rfc8439.chacha20 key.toList counter nonce data := by
  have hlen := Rfc8439.length_block key.toList counter nonce
  rw [chacha20Block_eq, Rfc8439.chacha20_short _ _ _ hdata,
    Rfc8439.mapIdx_getD_eq_zipWith (by omega)]

theorem chacha20XorBlocks_eq (key : Key) (nonce : Bytes) (n : Nat) (counter : UInt32)
    {data : Bytes} (hdata : data.length ≤ 64 * n) :
    chacha20XorBlocks key nonce n counter data =
      Rfc8439.chacha20 key.toList counter nonce data := by
  induction n generalizing counter data with
  | zero =>
    rw [List.eq_nil_of_length_eq_zero (by omega : data.length = 0)]
    rfl
  | succ n ih =>
    have hdrop : (data.drop 64).length ≤ 64 * n := by
      rw [List.length_drop]
      omega
    rw [chacha20XorBlocks, ih _ hdrop, zipWith_block_eq _ _ _ (List.length_take_le ..),
      ← Rfc8439.chacha20_take_drop]

theorem chacha20Xor_eq (key : Key) (counter : UInt32) (nonce data : Bytes) :
    chacha20Xor key counter nonce data = Rfc8439.chacha20 key.toList counter nonce data :=
  chacha20XorBlocks_eq key nonce _ counter (by omega)

/-! ## The tag -/

theorem oneTimeKey_eq (key : Key) (nonce : Bytes) :
    oneTimeKey key nonce = Rfc8439.oneTimeKey key.toList nonce := by
  have hxor (mask : Bytes) (n : Nat) (hlen : n ≤ mask.length) :
      List.zipWith (· ^^^ ·) (List.replicate n 0) mask = mask.take n := by
    apply List.ext_getElem
    · simp
    · intro i h1 h2
      simp
  have hlen := Rfc8439.length_block key.toList 0 nonce
  rw [oneTimeKey, chacha20Xor_eq, ← zipWith_block_eq _ _ _ (by simp), chacha20Block_eq,
    hxor _ _ (by omega), Rfc8439.oneTimeKey]

/-- A length as two words. -/
theorem storeLength_eq (n : Nat) :
    storeU32le (UInt64.ofNat n).toUInt32 ++ storeU32le (UInt64.ofNat n >>> 32).toUInt32 =
      toBytesLE 8 n := by
  rw [storeU32le_eq (UInt64.ofNat n >>> 32).toUInt32, storeU32le_append_toBytesLE,
    ← toBytesLE_mod 8 n, UInt64.toNat_toUInt32, UInt64.toNat_toUInt32, UInt64.toNat_shiftRight,
    UInt64.toNat_ofNat', show (32 : UInt64).toNat % 64 = 32 from rfl, Nat.shiftRight_eq_div_pow]
  congr 1
  omega

/-- The five updates of `aead_tag` as one message. -/
theorem aeadTag_eq (otk aad ct : Bytes) :
    aeadTag otk aad ct = Rfc8439.poly1305 otk (Rfc8439.macData aad ct) := by
  let lenblk := storeU32le (UInt64.ofNat aad.length).toUInt32 ++
    storeU32le (UInt64.ofNat aad.length >>> 32).toUInt32 ++
    storeU32le (UInt64.ofNat ct.length).toUInt32 ++
    storeU32le (UInt64.ofNat ct.length >>> 32).toUInt32
  have hpieces : aeadTag otk aad ct = poly1305Finish
      ([aad, Rfc8439.pad16 aad, ct, Rfc8439.pad16 ct, lenblk].foldl poly1305Update
        (poly1305Init otk)) := by
    rw [List.foldl_cons, List.foldl_cons, List.foldl_cons, List.foldl_cons, List.foldl_cons,
      List.foldl_nil]
    rfl
  have hlen : lenblk = toBytesLE 8 aad.length ++ toBytesLE 8 ct.length := by
    rw [← storeLength_eq aad.length, ← storeLength_eq ct.length, ← List.append_assoc]
  rw [hpieces, ← poly1305Absorb_nil, poly1305Update_pieces, finish_absorb, hlen]
  simp only [Rfc8439.macData, List.flatten_cons, List.flatten_nil, List.append_nil,
    List.nil_append, List.append_assoc]

theorem tag_eq (key : Key) (nonce aad ct : Bytes) :
    aeadTag (oneTimeKey key nonce) aad ct = Rfc8439.tag key.toList nonce aad ct := by
  rw [aeadTag_eq, oneTimeKey_eq]
  rfl

/-! ## The AEAD -/

theorem chacha20poly1305Encrypt_eq (key : Key) (nonce aad buf : Bytes) :
    chacha20poly1305Encrypt key nonce aad buf =
      Rfc8439.encrypt key.toList nonce aad buf := by
  rw [chacha20poly1305Encrypt, tag_eq, chacha20Xor_eq]
  rfl

/-- Or-ing up differences stays zero only on zeros. -/
theorem foldl_or_eq_zero {diffs : Bytes} {acc : UInt8} :
    diffs.foldl (· ||| ·) acc = 0 ↔ acc = 0 ∧ ∀ d ∈ diffs, d = 0 := by
  induction diffs generalizing acc with
  | nil => simp
  | cons d diffs ih =>
    rw [List.foldl_cons, ih, UInt8.or_eq_zero_iff, List.forall_mem_cons, and_assoc]

theorem ctEq_iff {a b : Bytes} (hlen : a.length = b.length) : ctEq a b = true ↔ a = b := by
  rw [ctEq, beq_iff_eq, foldl_or_eq_zero]
  induction a generalizing b with
  | nil =>
    rw [List.eq_nil_of_length_eq_zero hlen.symm]
    simp
  | cons x a ih =>
    cases b with
    | nil => simp at hlen
    | cons y b =>
      have htail := ih (b := b) (by simpa using hlen)
      simp only [true_and] at htail
      simp only [List.zipWith_cons_cons, List.forall_mem_cons, htail, List.cons.injEq, true_and,
        UInt8.xor_eq_zero_iff]

theorem chacha20poly1305Decrypt_eq (key : Key) (nonce aad buf : Bytes) {tag : Bytes}
    (htag : tag.length = AEAD_TAG_LEN) :
    chacha20poly1305Decrypt key nonce aad buf tag =
      Rfc8439.decrypt key.toList nonce aad buf tag := by
  have heq := ctEq_iff ((Rfc8439.length_tag key.toList nonce aad buf).trans htag.symm)
  rw [chacha20poly1305Decrypt, tag_eq, chacha20Xor_eq, Rfc8439.decrypt]
  by_cases hsame : tag = Rfc8439.tag key.toList nonce aad buf
  · rw [if_pos hsame, heq.mpr hsame.symm]
    rfl
  · have hfalse : ctEq (Rfc8439.tag key.toList nonce aad buf) tag = false := by
      rw [Bool.eq_false_iff]
      intro htrue
      exact hsame (heq.mp htrue).symm
    rw [if_neg hsame, hfalse]
    rfl

/-- **Round trip.** What was encrypted under a key decrypts under it, with the
same nonce and associated data. -/
theorem decrypt_encrypt (key : Key) (nonce aad buf : Bytes) :
    chacha20poly1305Decrypt key nonce aad (chacha20poly1305Encrypt key nonce aad buf).1
      (chacha20poly1305Encrypt key nonce aad buf).2 = some buf := by
  have htag : (chacha20poly1305Encrypt key nonce aad buf).2.length = AEAD_TAG_LEN :=
    length_aeadTag ..
  rw [chacha20poly1305Decrypt_eq key nonce aad _ htag, chacha20poly1305Encrypt_eq,
    Rfc8439.decrypt_encrypt]

/-- `chacha20poly1305_decrypt` with the buffer as the function leaves it. -/
def chacha20poly1305DecryptInPlace (key : Key) (nonce aad buf tag : Bytes) : Bool × Bytes :=
  let otk := oneTimeKey key nonce
  let expected := aeadTag otk aad buf
  if !ctEq expected tag then (false, buf)
  else
    let buf := chacha20Xor key 1 nonce buf
    (true, buf)

theorem decrypt_eq_inPlace (key : Key) (nonce aad buf tag : Bytes) :
    chacha20poly1305Decrypt key nonce aad buf tag =
      match chacha20poly1305DecryptInPlace key nonce aad buf tag with
      | (true, plain) => some plain
      | (false, _) => none := by
  unfold chacha20poly1305Decrypt chacha20poly1305DecryptInPlace
  simp only
  split
  · rfl
  · rfl

/-- A wrong tag leaves the buffer as it was. -/
theorem inPlace_of_false {key : Key} {nonce aad buf tag : Bytes}
    (h : (chacha20poly1305DecryptInPlace key nonce aad buf tag).1 = false) :
    (chacha20poly1305DecryptInPlace key nonce aad buf tag).2 = buf := by
  unfold chacha20poly1305DecryptInPlace at h ⊢
  simp only at h ⊢
  split
  · rfl
  · rename_i hsame
    rw [if_neg hsame] at h
    cases h

end Mpubsub.Wire
