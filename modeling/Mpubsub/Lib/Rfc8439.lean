import Mpubsub.Lib.LittleEndian
import Mathlib.Data.List.FinRange

/-!
# ChaCha20-Poly1305 (RFC 8439)

The AEAD as the RFC defines it, for implementations to be compared with. The
keystream is a function of the position (`keystream`), the authenticator a
polynomial modulo `2^130 - 5` over the blocks of the message (`poly1305`), and the
two are composed over the padded message `macData`. Decryption undoes encryption
(`decrypt_encrypt`).
-/

namespace Mpubsub.Lib

/-! ## Words of a state -/

instance instNeZeroSixteen : NeZero 16 := ⟨by decide⟩

/-- The state with word `i` replaced. -/
def setWord {α : Type} {n : Nat} (w : Vector α n) (i : Fin n) (x : α) : Vector α n :=
  w.set i x i.isLt

theorem get_eq {α : Type} {n : Nat} (w : Vector α n) (i : Fin n) : w.get i = w[i] := rfl

namespace Rfc8439

/-! ## ChaCha20 -/

def rotl (x n : UInt32) : UInt32 := (x <<< n) ||| (x >>> (32 - n))

/-- The quarter round (section 2.1). -/
def quarterRound (a b c d : UInt32) : UInt32 × UInt32 × UInt32 × UInt32 :=
  let a := a + b
  let d := rotl (d ^^^ a) 16
  let c := c + d
  let b := rotl (b ^^^ c) 12
  let a := a + b
  let d := rotl (d ^^^ a) 8
  let c := c + d
  let b := rotl (b ^^^ c) 7
  (a, b, c, d)

/-- `QUARTERROUND(i, j, k, l)` on the state (section 2.2). -/
def quarterRoundAt (s : Vector UInt32 16) (i j k l : Fin 16) : Vector UInt32 16 :=
  let (a, b, c, d) := quarterRound (s.get i) (s.get j) (s.get k) (s.get l)
  setWord (setWord (setWord (setWord s i a) j b) k c) l d

/-- A column round and a diagonal round (section 2.3.1). -/
def innerBlock (s : Vector UInt32 16) : Vector UInt32 16 :=
  let s := quarterRoundAt s 0 4 8 12
  let s := quarterRoundAt s 1 5 9 13
  let s := quarterRoundAt s 2 6 10 14
  let s := quarterRoundAt s 3 7 11 15
  let s := quarterRoundAt s 0 5 10 15
  let s := quarterRoundAt s 1 6 11 12
  let s := quarterRoundAt s 2 7 8 13
  quarterRoundAt s 3 4 9 14

/-- The block function (section 2.3). -/
def block (key : Bytes) (counter : UInt32) (nonce : Bytes) : Bytes :=
  let s : Vector UInt32 16 := #v[0x61707865, 0x3320646E, 0x79622D32, 0x6B206574,
    loadU32leAt key 0, loadU32leAt key 4, loadU32leAt key 8, loadU32leAt key 12,
    loadU32leAt key 16, loadU32leAt key 20, loadU32leAt key 24, loadU32leAt key 28,
    counter, loadU32leAt nonce 0, loadU32leAt nonce 4, loadU32leAt nonce 8]
  let w := Nat.repeat innerBlock 10 s
  (List.finRange 16).flatMap fun i => storeU32le (w.get i + s.get i)

/-- Byte `i` of the keystream that starts at block `counter`. -/
def keystream (key : Bytes) (counter : UInt32) (nonce : Bytes) (i : Nat) : UInt8 :=
  (block key (counter + UInt32.ofNat (i / 64)) nonce).getD (i % 64) 0

/-- Encryption and decryption (section 2.4). -/
def chacha20 (key : Bytes) (counter : UInt32) (nonce data : Bytes) : Bytes :=
  data.mapIdx fun i b => b ^^^ keystream key counter nonce i

/-! ## Poly1305 -/

/-- The prime (section 2.5). -/
def p : Nat := 2 ^ 130 - 5

/-- The clamped multiplier. -/
def clamp (r : Nat) : Nat := r &&& 0x0ffffffc0ffffffc0ffffffc0fffffff

/-- The accumulator after `n` blocks of at most 16 bytes, each with a 1 bit added at its
end. -/
def accumulate (r : Nat) : Nat → Nat → Bytes → Nat
  | 0, acc, _ => acc
  | n + 1, acc, msg =>
    accumulate r n ((acc + ofBytesLE (msg.take 16 ++ [1])) * r % p) (msg.drop 16)

/-- The authenticator of a message under a one-time key (section 2.5.1). -/
def poly1305 (otk msg : Bytes) : Bytes :=
  let r := clamp (ofBytesLE (otk.take 16))
  let s := ofBytesLE ((otk.drop 16).take 16)
  toBytesLE 16 (accumulate r ((msg.length + 15) / 16) 0 msg + s)

/-! ## The AEAD -/

/-- Zeros up to the next multiple of 16. -/
def pad16 (data : Bytes) : Bytes := List.replicate ((16 - data.length % 16) % 16) 0

/-- What is authenticated (section 2.8). -/
def macData (aad ct : Bytes) : Bytes :=
  aad ++ pad16 aad ++ ct ++ pad16 ct ++ toBytesLE 8 aad.length ++ toBytesLE 8 ct.length

/-- The one-time key of a nonce (section 2.6). -/
def oneTimeKey (key nonce : Bytes) : Bytes := (block key 0 nonce).take 32

def tag (key nonce aad ct : Bytes) : Bytes := poly1305 (oneTimeKey key nonce) (macData aad ct)

/-- Ciphertext and tag. -/
def encrypt (key nonce aad plain : Bytes) : Bytes × Bytes :=
  let ct := chacha20 key 1 nonce plain
  (ct, tag key nonce aad ct)

/-- The plaintext, unless the tag is wrong. -/
def decrypt (key nonce aad ct received : Bytes) : Option Bytes :=
  if received = tag key nonce aad ct then some (chacha20 key 1 nonce ct) else none

/-! ## Lengths -/

@[simp] theorem length_block (key : Bytes) (counter : UInt32) (nonce : Bytes) :
    (block key counter nonce).length = 64 := by
  simp [block, List.length_flatMap]

@[simp] theorem length_chacha20 (key : Bytes) (counter : UInt32) (nonce data : Bytes) :
    (chacha20 key counter nonce data).length = data.length := by
  simp [chacha20]

@[simp] theorem length_tag (key nonce aad ct : Bytes) : (tag key nonce aad ct).length = 16 := by
  simp [tag, poly1305]

/-! ## Four words of a state -/

/-- The words at four places of a state replaced. -/
def put {α : Type} (w : Vector α 16) (i j k l : Fin 16) (a b c d : α) : Vector α 16 :=
  setWord (setWord (setWord (setWord w i a) j b) k c) l d

section
variable {α : Type} {i j k l : Fin 16}

theorem put_get (w : Vector α 16) (a b c d : α) (h : [i, j, k, l].Nodup) :
    (put w i j k l a b c d).get i = a ∧ (put w i j k l a b c d).get j = b ∧
      (put w i j k l a b c d).get k = c ∧ (put w i j k l a b c d).get l = d := by
  simp only [List.nodup_cons, List.mem_cons, List.not_mem_nil, or_false, not_or] at h
  simp [put, setWord, get_eq, Fin.val_inj, h, eq_comm]

/-- Writing one of the four again. -/
theorem put_set (w : Vector α 16) (a b c d x : α) (h : [i, j, k, l].Nodup) :
    setWord (put w i j k l a b c d) i x = put w i j k l x b c d ∧
      setWord (put w i j k l a b c d) j x = put w i j k l a x c d ∧
      setWord (put w i j k l a b c d) k x = put w i j k l a b x d ∧
      setWord (put w i j k l a b c d) l x = put w i j k l a b c x := by
  simp only [List.nodup_cons, List.mem_cons, List.not_mem_nil, or_false, not_or] at h
  refine ⟨?_, ?_, ?_, ?_⟩
  all_goals
    apply Vector.ext
    intro n hn
    simp only [put, setWord, Vector.getElem_set]
    grind

theorem put_self (w : Vector α 16) :
    put w i j k l (w.get i) (w.get j) (w.get k) (w.get l) = w := by
  simp [put, setWord, get_eq]

theorem quarterRoundAt_eq (w : Vector UInt32 16) :
    quarterRoundAt w i j k l =
      let q := quarterRound (w.get i) (w.get j) (w.get k) (w.get l)
      put w i j k l q.1 q.2.1 q.2.2.1 q.2.2.2 := rfl

end

/-! ## The cipher and the authenticator in parts -/

theorem keystream_add_block (key : Bytes) (counter : UInt32) (nonce : Bytes) (i : Nat) :
    keystream key counter nonce (i + 64) = keystream key (counter + 1) nonce i := by
  have hcounter : counter + UInt32.ofNat (i / 64 + 1) = counter + 1 + UInt32.ofNat (i / 64) := by
    rw [UInt32.ofNat_add, UInt32.add_comm (UInt32.ofNat (i / 64)), ← UInt32.add_assoc]
    rfl
  rw [keystream, keystream, Nat.add_div_right _ (by decide), Nat.add_mod_right, hcounter]

/-- At most a block is encrypted with a block of the keystream. -/
theorem chacha20_short (key : Bytes) (counter : UInt32) (nonce : Bytes) {data : Bytes}
    (hdata : data.length ≤ 64) :
    chacha20 key counter nonce data =
      data.mapIdx fun i b => b ^^^ (block key counter nonce).getD i 0 := by
  apply List.mapIdx_eq_mapIdx_iff.mpr
  intro i hi
  have hlt : i < 64 := by omega
  rw [keystream, Nat.div_eq_of_lt hlt, Nat.mod_eq_of_lt hlt]
  simp

theorem mapIdx_getD_eq_zipWith {data mask : Bytes} (hlen : data.length ≤ mask.length) :
    (data.mapIdx fun i b => b ^^^ mask.getD i 0) = List.zipWith (· ^^^ ·) data mask := by
  apply List.ext_getElem
  · rw [List.length_mapIdx, List.length_zipWith, Nat.min_eq_left hlen]
  · intro i h1 h2
    rw [List.length_mapIdx] at h1
    rw [List.getElem_mapIdx, List.getElem_zipWith, List.getD_eq_getElem _ _ (by omega)]

/-- A block first, the rest with the blocks behind it. -/
theorem chacha20_take_drop (key : Bytes) (counter : UInt32) (nonce data : Bytes) :
    chacha20 key counter nonce data =
      chacha20 key counter nonce (data.take 64) ++
        chacha20 key (counter + 1) nonce (data.drop 64) := by
  by_cases hlong : 64 ≤ data.length
  · conv_lhs => rw [← List.take_append_drop 64 data, chacha20, List.mapIdx_append,
      List.length_take, Nat.min_eq_left hlong]
    simp only [keystream_add_block]
    rfl
  · rw [List.take_of_length_le (by omega), List.drop_eq_nil_of_le (by omega)]
    exact (List.append_nil _).symm

theorem accumulate_add (r n k acc : Nat) (msg : Bytes) :
    accumulate r (n + k) acc msg = accumulate r k (accumulate r n acc msg) (msg.drop (16 * n)) := by
  induction n generalizing acc msg with
  | zero => rw [Nat.zero_add, Nat.mul_zero, List.drop_zero, accumulate]
  | succ n ih =>
    rw [Nat.succ_add, accumulate, accumulate, ih, List.drop_drop]
    congr 2
    omega

/-- The accumulator stays reduced. -/
theorem accumulate_lt {r n acc : Nat} {msg : Bytes} (hacc : acc < p) :
    accumulate r n acc msg < p := by
  induction n generalizing acc msg with
  | zero => exact hacc
  | succ n ih => exact ih (Nat.mod_lt _ (by decide))

/-! ## Decryption undoes encryption -/

/-- The keystream is xored in twice. -/
@[simp] theorem chacha20_chacha20 (key : Bytes) (counter : UInt32) (nonce data : Bytes) :
    chacha20 key counter nonce (chacha20 key counter nonce data) = data := by
  unfold chacha20
  apply List.ext_getElem
  · simp
  · intro i h1 h2
    rw [List.getElem_mapIdx, List.getElem_mapIdx, UInt8.xor_assoc, UInt8.xor_self, UInt8.xor_zero]

theorem decrypt_encrypt (key nonce aad plain : Bytes) :
    decrypt key nonce aad (encrypt key nonce aad plain).1 (encrypt key nonce aad plain).2 =
      some plain := by
  simp [decrypt, encrypt]

theorem length_of_decrypt {key nonce aad ct received plain : Bytes}
    (h : decrypt key nonce aad ct received = some plain) : plain.length = ct.length := by
  unfold decrypt at h
  split at h
  · cases h
    exact length_chacha20 ..
  · cases h

end Rfc8439

end Mpubsub.Lib
