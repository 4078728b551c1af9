import Mpubsub.Wire.Poly1305
import Mathlib.Data.List.FinRange

/-!
# ChaCha20-Poly1305 (`chacha20poly1305.cpp`)

The vendored AEAD: ChaCha20 in 32-bit words, and its composition with Poly1305
as in RFC 8439. The tag is a function of the one-time key, the associated data and
the ciphertext, and the keystream is xored in.
-/

namespace Mpubsub.Wire

open Mpubsub.Lib

/-- `uint8_t key[32]`. -/
abbrev Key := Vector UInt8 32

def AEAD_NONCE_LEN : Nat := 12
def AEAD_TAG_LEN : Nat := 16

/-! ## ChaCha20 -/

def rotl32 (x n : UInt32) : UInt32 := (x <<< n) ||| (x >>> (32 - n))

/-- `CHACHA_QR` on four words of the state. -/
def chachaQR (w : Vector UInt32 16) (a b c d : Fin 16) : Vector UInt32 16 :=
  let w := setWord w a (w.get a + w.get b)
  let w := setWord w d (w.get d ^^^ w.get a)
  let w := setWord w d (rotl32 (w.get d) 16)
  let w := setWord w c (w.get c + w.get d)
  let w := setWord w b (w.get b ^^^ w.get c)
  let w := setWord w b (rotl32 (w.get b) 12)
  let w := setWord w a (w.get a + w.get b)
  let w := setWord w d (w.get d ^^^ w.get a)
  let w := setWord w d (rotl32 (w.get d) 8)
  let w := setWord w c (w.get c + w.get d)
  let w := setWord w b (w.get b ^^^ w.get c)
  setWord w b (rotl32 (w.get b) 7)

/-- One iteration of the loop in `chacha20_block`: four column and four diagonal
quarter rounds. -/
def chachaDoubleRound (w : Vector UInt32 16) : Vector UInt32 16 :=
  let w := chachaQR w 0 4 8 12
  let w := chachaQR w 1 5 9 13
  let w := chachaQR w 2 6 10 14
  let w := chachaQR w 3 7 11 15
  let w := chachaQR w 0 5 10 15
  let w := chachaQR w 1 6 11 12
  let w := chachaQR w 2 7 8 13
  chachaQR w 3 4 9 14

/-- `chacha20_block`: 64 bytes of keystream. -/
def chacha20Block (key : Key) (counter : UInt32) (nonce : Bytes) : Bytes :=
  let k := key.toList
  let s : Vector UInt32 16 := #v[0x61707865, 0x3320646E, 0x79622D32, 0x6B206574,
    loadU32leAt k 0, loadU32leAt k 4, loadU32leAt k 8, loadU32leAt k 12,
    loadU32leAt k 16, loadU32leAt k 20, loadU32leAt k 24, loadU32leAt k 28,
    counter, loadU32leAt nonce 0, loadU32leAt nonce 4, loadU32leAt nonce 8]
  let w := Nat.repeat chachaDoubleRound 10 s
  (List.finRange 16).flatMap fun i => storeU32le (w.get i + s.get i)

/-- The loop of `chacha20_xor` over `n` blocks of at most 64 bytes. -/
def chacha20XorBlocks (key : Key) (nonce : Bytes) : Nat → UInt32 → Bytes → Bytes
  | 0, _, data => data
  | n + 1, counter, data =>
    List.zipWith (· ^^^ ·) (data.take 64) (chacha20Block key counter nonce) ++
      chacha20XorBlocks key nonce n (counter + 1) (data.drop 64)

/-- `chacha20_xor`. -/
def chacha20Xor (key : Key) (counter : UInt32) (nonce data : Bytes) : Bytes :=
  chacha20XorBlocks key nonce ((data.length + 63) / 64) counter data

/-! ## The AEAD -/

/-- `aead_tag`: the Poly1305 tag over
`aad || pad16 || ct || pad16 || len(aad) || len(ct)`. -/
def aeadTag (otk aad ct : Bytes) : Bytes :=
  let zeros (n : Nat) : Bytes := List.replicate ((16 - n % 16) % 16) 0
  let st := poly1305Init otk
  let st := poly1305Update st aad
  let st := poly1305Update st (zeros aad.length)
  let st := poly1305Update st ct
  let st := poly1305Update st (zeros ct.length)
  let aadLen := UInt64.ofNat aad.length
  let ctLen := UInt64.ofNat ct.length
  let lenblk := storeU32le aadLen.toUInt32 ++ storeU32le (aadLen >>> 32).toUInt32 ++
    storeU32le ctLen.toUInt32 ++ storeU32le (ctLen >>> 32).toUInt32
  poly1305Finish (poly1305Update st lenblk)

/-- `ct_eq`: comparison without an early exit. -/
def ctEq (a b : Bytes) : Bool :=
  (List.zipWith (· ^^^ ·) a b).foldl (· ||| ·) 0 == 0

/-- The Poly1305 one-time key: the first half of keystream block 0. -/
def oneTimeKey (key : Key) (nonce : Bytes) : Bytes :=
  chacha20Xor key 0 nonce (List.replicate 32 0)

/-- `chacha20poly1305_encrypt`: the ciphertext left in `buf`, and the tag. -/
def chacha20poly1305Encrypt (key : Key) (nonce aad buf : Bytes) : Bytes × Bytes :=
  let otk := oneTimeKey key nonce
  let buf := chacha20Xor key 1 nonce buf
  (buf, aeadTag otk aad buf)

/-- `chacha20poly1305_decrypt`: the plaintext left in `buf`, or `none` where the
function returns false and leaves `buf` alone. -/
def chacha20poly1305Decrypt (key : Key) (nonce aad buf tag : Bytes) : Option Bytes :=
  let otk := oneTimeKey key nonce
  let expected := aeadTag otk aad buf
  if !ctEq expected tag then none
  else some (chacha20Xor key 1 nonce buf)

/-! ## Lengths -/

theorem length_chacha20Block (key : Key) (counter : UInt32) (nonce : Bytes) :
    (chacha20Block key counter nonce).length = 64 := by
  simp [chacha20Block, List.length_flatMap]

theorem length_aeadTag (otk aad ct : Bytes) : (aeadTag otk aad ct).length = AEAD_TAG_LEN := by
  simp [aeadTag, poly1305Finish, AEAD_TAG_LEN]

@[simp] theorem length_chacha20XorBlocks (key : Key) (nonce : Bytes) (n : Nat)
    (counter : UInt32) (data : Bytes) :
    (chacha20XorBlocks key nonce n counter data).length = data.length := by
  induction n generalizing counter data with
  | zero => rfl
  | succ n ih =>
    rw [chacha20XorBlocks, List.length_append, ih, List.length_zipWith, length_chacha20Block,
      List.length_take, List.length_drop]
    omega

@[simp] theorem length_chacha20Xor (key : Key) (counter : UInt32) (nonce data : Bytes) :
    (chacha20Xor key counter nonce data).length = data.length :=
  length_chacha20XorBlocks ..

theorem length_of_decrypt {key : Key} {nonce aad buf tag plain : Bytes}
    (h : chacha20poly1305Decrypt key nonce aad buf tag = some plain) :
    plain.length = buf.length := by
  simp only [chacha20poly1305Decrypt] at h
  split at h
  · cases h
  · cases h
    exact length_chacha20Xor ..

end Mpubsub.Wire
