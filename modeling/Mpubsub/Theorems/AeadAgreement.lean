import Mpubsub.Wire.Aead
import Mpubsub.Reference.Aead

/-!
# The C++ and the Python AEAD agree

Both are the AEAD of RFC 8439, so they leave the same ciphertext, tag and
plaintext, and refuse the same tags. The C++ side gets there without overflow
(`NoOverflow`), however the message is cut into updates (`Streams`).
-/

namespace Mpubsub.Theorems

open Mpubsub.Lib Mpubsub.Wire

/-- The state after a sequence of `poly1305_update` calls. -/
def updated (otk : Bytes) (pieces : List Bytes) : Poly1305 :=
  pieces.foldl poly1305Update (poly1305Init otk)

/-- Updates piece by piece leave the state of one update with the whole message, and the tag
is that of the whole message. -/
def Streams (otk : Bytes) (pieces : List Bytes) : Prop :=
  updated otk pieces = poly1305Update (poly1305Init otk) pieces.flatten ∧
    poly1305Finish (updated otk pieces) = Rfc8439.poly1305 otk pieces.flatten

/-- No operation on limbs, carries and accumulators wraps around: in no iteration of
`poly1305_blocks`, whatever was accumulated before it, and not at the end of a message. -/
structure NoOverflow (otk : Bytes) (pieces : List Bytes) : Prop where
  blocks : ∀ h, Accumulated (poly1305Init otk).r h → ∀ final m,
    BlockFits (poly1305Init otk).r h (blockLimbs final m)
  reached : (updated otk pieces).r = (poly1305Init otk).r ∧
    Accumulated (poly1305Init otk).r (updated otk pieces).h ∧
    Accumulated (poly1305Init otk).r (finishBlocks (updated otk pieces))
  finish : FinishFits (finishBlocks (updated otk pieces)) (updated otk pieces).pad

theorem updated_eq (otk : Bytes) (pieces : List Bytes) :
    updated otk pieces = poly1305Absorb (poly1305Init otk) pieces.flatten := by
  rw [updated, ← poly1305Absorb_nil, poly1305Update_pieces, List.nil_append, poly1305Absorb_nil]

theorem streams (otk : Bytes) (pieces : List Bytes) : Streams otk pieces := by
  refine ⟨?_, ?_⟩
  · rw [updated_eq, ← poly1305Absorb_nil, poly1305Update_absorb, List.nil_append,
      poly1305Absorb_nil]
  · rw [updated_eq, finish_absorb]

theorem noOverflow (otk : Bytes) (pieces : List Bytes) : NoOverflow otk pieces := by
  have hr := reduced_key otk
  have hstate : Accumulated (poly1305Init otk).r (updated otk pieces).h := by
    rw [updated_eq]
    exact Accumulated.absorb otk pieces.flatten
  have hlast : Accumulated (poly1305Init otk).r (finishBlocks (updated otk pieces)) := by
    have hkey : (updated otk pieces).r = (poly1305Init otk).r := by
      rw [updated_eq]
      rfl
    unfold finishBlocks
    rw [hkey]
    split
    · exact hstate.blocks true 1 _
    · exact hstate
  refine ⟨?_, ⟨?_, hstate, hlast⟩, finishFits (hlast.carried hr) _⟩
  · intro h hh final m
    exact blockFits hr (hh.carried hr) final m
  · rw [updated_eq]
    rfl

/-- The vendored AEAD and the pure-Python one leave the same ciphertext and tag, accept the
same tags, and decrypt to the same plaintext; a refused buffer is left as it was. The limb
arithmetic behind it never overflows, and the pieces of a message add up. -/
theorem aead_agrees (key : Key) (nonce : Vector UInt8 12) (aad buf : Bytes) :
    chacha20poly1305Encrypt key nonce.toList aad buf =
        Reference.aeadEncryptPy key.toList nonce.toList buf aad ∧
      (∀ tag : Vector UInt8 16,
        Reference.aeadDecryptPy key.toList nonce.toList buf tag.toList aad =
            (match chacha20poly1305DecryptInPlace key nonce.toList aad buf tag.toList with
              | (true, plain) => .ok plain
              | (false, _) => .error .authFailed) ∧
          ((chacha20poly1305DecryptInPlace key nonce.toList aad buf tag.toList).1 = false →
            (chacha20poly1305DecryptInPlace key nonce.toList aad buf tag.toList).2 = buf)) ∧
      (∀ pieces, NoOverflow (oneTimeKey key nonce.toList) pieces ∧
        Streams (oneTimeKey key nonce.toList) pieces) := by
  refine ⟨?_, ?_, ?_⟩
  · rw [chacha20poly1305Encrypt_eq, Reference.aeadEncryptPy_eq]
  · intro tag
    refine ⟨?_, inPlace_of_false⟩
    have hinPlace := decrypt_eq_inPlace key nonce.toList aad buf tag.toList
    rw [Reference.aeadDecryptPy_eq,
      ← chacha20poly1305Decrypt_eq key nonce.toList aad buf (by simp [AEAD_TAG_LEN]), hinPlace]
    rcases chacha20poly1305DecryptInPlace key nonce.toList aad buf tag.toList with ⟨_ | _, plain⟩
    · rfl
    · rfl
  · intro pieces
    exact ⟨noOverflow _ pieces, streams _ pieces⟩

end Mpubsub.Theorems
