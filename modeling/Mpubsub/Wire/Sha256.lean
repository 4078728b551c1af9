import Mpubsub.Lib.Bytes

/-!
# SHA-256 (`sha256.cpp`)

The vendored streaming hash: a state of eight words, the message length in
bits, and a buffer of fewer than 64 bytes that waits for its block.
-/

namespace Mpubsub.Wire

open Mpubsub.Lib

/-- Eight words: the hash state, and the working variables of a round. -/
structure Sha256Words where
  a : UInt32
  b : UInt32
  c : UInt32
  d : UInt32
  e : UInt32
  f : UInt32
  g : UInt32
  h : UInt32
deriving DecidableEq

/-- `Sha256`: `buffer` holds the first `buffer_len_` bytes of `buffer_`. -/
structure Sha256 where
  state : Sha256Words
  bitLen : UInt64
  buffer : Bytes
deriving DecidableEq

namespace Sha256

/-- The round constants `K`. -/
def roundConstants : List UInt32 := [
  0x428a2f98, 0x71374491, 0xb5c0fbcf, 0xe9b5dba5, 0x3956c25b, 0x59f111f1, 0x923f82a4, 0xab1c5ed5,
  0xd807aa98, 0x12835b01, 0x243185be, 0x550c7dc3, 0x72be5d74, 0x80deb1fe, 0x9bdc06a7, 0xc19bf174,
  0xe49b69c1, 0xefbe4786, 0x0fc19dc6, 0x240ca1cc, 0x2de92c6f, 0x4a7484aa, 0x5cb0a9dc, 0x76f988da,
  0x983e5152, 0xa831c66d, 0xb00327c8, 0xbf597fc7, 0xc6e00bf3, 0xd5a79147, 0x06ca6351, 0x14292967,
  0x27b70a85, 0x2e1b2138, 0x4d2c6dfc, 0x53380d13, 0x650a7354, 0x766a0abb, 0x81c2c92e, 0x92722c85,
  0xa2bfe8a1, 0xa81a664b, 0xc24b8b70, 0xc76c51a3, 0xd192e819, 0xd6990624, 0xf40e3585, 0x106aa070,
  0x19a4c116, 0x1e376c08, 0x2748774c, 0x34b0bcb5, 0x391c0cb3, 0x4ed8aa4a, 0x5b9cca4f, 0x682e6ff3,
  0x748f82ee, 0x78a5636f, 0x84c87814, 0x8cc70208, 0x90befffa, 0xa4506ceb, 0xbef9a3f7, 0xc67178f2]

def rotr (x n : UInt32) : UInt32 := (x >>> n) ||| (x <<< (32 - n))

def init : Sha256 :=
  { state := ⟨0x6a09e667, 0xbb67ae85, 0x3c6ef372, 0xa54ff53a,
      0x510e527f, 0x9b05688c, 0x1f83d9ab, 0x5be0cd19⟩
    bitLen := 0
    buffer := [] }

/-- A big-endian word. -/
def loadU32be (a b c d : UInt8) : UInt32 :=
  (a.toUInt32 <<< 24) ||| (b.toUInt32 <<< 16) ||| (c.toUInt32 <<< 8) ||| d.toUInt32

def storeU32be (v : UInt32) : Bytes :=
  [(v >>> 24).toUInt8, (v >>> 16).toUInt8, (v >>> 8).toUInt8, v.toUInt8]

/-- The first 16 entries of the message schedule `w`: the words of the block. -/
def blockWords : Bytes → List UInt32
  | a :: b :: c :: d :: rest => loadU32be a b c d :: blockWords rest
  | _ => []

/-- The loop that appends `n` more entries to the message schedule. -/
def extendSchedule : Nat → List UInt32 → List UInt32
  | 0, w => w
  | n + 1, w =>
    let i := w.length
    let w15 := w.getD (i - 15) 0
    let w2 := w.getD (i - 2) 0
    let s0 := rotr w15 7 ^^^ rotr w15 18 ^^^ (w15 >>> 3)
    let s1 := rotr w2 17 ^^^ rotr w2 19 ^^^ (w2 >>> 10)
    extendSchedule n (w ++ [w.getD (i - 16) 0 + s0 + w.getD (i - 7) 0 + s1])

/-- One of the 64 rounds, with its constant and its schedule entry. -/
def round (s : Sha256Words) (kw : UInt32 × UInt32) : Sha256Words :=
  let s1 := rotr s.e 6 ^^^ rotr s.e 11 ^^^ rotr s.e 25
  let ch := (s.e &&& s.f) ^^^ (~~~s.e &&& s.g)
  let t1 := s.h + s1 + ch + kw.1 + kw.2
  let s0 := rotr s.a 2 ^^^ rotr s.a 13 ^^^ rotr s.a 22
  let mj := (s.a &&& s.b) ^^^ (s.a &&& s.c) ^^^ (s.b &&& s.c)
  let t2 := s0 + mj
  { a := t1 + t2, b := s.a, c := s.b, d := s.c, e := s.d + t1, f := s.e, g := s.f, h := s.g }

/-- `process_block_`. -/
def processBlock (state : Sha256Words) (block : Bytes) : Sha256Words :=
  let w := extendSchedule 48 (blockWords block)
  let v := (roundConstants.zip w).foldl round state
  { a := state.a + v.a, b := state.b + v.b, c := state.c + v.c, d := state.d + v.d
    e := state.e + v.e, f := state.f + v.f, g := state.g + v.g, h := state.h + v.h }

/-- The loop of `update`. Every iteration takes at least one byte, so `len`
iterations are enough. -/
def updateLoop : Nat → Sha256 → Bytes → Sha256
  | 0, s, _ => s
  | n + 1, s, data =>
    if data.length = 0 then s
    else
      let take := min (64 - s.buffer.length) data.length
      let s := { s with buffer := s.buffer ++ data.take take }
      let s :=
        if s.buffer.length = 64 then
          { s with state := processBlock s.state s.buffer, buffer := [] }
        else s
      updateLoop n s (data.drop take)

/-- `update`. -/
def update (s : Sha256) (data : Bytes) : Sha256 :=
  updateLoop data.length { s with bitLen := s.bitLen + UInt64.ofNat data.length * 8 } data

/-- `finalize`: pad with `0x80`, zeros and the length in bits, big-endian. -/
def finalize (s : Sha256) : Bytes :=
  let totalBits := s.bitLen
  let zerosTo (n : Nat) (buffer : Bytes) : Bytes :=
    buffer ++ List.replicate (n - buffer.length) 0
  let s := { s with buffer := s.buffer ++ [0x80] }
  let s :=
    if s.buffer.length > 56 then
      { s with state := processBlock s.state (zerosTo 64 s.buffer), buffer := [] }
    else s
  let length : Bytes :=
    storeU32be (totalBits >>> 32).toUInt32 ++ storeU32be totalBits.toUInt32
  let out := processBlock s.state (zerosTo 56 s.buffer ++ length)
  storeU32be out.a ++ storeU32be out.b ++ storeU32be out.c ++ storeU32be out.d ++
    storeU32be out.e ++ storeU32be out.f ++ storeU32be out.g ++ storeU32be out.h

/-- `hash`. -/
def hash (data : Bytes) : Bytes := (init.update data).finalize

@[simp] theorem length_hash (data : Bytes) : (hash data).length = 32 := rfl

end Sha256

end Mpubsub.Wire
