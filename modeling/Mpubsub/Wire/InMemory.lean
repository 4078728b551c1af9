import Mpubsub.Lib.Bounds
import Mpubsub.Wire.ChaCha20Poly1305
import Mpubsub.Wire.Format

/-!
# The AEAD in memory (`chacha20poly1305.cpp`)

The decryption with its buffers and pointers. Every function gets the spans that
the source passes as pointers and lengths, and has its locals as objects of their
own. Loads at constant offsets, and loops over a constant range, are one load of
the bytes that they cover. Each function has one lemma: inside its buffers it
computes what the function of the same name in `Mpubsub.Wire` computes
(`chacha20Xor_eq`, `poly1305Update_eq`, `chacha20poly1305Decrypt_eq`).
-/

namespace Mpubsub.Wire.InMemory

open Mpubsub.Lib

/-- The objects that the receive path of a node touches. -/
inductive Object where
  | raw
  | key
  | work
  | otk
  | expected
  | zeros
  | lenblk
  | buffer
  | block
deriving DecidableEq

/-- How long they are, for a datagram of `rawLen` bytes. -/
def Object.size (rawLen : Nat) : Object → Nat
  | raw => rawLen
  | key => 32
  | work => MAX_DATAGRAM
  | otk => 32
  | expected => 16
  | zeros => 16
  | lenblk => 16
  | buffer => 16
  | block => 64

/-- A pointer into one of them. -/
abbrev Ptr (rawLen : Nat) := Span (Object.size rawLen)

variable {rawLen : Nat}

/-- The start of an object. -/
def Object.data (o : Object) : Ptr rawLen := Span.whole (Object.size rawLen) o

theorem Object.data_ne {o o' : Object} (h : o ≠ o') : (o.data : Ptr rawLen).obj ≠ o' := h

/-- The key in 32 bytes. -/
def keyOf (bytes : Bytes) : Key := Vector.ofFn fun i => bytes.getD i 0

/-! ## ChaCha20 -/

/-- `chacha20_block`. -/
def chacha20Block (key : Ptr rawLen) (counter : UInt32) (nonce out : Ptr rawLen) :
    Access Object Unit := do
  let k ← key.load 32
  let n ← nonce.load 12
  out.store (Wire.chacha20Block (keyOf k) counter n)

/-- `data[off + i] ^= block[i]`. -/
def xorByte (data block : Ptr rawLen) (off i : Nat) : Access Object Unit := do
  let d ← data.get (off + i)
  let b ← block.get i
  data.set (off + i) (d ^^^ b)

/-- One iteration of the loop in `chacha20_xor`. -/
def chacha20XorBlock (key : Ptr rawLen) (counter : UInt32) (nonce data : Ptr rawLen)
    (len off : Nat) : Access Object Unit := do
  let block : Ptr rawLen := Object.block.data
  chacha20Block key (counter + UInt32.ofNat (off / 64)) nonce block
  let left ← Access.subtract len off
  let n := if left < 64 then left else 64
  Access.iterate (fun i _ => xorByte data block off i) n ()

/-- The loop of `chacha20_xor` from `off` on, for `n` more blocks. -/
def chacha20XorBlocks (key : Ptr rawLen) (counter : UInt32) (nonce data : Ptr rawLen)
    (len : Nat) : Nat → Nat → Access Object Unit
  | 0, _ => pure ()
  | n + 1, off => do
    chacha20XorBlock key counter nonce data len off
    chacha20XorBlocks key counter nonce data len n (off + 64)

/-- `chacha20_xor`. -/
def chacha20Xor (key : Ptr rawLen) (counter : UInt32) (nonce data : Ptr rawLen) (len : Nat) :
    Access Object Unit :=
  Access.scope .block (chacha20XorBlocks key counter nonce data len ((len + 63) / 64) 0)

/-! ## Poly1305 -/

/-- `Poly1305`, with `buffer` in memory. -/
structure Poly1305 where
  r : Vector UInt32 5
  h : Vector UInt32 5
  pad : Vector UInt32 4
  leftover : Nat
  final : Bool

/-- `poly1305_init`. -/
def poly1305Init (key : Ptr rawLen) : Access Object Poly1305 := do
  let k ← key.load 32
  let st := Wire.poly1305Init k
  pure { r := st.r, h := st.h, pad := st.pad, leftover := 0, final := false }

/-- `poly1305_blocks` for `n` whole blocks. -/
def poly1305Blocks (st : Poly1305) : Nat → Ptr rawLen → Access Object Poly1305
  | 0, _ => pure st
  | n + 1, m => do
    let block ← m.load 16
    let m ← m.drop 16
    poly1305Blocks { st with h := Wire.poly1305Block st.final st.r st.h block } n m

/-- The end of `poly1305_update`: what does not fill a block stays in the buffer. -/
def poly1305Keep (st : Poly1305) (m : Ptr rawLen) (bytes : Nat) : Access Object Poly1305 :=
  if bytes ≠ 0 then do
    let behind ← (Object.buffer.data : Ptr rawLen).drop st.leftover
    behind.copy m bytes
    pure { st with leftover := st.leftover + bytes }
  else pure st

/-- `poly1305_update` behind the first `if`. -/
def poly1305Absorb (st : Poly1305) (m : Ptr rawLen) (bytes : Nat) : Access Object Poly1305 :=
  if 16 ≤ bytes then do
    let want := bytes / 16 * 16
    let st ← poly1305Blocks st (want / 16) m
    let m ← m.drop want
    let bytes ← Access.subtract bytes want
    poly1305Keep st m bytes
  else poly1305Keep st m bytes

/-- The start of `poly1305_update`: what is left over is filled up to a block, as far as the
message goes. -/
def poly1305Fill (st : Poly1305) (m : Ptr rawLen) (bytes : Nat) :
    Access Object (Poly1305 × Ptr rawLen × Nat) := do
  let want ← Access.subtract 16 st.leftover
  let want := if want > bytes then bytes else want
  let behind ← (Object.buffer.data : Ptr rawLen).drop st.leftover
  behind.copy m want
  let bytes ← Access.subtract bytes want
  let m ← m.drop want
  pure ({ st with leftover := st.leftover + want }, m, bytes)

/-- `poly1305_update`. -/
def poly1305Update (st : Poly1305) (m : Ptr rawLen) (bytes : Nat) : Access Object Poly1305 :=
  if st.leftover ≠ 0 then do
    let (st, m, bytes) ← poly1305Fill st m bytes
    if st.leftover < 16 then pure st
    else do
      let st ← poly1305Blocks st 1 (Object.buffer.data : Ptr rawLen)
      poly1305Absorb { st with leftover := 0 } m bytes
  else poly1305Absorb st m bytes

/-- The start of `poly1305_finish`: the last partial block. -/
def poly1305Pad (rawLen : Nat) (st : Poly1305) : Access Object Poly1305 :=
  if st.leftover ≠ 0 then do
    let buffer : Ptr rawLen := Object.buffer.data
    buffer.set st.leftover 1
    let zeros ← Access.subtract 16 (st.leftover + 1)
    Access.iterate (fun i _ => buffer.set (st.leftover + 1 + i) 0) zeros ()
    poly1305Blocks { st with final := true } 1 buffer
  else pure st

/-- The state with an empty buffer. -/
def Poly1305.emptied (st : Poly1305) : Wire.Poly1305 :=
  { r := st.r, h := st.h, pad := st.pad, buffer := [], final := st.final }

/-- `poly1305_finish`. Behind the last block, `Wire.poly1305Finish` is its arithmetic. -/
def poly1305Finish (st : Poly1305) (mac : Ptr rawLen) : Access Object Unit := do
  let st ← poly1305Pad rawLen st
  mac.store (Wire.poly1305Finish st.emptied)

/-! ## The AEAD -/

/-- How many zeros fill the last block of `n` bytes. -/
def padLen (n : Nat) : Nat := (16 - n % 16) % 16

/-- `lenblk`: the lengths in four words. -/
def lengths (aadLen ctLen : Nat) : Bytes :=
  let aadLen := UInt64.ofNat aadLen
  let ctLen := UInt64.ofNat ctLen
  storeU32le aadLen.toUInt32 ++ storeU32le (aadLen >>> 32).toUInt32 ++
    storeU32le ctLen.toUInt32 ++ storeU32le (ctLen >>> 32).toUInt32

/-- The body of `aead_tag`. -/
def aeadTagBody (otk aad : Ptr rawLen) (aadLen : Nat) (ct : Ptr rawLen) (ctLen : Nat)
    (tagOut : Ptr rawLen) : Access Object Unit := do
  let zeros : Ptr rawLen := Object.zeros.data
  zeros.store (List.replicate 16 0)
  let st ← poly1305Init otk
  let st ← poly1305Update st aad aadLen
  let st ← poly1305Update st zeros (padLen aadLen)
  let st ← poly1305Update st ct ctLen
  let st ← poly1305Update st zeros (padLen ctLen)
  let lenblk : Ptr rawLen := Object.lenblk.data
  lenblk.store (lengths aadLen ctLen)
  let st ← poly1305Update st lenblk 16
  poly1305Finish st tagOut

/-- `aead_tag`. -/
def aeadTag (otk aad : Ptr rawLen) (aadLen : Nat) (ct : Ptr rawLen) (ctLen : Nat)
    (tagOut : Ptr rawLen) : Access Object Unit :=
  Access.scope .zeros <| Access.scope .lenblk <| Access.scope .buffer <|
    aeadTagBody otk aad aadLen ct ctLen tagOut

/-- `diff |= a[i] ^ b[i]`. -/
def diffByte (a b : Ptr rawLen) (i : Nat) (diff : UInt8) : Access Object UInt8 := do
  let x ← a.get i
  let y ← b.get i
  pure (diff ||| (x ^^^ y))

/-- `ct_eq`. -/
def ctEq (a b : Ptr rawLen) (n : Nat) : Access Object Bool := do
  let diff ← Access.iterate (diffByte a b) n 0
  pure (diff == 0)

/-- `chacha20poly1305_decrypt` up to the comparison of the tags. -/
def tagMatches (key nonce aad : Ptr rawLen) (aadLen : Nat) (buf : Ptr rawLen) (bufLen : Nat)
    (tag : Ptr rawLen) : Access Object Bool := do
  let otk : Ptr rawLen := Object.otk.data
  otk.store (List.replicate 32 0)
  chacha20Xor key 0 nonce otk 32
  let expected : Ptr rawLen := Object.expected.data
  aeadTag otk aad aadLen buf bufLen expected
  ctEq expected tag 16

/-- The body of `chacha20poly1305_decrypt`. -/
def decryptBody (key nonce aad : Ptr rawLen) (aadLen : Nat) (buf : Ptr rawLen) (bufLen : Nat)
    (tag : Ptr rawLen) : Access Object Bool := do
  let same ← tagMatches key nonce aad aadLen buf bufLen tag
  if !same then pure false
  else do
    chacha20Xor key 1 nonce buf bufLen
    pure true

/-- `chacha20poly1305_decrypt`. -/
def chacha20poly1305Decrypt (key nonce aad : Ptr rawLen) (aadLen : Nat) (buf : Ptr rawLen)
    (bufLen : Nat) (tag : Ptr rawLen) : Access Object Bool :=
  Access.scope .otk <| Access.scope .expected <| decryptBody key nonce aad aadLen buf bufLen tag

/-! ## ChaCha20 stays inside -/

theorem chacha20Block_eq {key nonce out : Ptr rawLen} (hkey : 32 ≤ key.len)
    (hnonce : 12 ≤ nonce.len) (hout : 64 ≤ out.len) (counter : UInt32) (heap : Heap Object) :
    chacha20Block key counter nonce out heap =
      some ((), heap.write out 0 (Wire.chacha20Block (keyOf ((heap.read key).take 32)) counter
        ((heap.read nonce).take 12))) := by
  unfold chacha20Block
  rw [Access.bind_eq (Span.load_eq hkey heap), Access.bind_eq (Span.load_eq hnonce heap),
    Span.store_eq (by rw [length_chacha20Block]; exact hout)]

/-- The inner loop of `chacha20_xor`. -/
theorem xorLoop_eq {data block : Ptr rawLen} {off size : Nat} (hobj : block.obj ≠ data.obj)
    (hdata : off + size ≤ data.len) (hblock : size ≤ block.len) (heap : Heap Object) :
    Access.iterate (fun i _ => xorByte data block off i) size () heap =
      some ((), heap.write data off (List.zipWith (· ^^^ ·) (((heap.read data).drop off).take size)
        (heap.read block))) := by
  obtain ⟨xs, hxs⟩ : ∃ xs, xs = List.zipWith (· ^^^ ·) (((heap.read data).drop off).take size)
    (heap.read block) := ⟨_, rfl⟩
  have hlen : xs.length = size := by
    rw [hxs, List.length_zipWith, List.length_take, List.length_drop, Heap.length_read,
      Heap.length_read]
    omega
  have hstep (i : Nat) (hi : i < size) :
      xorByte data block off i (heap.write data off (xs.take i)) =
        some ((), heap.write data off (xs.take (i + 1))) := by
    have htake : (xs.take i).length = i := List.length_take_of_le (by omega)
    -- The `i`-th byte of `data` has not been written yet.
    have hread : ((heap.write data off (xs.take i)).read data).getD (off + i) 0 =
        (heap.read data).getD (off + i) 0 := by
      rw [Heap.read_write heap (by omega), htake, List.getD_append_right _ _ _ _ (by
        rw [List.length_append, List.length_take_of_le (by rw [Heap.length_read]; omega), htake]),
        List.length_append, List.length_take_of_le (by rw [Heap.length_read]; omega), htake,
        Nat.sub_self, List.getD_eq_getElem?_getD, List.getElem?_drop, Nat.add_zero,
        List.getD_eq_getElem?_getD]
    have hxor : (heap.read data).getD (off + i) 0 ^^^ (heap.read block).getD i 0 = xs[i] := by
      subst hxs
      rw [List.getElem_zipWith, List.getElem_take, List.getElem_drop,
        List.getD_eq_getElem _ _ (by rw [Heap.length_read]; omega),
        List.getD_eq_getElem _ _ (by rw [Heap.length_read]; omega)]
    rw [xorByte, Access.bind_eq (Span.get_eq (by omega) _),
      Access.bind_eq (Span.get_eq (by omega) _), Span.set_eq (by omega), hread, Heap.read_write_of_ne heap hobj, hxor]
    have hbehind := Heap.write_write heap data off (xs.take i) [xs[i]]
    rw [htake] at hbehind
    rw [hbehind, List.take_append_getElem]
  have hloop : Access.iterate (fun i _ => xorByte data block off i) size ()
      (heap.write data off (xs.take 0)) = some ((), heap.write data off (xs.take size)) :=
    Access.iterate_unit_eq (fun i => heap.write data off (xs.take i)) hstep
  rw [List.take_zero, Heap.write_nil] at hloop
  rw [hloop, List.take_of_length_le (by omega), hxs]

/-- The nonce is not among the data. -/
def Apart (nonce data : Ptr rawLen) : Prop :=
  nonce.obj ≠ data.obj ∨ nonce.off + nonce.len ≤ data.off

theorem Apart.read_write {nonce data : Ptr rawLen} (h : Apart nonce data) (heap : Heap Object)
    (off : Nat) (bytes : Bytes) : (heap.write data off bytes).read nonce = heap.read nonce :=
  h.elim (fun hobj => Heap.read_write_of_ne heap hobj off bytes)
    fun hle => Heap.read_write_of_le heap hle off bytes

/-- What `chacha20_xor` asks of its pointers. -/
structure XorFits (key nonce data : Ptr rawLen) (len : Nat) : Prop where
  keyLen : 32 ≤ key.len
  nonceLen : 12 ≤ nonce.len
  dataLen : len ≤ data.len
  keyLocal : key.obj ≠ .block
  nonceLocal : nonce.obj ≠ .block
  dataLocal : data.obj ≠ .block
  keyApart : key.obj ≠ data.obj
  nonceApart : Apart nonce data

theorem chacha20XorBlock_eq {key nonce data : Ptr rawLen} {len : Nat}
    (h : XorFits key nonce data len) (counter : UInt32) {off : Nat} (hoff : off ≤ len)
    (heap : Heap Object) :
    ∃ g, chacha20XorBlock key counter nonce data len off heap =
      some ((), Function.update (heap.write data off
        (List.zipWith (· ^^^ ·) ((((heap.read data).take len).drop off).take 64)
          (Wire.chacha20Block (keyOf ((heap.read key).take 32))
            (counter + UInt32.ofNat (off / 64)) ((heap.read nonce).take 12)))) .block g) := by
  obtain ⟨out, hout⟩ : ∃ out, out = Wire.chacha20Block (keyOf ((heap.read key).take 32))
    (counter + UInt32.ofNat (off / 64)) ((heap.read nonce).take 12) := ⟨_, rfl⟩
  have hlen : out.length = (Object.block.data : Ptr rawLen).len := by
    rw [hout]
    exact length_chacha20Block ..
  have hread : (heap.write (Object.block.data : Ptr rawLen) 0 out).read data = heap.read data :=
    heap.read_write_of_ne h.dataLocal 0 out
  have hsize : (if len - off < 64 then len - off else 64) ≤ 64 := by
    split <;> omega
  have hinside : off + (if len - off < 64 then len - off else 64) ≤ data.len := by
    have := h.dataLen
    split <;> omega
  -- The bytes that are xored are the next 64, or what is left of them.
  have hpiece : ((heap.read data).drop off).take (if len - off < 64 then len - off else 64) =
      (((heap.read data).take len).drop off).take 64 := by
    rw [List.drop_take, List.take_take]
    congr 1
    split <;> omega
  rw [← hout, chacha20XorBlock,
    Access.bind_eq (chacha20Block_eq h.keyLen h.nonceLen (le_refl 64) _ heap), ← hout,
    Access.bind_eq (Access.subtract_eq hoff _),
    xorLoop_eq (Ne.symm h.dataLocal) hinside hsize, hread, heap.read_write_self hlen, hpiece]
  refine ⟨(heap .block).store 0 out, ?_⟩
  rw [← heap.write_update h.dataLocal]
  rfl

theorem chacha20XorBlocks_eq {key nonce data : Ptr rawLen} {len : Nat}
    (h : XorFits key nonce data len) (counter : UInt32) {n j : Nat}
    (hn : n = (len - 64 * j + 63) / 64) (heap : Heap Object) :
    ∃ g, chacha20XorBlocks key counter nonce data len n (64 * j) heap =
      some ((), Function.update (heap.write data (64 * j)
        (Wire.chacha20XorBlocks (keyOf ((heap.read key).take 32)) ((heap.read nonce).take 12) n
          (counter + UInt32.ofNat j) (((heap.read data).take len).drop (64 * j)))) .block g) := by
  induction n generalizing j heap with
  | zero =>
    have hdone : ((heap.read data).take len).drop (64 * j) = [] :=
      List.drop_eq_nil_of_le (by rw [List.length_take]; omega)
    refine ⟨heap .block, ?_⟩
    rw [chacha20XorBlocks, Access.pure_eq, Wire.chacha20XorBlocks, hdone, Heap.write_nil,
      Function.update_eq_self]
  | succ n ih =>
    obtain ⟨g, hg⟩ := chacha20XorBlock_eq h counter (by omega : 64 * j ≤ len) heap
    rw [Nat.mul_div_cancel_left _ (by decide)] at hg
    obtain ⟨xs, hxs⟩ : ∃ xs, xs = List.zipWith (· ^^^ ·)
      ((((heap.read data).take len).drop (64 * j)).take 64) (Wire.chacha20Block
        (keyOf ((heap.read key).take 32)) (counter + UInt32.ofNat j)
        ((heap.read nonce).take 12)) := ⟨_, rfl⟩
    rw [← hxs] at hg
    obtain ⟨heap', hheap'⟩ : ∃ heap' : Heap Object, heap' =
      Function.update (heap.write data (64 * j) xs) .block g := ⟨_, rfl⟩
    have hxlen : xs.length = min 64 (len - 64 * j) := by
      have := h.dataLen
      rw [hxs, List.length_zipWith, length_chacha20Block, List.length_take, List.length_drop,
        List.length_take, Heap.length_read]
      omega
    have hkey : heap'.read key = heap.read key := by
      rw [hheap', Heap.read_update _ h.keyLocal, Heap.read_write_of_ne _ h.keyApart]
    have hnonce : heap'.read nonce = heap.read nonce := by
      rw [hheap', Heap.read_update _ h.nonceLocal, h.nonceApart.read_write]
    -- Behind the block, nothing was written.
    have hrest : ((heap'.read data).take len).drop (64 * (j + 1)) =
        ((heap.read data).take len).drop (64 * (j + 1)) := by
      have := h.dataLen
      rw [hheap', Heap.read_update _ h.dataLocal, List.drop_take, List.drop_take,
        Heap.drop_read_write heap (by omega) (by omega)]
    obtain ⟨g', hg'⟩ := ih (j := j + 1) (by omega) heap'
    refine ⟨g', ?_⟩
    rw [hkey, hnonce, hrest] at hg'
    rw [chacha20XorBlocks, Access.bind_eq hg, ← hheap']
    refine hg'.trans ?_
    obtain ⟨rest, hys⟩ : ∃ ys, ys = Wire.chacha20XorBlocks (keyOf ((heap.read key).take 32))
      ((heap.read nonce).take 12) n (counter + UInt32.ofNat (j + 1))
      (((heap.read data).take len).drop (64 * (j + 1))) := ⟨_, rfl⟩
    have hall : Wire.chacha20XorBlocks (keyOf ((heap.read key).take 32))
        ((heap.read nonce).take 12) (n + 1) (counter + UInt32.ofNat j)
        (((heap.read data).take len).drop (64 * j)) = xs ++ rest := by
      rw [hys, UInt32.ofNat_add, ← UInt32.add_assoc, Nat.mul_succ, ← List.drop_drop, hxs]
      rfl
    -- A partial block is the last one.
    have hnext : (heap.write data (64 * j) xs).write data (64 * (j + 1)) rest =
        heap.write data (64 * j) (xs ++ rest) := by
      by_cases hfull : xs.length = 64
      · rw [← heap.write_write, hfull, Nat.mul_succ]
      · have hnil : rest = [] := List.eq_nil_of_length_eq_zero (by
          rw [hys, length_chacha20XorBlocks, List.length_drop, List.length_take]
          omega)
        rw [hnil, Heap.write_nil, List.append_nil]
    rw [← hys, hheap', Heap.write_update _ h.dataLocal, Function.update_idem, hnext, hall]

/-- `chacha20_xor` writes nothing but its `len` bytes. -/
theorem chacha20Xor_eq {key nonce data : Ptr rawLen} {len : Nat} (h : XorFits key nonce data len)
    (counter : UInt32) (heap : Heap Object) :
    chacha20Xor key counter nonce data len heap =
      some ((), heap.write data 0 (Wire.chacha20Xor (keyOf ((heap.read key).take 32)) counter
        ((heap.read nonce).take 12) ((heap.read data).take len))) := by
  have hlen : ((heap.read data).take len).length = len :=
    List.length_take_of_le (by rw [Heap.length_read]; exact h.dataLen)
  obtain ⟨g, hg⟩ := chacha20XorBlocks_eq h counter (n := (len + 63) / 64) (j := 0) rfl heap
  rw [Nat.mul_zero, List.drop_zero, show UInt32.ofNat 0 = 0 from rfl, UInt32.add_zero] at hg
  rw [chacha20Xor, Wire.chacha20Xor, hlen]
  exact Access.scope_eq hg (Function.update_of_ne h.dataLocal.symm ..)

/-! ## Poly1305 stays inside -/

theorem poly1305Init_eq {key : Ptr rawLen} (h : 32 ≤ key.len) (heap : Heap Object) :
    poly1305Init key heap = some ({
      r := (Wire.poly1305Init ((heap.read key).take 32)).r
      h := (Wire.poly1305Init ((heap.read key).take 32)).h
      pad := (Wire.poly1305Init ((heap.read key).take 32)).pad
      leftover := 0
      final := false }, heap) := by
  rw [poly1305Init, Access.bind_eq (Span.load_eq h heap), Access.pure_eq]

theorem poly1305Blocks_eq (st : Poly1305) {n : Nat} {m : Ptr rawLen} (h : 16 * n ≤ m.len)
    (heap : Heap Object) :
    poly1305Blocks st n m heap =
      some ({ st with h := Wire.poly1305Blocks st.final st.r n st.h (heap.read m) }, heap) := by
  induction n generalizing st m with
  | zero => rfl
  | succ n ih =>
    have hblock : Wire.poly1305Block st.final st.r st.h ((heap.read m).take 16) =
        Wire.poly1305Block st.final st.r st.h (heap.read m) := by
      rw [← poly1305Block_append st.final st.r st.h ((heap.read m).drop 16) (by
        rw [List.length_take, Heap.length_read]; omega), List.take_append_drop]
    rw [poly1305Blocks, Access.bind_eq (Span.load_eq (by omega) heap),
      Access.bind_eq (Span.drop_eq (by omega) heap), ih _ (by show _ ≤ m.len - 16; omega),
      Heap.read_rest, hblock, Wire.poly1305Blocks]

/-- The state with what is left over. -/
def Poly1305.view (st : Poly1305) (rawLen : Nat) (heap : Heap Object) : Wire.Poly1305 :=
  { r := st.r, h := st.h, pad := st.pad, final := st.final
    buffer := (heap.read (Object.buffer.data : Ptr rawLen)).take st.leftover }

/-- From `heap`, the computation changes nothing but the buffer, and ends in a state that stands
for `p`. -/
def Updates (rawLen : Nat) (c : Access Object Poly1305) (heap : Heap Object)
    (p : Wire.Poly1305) : Prop :=
  ∃ st g, c heap = some (st, Function.update heap .buffer g) ∧ st.leftover < 16 ∧
    st.view rawLen (Function.update heap .buffer g) = p

/-- Bytes behind what is left over. -/
theorem read_behind (rawLen : Nat) (heap : Heap Object) (left : Nat) (bytes : Bytes)
    (h : left + bytes.length ≤ 16) :
    ((heap.write (Object.buffer.data : Ptr rawLen) left bytes).read
        (Object.buffer.data : Ptr rawLen)).take (left + bytes.length) =
      (heap.read (Object.buffer.data : Ptr rawLen)).take left ++ bytes := by
  have hlen : ((heap.read (Object.buffer.data : Ptr rawLen)).take left ++ bytes).length =
      left + bytes.length := by
    rw [List.length_append, List.length_take_of_le (by
      rw [Heap.length_read]
      show left ≤ 16
      omega)]
  rw [Heap.read_write heap (s := (Object.buffer.data : Ptr rawLen)) h, ← hlen, List.take_left]

theorem poly1305Keep_updates (st : Poly1305) (m : Ptr rawLen) (bytes : Nat)
    (hleft : st.leftover + bytes < 16) (hm : bytes ≤ m.len) (heap : Heap Object) :
    Updates rawLen (poly1305Keep st m bytes) heap { st.view rawLen heap with
      buffer := (st.view rawLen heap).buffer ++ (heap.read m).take bytes } := by
  unfold poly1305Keep
  split
  · have hlen : ((heap.read m).take bytes).length = bytes :=
      List.length_take_of_le (by rw [Heap.length_read]; exact hm)
    have hbehind : st.leftover + (16 - st.leftover) ≤ 16 := by omega
    have hread := read_behind rawLen heap st.leftover ((heap.read m).take bytes) (by omega)
    rw [hlen] at hread
    refine ⟨{ st with leftover := st.leftover + bytes },
      (heap .buffer).store (0 + st.leftover) ((heap.read m).take bytes), ?_, hleft, ?_⟩
    · rw [Access.bind_eq (Span.drop_eq hbehind heap),
        Access.bind_eq (Span.copy_eq hm (by show bytes ≤ 16 - st.leftover; omega) heap),
        Access.pure_eq]
      rfl
    · exact congrArg (fun buffer => { st.view rawLen heap with buffer := buffer }) hread
  · rename_i hzero
    rw [not_not.mp hzero, List.take_zero, List.append_nil]
    exact ⟨st, heap .buffer, by rw [Access.pure_eq, Function.update_eq_self], by omega,
      by rw [Function.update_eq_self]⟩

theorem poly1305Absorb_updates (st : Poly1305) (m : Ptr rawLen) (bytes : Nat)
    (hleft : st.leftover = 0) (hm : bytes ≤ m.len) (heap : Heap Object) :
    Updates rawLen (poly1305Absorb st m bytes) heap
      (Wire.poly1305Absorb (st.view rawLen heap) ((heap.read m).take bytes)) := by
  obtain ⟨n, hn⟩ : ∃ n, n = bytes / 16 := ⟨_, rfl⟩
  have hlen : ((heap.read m).take bytes).length = bytes :=
    List.length_take_of_le (by rw [Heap.length_read]; exact hm)
  have hempty : (heap.read (Object.buffer.data : Ptr rawLen)).take st.leftover = [] := by
    rw [hleft, List.take_zero]
  unfold poly1305Absorb Wire.poly1305Absorb Poly1305.view
  rw [hlen, ← hn]
  split
  · have hblocks : Wire.poly1305Blocks st.final st.r n st.h ((heap.read m).take bytes) =
        Wire.poly1305Blocks st.final st.r n st.h (heap.read m) := by
      rw [← poly1305Blocks_append st.final st.r n st.h ((heap.read m).drop bytes) (by
        rw [hlen]; omega), List.take_append_drop]
    have hinside : n * 16 + (m.len - n * 16) ≤ m.len := by omega
    have hrest : (heap.read (m.part (n * 16) (m.len - n * 16) hinside)).take (bytes - n * 16) =
        ((heap.read m).take bytes).drop (n * 16) := by
      rw [Heap.read_rest, List.drop_take]
    have hkeep := poly1305Keep_updates
      { st with h := Wire.poly1305Blocks st.final st.r n st.h (heap.read m) }
      (m.part (n * 16) (m.len - n * 16) hinside) (bytes - n * 16)
      (by show st.leftover + _ < 16; omega) (by show _ ≤ m.len - n * 16; omega) heap
    unfold Poly1305.view at hkeep
    rw [hrest] at hkeep
    simp only [hempty, List.nil_append] at hkeep
    simp only [hblocks]
    unfold Updates at hkeep ⊢
    rw [Nat.mul_div_cancel _ (by decide : 0 < 16), Access.bind_eq (poly1305Blocks_eq st (by omega) heap),
      Access.bind_eq (Span.drop_eq hinside heap), Access.bind_eq (Access.subtract_eq (by omega) heap)]
    exact hkeep
  · have hkeep := poly1305Keep_updates st m bytes (by omega) hm heap
    have hzero : n = 0 := by omega
    unfold Poly1305.view at hkeep
    simp only [hempty, List.nil_append] at hkeep
    simp only [hzero, Nat.zero_mul, List.drop_zero, Wire.poly1305Blocks]
    exact hkeep

theorem poly1305Fill_eq (st : Poly1305) {m : Ptr rawLen} {bytes want : Nat}
    (hleft : st.leftover < 16) (hm : bytes ≤ m.len) (hwant : want = min (16 - st.leftover) bytes)
    (hinside : want + (m.len - want) ≤ m.len) (heap : Heap Object) :
    poly1305Fill st m bytes heap =
      some (({ st with leftover := st.leftover + want }, m.part want (m.len - want) hinside,
        bytes - want),
        heap.write (Object.buffer.data : Ptr rawLen) st.leftover ((heap.read m).take want)) := by
  have hmin : (if 16 - st.leftover > bytes then bytes else 16 - st.leftover) = want := by
    split <;> omega
  have hsixteen : (Object.buffer.data : Ptr rawLen).len = 16 := rfl
  have hbehind : st.leftover + ((Object.buffer.data : Ptr rawLen).len - st.leftover) ≤
      (Object.buffer.data : Ptr rawLen).len := by omega
  have hfits : want ≤ (Object.buffer.data : Ptr rawLen).len - st.leftover := by omega
  have hle : want ≤ m.len := Nat.le_trans (by omega) hm
  rw [poly1305Fill, Access.bind_eq (Access.subtract_eq hleft.le heap), hmin,
    Access.bind_eq (Span.drop_eq hbehind heap),
    Access.bind_eq (Span.copy_eq hle hfits heap), Heap.write_part,
    Access.bind_eq (Access.subtract_eq (by omega) _), Access.bind_eq (Span.drop_eq hinside _),
    Access.pure_eq]

theorem poly1305Update_updates (st : Poly1305) {m : Ptr rawLen} {bytes : Nat}
    (hleft : st.leftover < 16) (hm : bytes ≤ m.len) (hobj : m.obj ≠ .buffer)
    (heap : Heap Object) :
    Updates rawLen (poly1305Update st m bytes) heap
      (Wire.poly1305Update (st.view rawLen heap) ((heap.read m).take bytes)) := by
  have hlen : ((heap.read m).take bytes).length = bytes :=
    List.length_take_of_le (by rw [Heap.length_read]; exact hm)
  have hbuffer : (st.view rawLen heap).buffer.length = st.leftover :=
    List.length_take_of_le (by rw [Heap.length_read]; exact hleft.le)
  unfold poly1305Update Wire.poly1305Update
  rw [hbuffer, hlen]
  by_cases hzero : st.leftover = 0
  · rw [if_neg (not_not.mpr hzero), if_neg (not_not.mpr hzero)]
    exact poly1305Absorb_updates st m bytes hzero hm heap
  rw [if_pos hzero, if_pos hzero]
  -- The block that waits is filled first; `heap'` is the memory behind that.
  obtain ⟨want, hwant⟩ : ∃ want, want = min (16 - st.leftover) bytes := ⟨_, rfl⟩
  have htake : ((heap.read m).take bytes).take want = (heap.read m).take want := by
    rw [List.take_take, Nat.min_eq_left (by omega)]
  have hbytes : ((heap.read m).take want).length = want :=
    List.length_take_of_le (by rw [Heap.length_read]; omega)
  obtain ⟨heap', hheap'⟩ : ∃ heap', heap' =
    heap.write (Object.buffer.data : Ptr rawLen) st.leftover ((heap.read m).take want) := ⟨_, rfl⟩
  have hfilled : (heap'.read (Object.buffer.data : Ptr rawLen)).take (st.leftover + want) =
      (st.view rawLen heap).buffer ++ (heap.read m).take want := by
    have hread := read_behind rawLen heap st.leftover ((heap.read m).take want) (by omega)
    rw [hbytes, ← hheap'] at hread
    exact hread
  have hinside : want + (m.len - want) ≤ m.len := by omega
  have hfill := poly1305Fill_eq st hleft hm hwant hinside heap
  rw [← hheap'] at hfill
  obtain ⟨g, hupdate⟩ : ∃ g, heap' = Function.update heap .buffer g := ⟨_, hheap'⟩
  unfold Updates
  rw [Access.bind_eq hfill]
  simp only [← hwant, htake, List.length_append, hbuffer, hbytes]
  split
  · rename_i hshort
    refine ⟨{ st with leftover := st.leftover + want }, g, ?_, hshort, ?_⟩
    · rw [Access.pure_eq, hupdate]
    · rw [← hupdate]
      exact congrArg (fun buffer => { st.view rawLen heap with buffer := buffer }) hfilled
  · have hfull : st.leftover + want = 16 := by omega
    have hwhole : heap'.read (Object.buffer.data : Ptr rawLen) =
        (st.view rawLen heap).buffer ++ (heap.read m).take want := by
      rw [← hfilled, hfull, List.take_of_length_le (by rw [Heap.length_read]; exact le_refl 16)]
    have hrest : (heap'.read (m.part want (m.len - want) hinside)).take (bytes - want) =
        ((heap.read m).take bytes).drop want := by
      rw [Heap.read_rest, hheap', Heap.read_write_of_ne heap hobj, List.drop_take]
    obtain ⟨st', g', hrun, hlt, hview⟩ := poly1305Absorb_updates
      { st with h := Wire.poly1305Blocks st.final st.r 1 st.h (heap'.read (Object.buffer.data :
          Ptr rawLen)), leftover := 0 } (m.part want (m.len - want) hinside) (bytes - want) rfl (by show _ ≤ m.len - want; omega) heap'
    have hidem : Function.update heap' .buffer g' = Function.update heap .buffer g' := by
      rw [hupdate, Function.update_idem]
    refine ⟨st', g', ?_, hlt, ?_⟩
    · rw [Access.bind_eq (poly1305Blocks_eq _ (le_refl 16) heap'), ← hidem]
      exact hrun
    · rw [← hidem, hview, hrest, hwhole]
      rfl

/-- The padding of the last block. -/
theorem padLoop_eq {left : Nat} (h : left < 16) (heap : Heap Object) :
    Access.iterate (fun i _ => (Object.buffer.data : Ptr rawLen).set (left + 1 + i) 0)
        (16 - (left + 1)) () (heap.write (Object.buffer.data : Ptr rawLen) left [1]) =
      some ((), heap.write (Object.buffer.data : Ptr rawLen) left
        ([1] ++ List.replicate (15 - left) 0)) := by
  have hstep (i : Nat) (hi : i < 16 - (left + 1)) :
      (Object.buffer.data : Ptr rawLen).set (left + 1 + i) 0
          (heap.write (Object.buffer.data : Ptr rawLen) left ([1] ++ List.replicate i 0)) =
        some ((), heap.write (Object.buffer.data : Ptr rawLen) left
          ([1] ++ List.replicate (i + 1) 0)) := by
    have hbehind := heap.write_write (Object.buffer.data : Ptr rawLen) left
      ([1] ++ List.replicate i 0) [0]
    rw [List.length_append, List.length_replicate, List.length_singleton, ← Nat.add_assoc,
      List.append_assoc, ← List.replicate_succ'] at hbehind
    rw [Span.set_eq (by show _ < 16; omega), hbehind]
  have hloop := Access.iterate_unit_eq
    (fun i => heap.write (Object.buffer.data : Ptr rawLen) left ([1] ++ List.replicate i 0)) hstep
  rw [List.replicate_zero, List.append_nil, show 16 - (left + 1) = 15 - left by omega] at hloop
  rw [show 16 - (left + 1) = 15 - left by omega, hloop]

theorem poly1305Pad_eq (rawLen : Nat) (st : Poly1305) (hleft : st.leftover < 16) (heap : Heap Object) :
    ∃ st' g, poly1305Pad rawLen st heap = some (st', Function.update heap .buffer g) ∧
      Wire.poly1305Finish st'.emptied = Wire.poly1305Finish (st.view rawLen heap) := by
  have hbuffer : (st.view rawLen heap).buffer.length = st.leftover :=
    List.length_take_of_le (by rw [Heap.length_read]; exact hleft.le)
  by_cases hzero : st.leftover = 0
  · have hempty : (st.view rawLen heap).buffer = [] := List.eq_nil_of_length_eq_zero (by omega)
    have hview : st.view rawLen heap = st.emptied := by
      rw [Poly1305.emptied, ← hempty]
      rfl
    refine ⟨st, heap .buffer, ?_, by rw [hview]⟩
    rw [poly1305Pad, if_neg (not_not.mpr hzero), Access.pure_eq, Function.update_eq_self]
  · obtain ⟨heap', hheap'⟩ : ∃ heap', heap' = heap.write (Object.buffer.data : Ptr rawLen)
      st.leftover ([1] ++ List.replicate (15 - st.leftover) 0) := ⟨_, rfl⟩
    obtain ⟨g, hupdate⟩ : ∃ g, heap' = Function.update heap .buffer g := ⟨_, hheap'⟩
    have hread : heap'.read (Object.buffer.data : Ptr rawLen) =
        (st.view rawLen heap).buffer ++ [1] ++ List.replicate (15 - st.leftover) 0 := by
      have hlen : ([1] ++ List.replicate (15 - st.leftover) 0 : Bytes).length =
          16 - st.leftover := by
        rw [List.length_append, List.length_replicate, List.length_singleton]
        omega
      have hall := read_behind rawLen heap st.leftover
        ([1] ++ List.replicate (15 - st.leftover) 0) (by omega)
      rw [hlen, Nat.add_sub_cancel' hleft.le, ← hheap', List.take_of_length_le (by
        rw [Heap.length_read]; exact le_refl 16), ← List.append_assoc] at hall
      exact hall
    refine ⟨{ st with
      h := Wire.poly1305Blocks true st.r 1 st.h (heap'.read (Object.buffer.data : Ptr rawLen))
      final := true }, g, ?_, ?_⟩
    · rw [poly1305Pad, if_pos hzero, ← hupdate]
      rw [Access.bind_eq (Span.set_eq (by exact hleft) 1 heap),
        Access.bind_eq (Access.subtract_eq (by omega) _),
        Access.bind_eq (padLoop_eq hleft heap), ← hheap',
        poly1305Blocks_eq _ (le_refl 16) heap']
    · have hblocks : finishBlocks (st.view rawLen heap) = Wire.poly1305Blocks true st.r 1 st.h
          (heap'.read (Object.buffer.data : Ptr rawLen)) := by
        rw [finishBlocks, if_pos (by omega : (st.view rawLen heap).buffer.length ≠ 0), hbuffer,
          hread]
        rfl
      rw [poly1305Finish_eq, poly1305Finish_eq, hblocks]
      rfl

theorem poly1305Finish_eq (st : Poly1305) {mac : Ptr rawLen} (hleft : st.leftover < 16)
    (hmac : 16 ≤ mac.len) (hobj : mac.obj ≠ .buffer) (heap : Heap Object) :
    ∃ g, poly1305Finish st mac heap =
      some ((), Function.update (heap.write mac 0 (Wire.poly1305Finish (st.view rawLen heap)))
        .buffer g) := by
  obtain ⟨st', g, hpad, hfinish⟩ := poly1305Pad_eq rawLen st hleft heap
  refine ⟨g, ?_⟩
  rw [poly1305Finish, Access.bind_eq hpad, Span.store_eq (by exact hmac), hfinish,
    Heap.write_update _ hobj]

/-! ## The AEAD stays inside -/

/-- An object that is no local of `aead_tag`. -/
def Object.Outside (o : Object) : Prop := o ≠ .zeros ∧ o ≠ .lenblk ∧ o ≠ .buffer

/-- What `aead_tag` asks of its pointers. -/
structure TagFits (otk aad : Ptr rawLen) (aadLen : Nat) (ct : Ptr rawLen) (ctLen : Nat)
    (tagOut : Ptr rawLen) : Prop where
  otkLen : 32 ≤ otk.len
  aadLen : aadLen ≤ aad.len
  ctLen : ctLen ≤ ct.len
  tagLen : 16 ≤ tagOut.len
  otkOutside : otk.obj.Outside
  aadOutside : aad.obj.Outside
  ctOutside : ct.obj.Outside
  tagOutside : tagOut.obj.Outside

/-- An update, from a heap in which the buffer may hold anything. -/
theorem poly1305Update_eq (st : Poly1305) (m : Ptr rawLen) (bytes : Nat)
    (hleft : st.leftover < 16) (hm : bytes ≤ m.len) (hobj : m.obj ≠ .buffer)
    (heap : Heap Object) (g : Mem) {β : Type} (f : Poly1305 → Access Object β) :
    ∃ st' g', (poly1305Update st m bytes >>= f) (Function.update heap .buffer g) =
        f st' (Function.update heap .buffer g') ∧ st'.leftover < 16 ∧
      st'.view rawLen (Function.update heap .buffer g') =
        Wire.poly1305Update (st.view rawLen (Function.update heap .buffer g))
          ((heap.read m).take bytes) := by
  obtain ⟨st', g', hrun, hlt, hview⟩ :=
    poly1305Update_updates st hleft hm hobj (Function.update heap .buffer g)
  rw [Function.update_idem] at hrun hview
  rw [Heap.read_update _ hobj] at hview
  exact ⟨st', g', Access.bind_eq hrun, hlt, hview⟩

theorem view_update (st : Poly1305) (heap heap' : Heap Object) (g : Mem) :
    st.view rawLen (Function.update heap .buffer g) =
      st.view rawLen (Function.update heap' .buffer g) := by
  unfold Poly1305.view Heap.read
  rw [show (Object.buffer.data : Ptr rawLen).obj = Object.buffer from rfl, Function.update_self,
    Function.update_self]

theorem aeadTagBody_eq {otk aad : Ptr rawLen} {aadLen : Nat} {ct : Ptr rawLen} {ctLen : Nat}
    {tagOut : Ptr rawLen} (h : TagFits otk aad aadLen ct ctLen tagOut) (heap : Heap Object) :
    ∃ z l g, aeadTagBody otk aad aadLen ct ctLen tagOut heap = some ((),
      Function.update (Function.update (Function.update (heap.write tagOut 0
        (Wire.aeadTag ((heap.read otk).take 32) ((heap.read aad).take aadLen)
          ((heap.read ct).take ctLen))) .zeros z) .lenblk l) .buffer g) := by
  obtain ⟨heap0, hheap0⟩ : ∃ heap0, heap0 =
    heap.write (Object.zeros.data : Ptr rawLen) 0 (List.replicate 16 0) := ⟨_, rfl⟩
  obtain ⟨z, hz⟩ : ∃ z, heap0 = Function.update heap .zeros z := ⟨_, hheap0⟩
  obtain ⟨heap1, hheap1⟩ : ∃ heap1, heap1 =
    heap0.write (Object.lenblk.data : Ptr rawLen) 0 (lengths aadLen ctLen) := ⟨_, rfl⟩
  obtain ⟨l, hl⟩ : ∃ l, heap1 = Function.update heap0 .lenblk l := ⟨_, hheap1⟩
  have hread {s : Ptr rawLen} (hs : s.obj.Outside) : heap0.read s = heap.read s := by
    rw [hz, Heap.read_update _ hs.1]
  have hzeros (n : Nat) : (heap0.read (Object.zeros.data : Ptr rawLen)).take (padLen n) =
      List.replicate (padLen n) 0 := by
    rw [hheap0, Heap.read_write_self _ (by rw [List.length_replicate]; rfl), List.take_replicate,
      Nat.min_eq_left (by unfold padLen; omega)]
  have hlenblk : (heap1.read (Object.lenblk.data : Ptr rawLen)).take 16 = lengths aadLen ctLen := by
    rw [hheap1, Heap.read_write_self _ rfl]
    exact List.take_of_length_le (le_refl 16)
  have hpad (n : Nat) : padLen n ≤ 16 := by unfold padLen; omega
  unfold aeadTagBody
  rw [Access.bind_eq (Span.store_eq (by rw [List.length_replicate]; exact le_refl 16) heap),
    ← hheap0, Access.bind_eq (poly1305Init_eq h.otkLen heap0), hread h.otkOutside]
  obtain ⟨st0, hst0⟩ : ∃ st0 : Poly1305, st0 = {
      r := (Wire.poly1305Init ((heap.read otk).take 32)).r
      h := (Wire.poly1305Init ((heap.read otk).take 32)).h
      pad := (Wire.poly1305Init ((heap.read otk).take 32)).pad
      leftover := 0
      final := false } := ⟨_, rfl⟩
  rw [← hst0]
  have hview0 : st0.view rawLen (Function.update heap0 .buffer (heap0 .buffer)) =
      Wire.poly1305Init ((heap.read otk).take 32) := by
    rw [hst0]
    rfl
  -- The first four updates, from `heap0`.
  rw [← Function.update_eq_self Object.buffer heap0]
  obtain ⟨st1, g1, hrun1, hlt1, hview1⟩ := poly1305Update_eq st0 aad aadLen
    (by rw [hst0]; exact Nat.zero_lt_succ 15)
    h.aadLen h.aadOutside.2.2 heap0 (heap0 .buffer) _
  rw [hrun1]
  obtain ⟨st2, g2, hrun2, hlt2, hview2⟩ := poly1305Update_eq st1 (Object.zeros.data : Ptr rawLen)
    (padLen aadLen) hlt1 (hpad _) (Object.data_ne (by decide)) heap0 g1 _
  rw [hrun2]
  obtain ⟨st3, g3, hrun3, hlt3, hview3⟩ := poly1305Update_eq st2 ct ctLen hlt2 h.ctLen
    h.ctOutside.2.2 heap0 g2 _
  rw [hrun3]
  obtain ⟨st4, g4, hrun4, hlt4, hview4⟩ := poly1305Update_eq st3 (Object.zeros.data : Ptr rawLen)
    (padLen ctLen) hlt3 (hpad _) (Object.data_ne (by decide)) heap0 g3 _
  rw [hrun4]
  -- The lengths, and the last update, from `heap1`.
  have hstore : (Object.lenblk.data : Ptr rawLen).store (lengths aadLen ctLen)
      (Function.update heap0 .buffer g4) = some ((), Function.update heap1 .buffer g4) := by
    rw [Span.store_eq (le_refl 16), Heap.write_update _ (Object.data_ne (by decide)), hheap1]
  rw [Access.bind_eq hstore]
  obtain ⟨st5, g5, hrun5, hlt5, hview5⟩ := poly1305Update_eq st4 (Object.lenblk.data : Ptr rawLen)
    16 hlt4 (le_refl 16) (Object.data_ne (by decide)) heap1 g4 _
  rw [hrun5]
  obtain ⟨g6, hfinish⟩ := poly1305Finish_eq st5 hlt5 h.tagLen h.tagOutside.2.2
    (Function.update heap1 .buffer g5)
  have hheap (tag : Bytes) : Function.update (Heap.write (Function.update heap1 .buffer g5) tagOut 0
        tag) .buffer g6 = Function.update (Function.update (Function.update
          (heap.write tagOut 0 tag) .zeros z) .lenblk l) .buffer g6 := by
    rw [Heap.write_update _ h.tagOutside.2.2, Function.update_idem, hl,
      Heap.write_update _ h.tagOutside.2.1, hz, Heap.write_update _ h.tagOutside.1]
  rw [hview5, view_update st4 heap1 heap0, hview4, hview3, hview2, hview1, hview0, hread
    h.aadOutside, hread h.ctOutside, hzeros, hzeros, hlenblk, hheap] at hfinish
  have haad : ((heap.read aad).take aadLen).length = aadLen :=
    List.length_take_of_le (by rw [Heap.length_read]; exact h.aadLen)
  have hct : ((heap.read ct).take ctLen).length = ctLen :=
    List.length_take_of_le (by rw [Heap.length_read]; exact h.ctLen)
  refine ⟨z, l, g6, hfinish.trans ?_⟩
  unfold Wire.aeadTag
  rw [haad, hct]
  rfl

/-- `aead_tag` writes nothing but the tag. -/
theorem aeadTag_eq {otk aad : Ptr rawLen} {aadLen : Nat} {ct : Ptr rawLen} {ctLen : Nat}
    {tagOut : Ptr rawLen} (h : TagFits otk aad aadLen ct ctLen tagOut) (heap : Heap Object) :
    aeadTag otk aad aadLen ct ctLen tagOut heap =
      some ((), heap.write tagOut 0 (Wire.aeadTag ((heap.read otk).take 32)
        ((heap.read aad).take aadLen) ((heap.read ct).take ctLen))) := by
  obtain ⟨hzeros, hlenblk, hbuffer⟩ := h.tagOutside
  obtain ⟨z, l, g, hbody⟩ := aeadTagBody_eq h heap
  have hkeep (o : Object) (ho : tagOut.obj ≠ o) (bytes : Bytes) :
      heap.write tagOut 0 bytes o = heap o := Function.update_of_ne ho.symm ..
  refine Access.scope_eq (Access.scope_eq (Access.scope_eq hbody ?_) ?_) ?_
  · rw [Function.update_of_ne (by decide : Object.buffer ≠ .lenblk),
      Function.update_of_ne (by decide : Object.buffer ≠ .zeros), hkeep _ hbuffer]
  · rw [Function.update_of_ne (by decide : Object.lenblk ≠ .zeros), hkeep _ hlenblk]
  · rw [hkeep _ hzeros]

theorem ctEq_eq {a b : Ptr rawLen} {n : Nat} (ha : n ≤ a.len) (hb : n ≤ b.len)
    (heap : Heap Object) :
    ctEq a b n heap = some (Wire.ctEq ((heap.read a).take n) ((heap.read b).take n), heap) := by
  obtain ⟨xs, hxs⟩ : ∃ xs, xs = List.zipWith (· ^^^ ·) ((heap.read a).take n)
    ((heap.read b).take n) := ⟨_, rfl⟩
  have hlen : xs.length = n := by
    rw [hxs, List.length_zipWith, List.length_take_of_le (by rw [Heap.length_read]; exact ha),
      List.length_take_of_le (by rw [Heap.length_read]; exact hb), Nat.min_self]
  have hstep (i : Nat) (hi : i < n) :
      diffByte a b i ((xs.take i).foldl (· ||| ·) 0) heap =
        some ((xs.take (i + 1)).foldl (· ||| ·) 0, heap) := by
    have hxor : (heap.read a).getD i 0 ^^^ (heap.read b).getD i 0 = xs[i] := by
      subst hxs
      rw [List.getElem_zipWith, List.getElem_take, List.getElem_take,
        List.getD_eq_getElem _ _ (by rw [Heap.length_read]; omega),
        List.getD_eq_getElem _ _ (by rw [Heap.length_read]; omega)]
    rw [diffByte, Access.bind_eq (Span.get_eq (by omega) _),
      Access.bind_eq (Span.get_eq (by omega) _), Access.pure_eq, hxor, ← List.take_append_getElem
        (by omega : i < xs.length), List.foldl_append]
    rfl
  have hloop : Access.iterate (diffByte a b) n 0 heap = some ((xs.take n).foldl (· ||| ·) 0, heap) :=
    Access.iterate_eq (fun i => (xs.take i).foldl (· ||| ·) 0) (fun _ => heap) hstep
  rw [ctEq, Access.bind_eq hloop, Access.pure_eq, List.take_of_length_le (by omega), hxs, Wire.ctEq]

/-- An object that is passed to `chacha20poly1305_decrypt`. -/
def Object.Passed (o : Object) : Prop := o = .raw ∨ o = .key ∨ o = .work

theorem Object.Passed.ne {o : Object} (h : o.Passed) : o.Outside ∧ o ≠ .block ∧ o ≠ .otk ∧
    o ≠ .expected := by
  unfold Object.Outside
  rcases h with rfl | rfl | rfl <;> decide

/-- What `chacha20poly1305_decrypt` asks of its pointers. -/
structure DecryptFits (key nonce aad : Ptr rawLen) (aadLen : Nat) (buf : Ptr rawLen)
    (bufLen : Nat) (tag : Ptr rawLen) : Prop where
  keyLen : 32 ≤ key.len
  nonceLen : 12 ≤ nonce.len
  aadLen : aadLen ≤ aad.len
  bufLen : bufLen ≤ buf.len
  tagLen : 16 ≤ tag.len
  keyPassed : key.obj.Passed
  noncePassed : nonce.obj.Passed
  aadPassed : aad.obj.Passed
  bufPassed : buf.obj.Passed
  tagPassed : tag.obj.Passed
  keyApart : key.obj ≠ buf.obj
  nonceApart : Apart nonce buf

/-- The tag is computed and compared, -/
theorem tagMatches_eq {key nonce aad : Ptr rawLen} {aadLen : Nat} {buf : Ptr rawLen}
    {bufLen : Nat} {tag : Ptr rawLen} (h : DecryptFits key nonce aad aadLen buf bufLen tag)
    (heap : Heap Object) :
    ∃ k e, tagMatches key nonce aad aadLen buf bufLen tag heap =
      some (Wire.ctEq (Wire.aeadTag (Wire.oneTimeKey (keyOf ((heap.read key).take 32))
          ((heap.read nonce).take 12)) ((heap.read aad).take aadLen) ((heap.read buf).take bufLen))
        ((heap.read tag).take 16),
        Function.update (Function.update heap .otk k) .expected e) := by
  obtain ⟨otk, hotk⟩ : ∃ otk, otk = Wire.oneTimeKey (keyOf ((heap.read key).take 32))
    ((heap.read nonce).take 12) := ⟨_, rfl⟩
  have hlen : otk.length = (Object.otk.data : Ptr rawLen).len := by
    rw [hotk, Wire.oneTimeKey, length_chacha20Xor, List.length_replicate]
    rfl
  obtain ⟨heap0, hheap0⟩ : ∃ heap0, heap0 =
    heap.write (Object.otk.data : Ptr rawLen) 0 (List.replicate 32 0) := ⟨_, rfl⟩
  obtain ⟨z, hz⟩ : ∃ z, heap0 = Function.update heap .otk z := ⟨_, hheap0⟩
  obtain ⟨heap1, hheap1⟩ : ∃ heap1, heap1 = heap0.write (Object.otk.data : Ptr rawLen) 0 otk :=
    ⟨_, rfl⟩
  obtain ⟨k, hk⟩ : ∃ k, heap1 = Function.update heap .otk k := by
    obtain ⟨k, hk⟩ : ∃ k, heap1 = Function.update heap0 .otk k := ⟨_, hheap1⟩
    exact ⟨k, by rw [hk, hz, Function.update_idem]⟩
  have hread0 {s : Ptr rawLen} (hs : s.obj.Passed) : heap0.read s = heap.read s := by
    rw [hz, Heap.read_update _ hs.ne.2.2.1]
  have hread1 {s : Ptr rawLen} (hs : s.obj.Passed) : heap1.read s = heap.read s := by
    rw [hk, Heap.read_update _ hs.ne.2.2.1]
  -- The one-time key is the key stream on zeros.
  have hxor : chacha20Xor key 0 nonce (Object.otk.data : Ptr rawLen) 32 heap0 =
      some ((), heap1) := by
    have hfits : XorFits key nonce (Object.otk.data : Ptr rawLen) 32 :=
      { keyLen := h.keyLen, nonceLen := h.nonceLen, dataLen := le_refl 32
        keyLocal := h.keyPassed.ne.2.1, nonceLocal := h.noncePassed.ne.2.1
        dataLocal := Object.data_ne (by decide), keyApart := h.keyPassed.ne.2.2.1
        nonceApart := .inl h.noncePassed.ne.2.2.1 }
    have hzeros : (heap0.read (Object.otk.data : Ptr rawLen)).take 32 = List.replicate 32 0 := by
      rw [hheap0, Heap.read_write_self _ (by rw [List.length_replicate]; rfl)]
      rfl
    rw [chacha20Xor_eq hfits, hread0 h.keyPassed, hread0 h.noncePassed, hzeros, hheap1, hotk]
    rfl
  obtain ⟨tag', htag⟩ : ∃ tag', tag' = Wire.aeadTag otk ((heap.read aad).take aadLen)
    ((heap.read buf).take bufLen) := ⟨_, rfl⟩
  obtain ⟨heap2, hheap2⟩ : ∃ heap2, heap2 =
    heap1.write (Object.expected.data : Ptr rawLen) 0 tag' := ⟨_, rfl⟩
  have hcompute : aeadTag (Object.otk.data : Ptr rawLen) aad aadLen buf bufLen
      (Object.expected.data : Ptr rawLen) heap1 = some ((), heap2) := by
    have hfits : TagFits (Object.otk.data : Ptr rawLen) aad aadLen buf bufLen
        (Object.expected.data : Ptr rawLen) :=
      { otkLen := le_refl 32, aadLen := h.aadLen, ctLen := h.bufLen, tagLen := le_refl 16
        otkOutside := ⟨Object.data_ne (by decide), Object.data_ne (by decide),
          Object.data_ne (by decide)⟩
        aadOutside := h.aadPassed.ne.1, ctOutside := h.bufPassed.ne.1
        tagOutside := ⟨Object.data_ne (by decide), Object.data_ne (by decide),
          Object.data_ne (by decide)⟩ }
    have hkey : (heap1.read (Object.otk.data : Ptr rawLen)).take 32 = otk := by
      rw [hheap1, Heap.read_write_self _ hlen, List.take_of_length_le (by rw [hlen]; exact le_refl 32)]
    rw [aeadTag_eq hfits, hkey, hread1 h.aadPassed, hread1 h.bufPassed, ← htag, hheap2]
  obtain ⟨e, he⟩ : ∃ e, heap2 = Function.update heap1 .expected e := ⟨_, hheap2⟩
  have hexpected : (heap2.read (Object.expected.data : Ptr rawLen)).take 16 = tag' := by
    have hsize : tag'.length = (Object.expected.data : Ptr rawLen).len := by
      rw [htag, length_aeadTag]
      rfl
    rw [hheap2, Heap.read_write_self _ hsize, List.take_of_length_le (by rw [hsize]; exact le_refl 16)]
  have hgiven : heap2.read tag = heap.read tag := by
    rw [he, Heap.read_update _ h.tagPassed.ne.2.2.2, hread1 h.tagPassed]
  refine ⟨k, e, ?_⟩
  rw [tagMatches, Access.bind_eq (Span.store_eq (by rw [List.length_replicate]; exact le_refl 32) heap),
    ← hheap0, Access.bind_eq hxor, Access.bind_eq hcompute, ctEq_eq (le_refl 16) h.tagLen, hexpected,
    hgiven, htag, hotk, he, hk]

/-- `chacha20poly1305_decrypt` stays inside its buffers, and writes nothing but the plaintext. -/
theorem chacha20poly1305Decrypt_eq {key nonce aad : Ptr rawLen} {aadLen : Nat} {buf : Ptr rawLen}
    {bufLen : Nat} {tag : Ptr rawLen} (h : DecryptFits key nonce aad aadLen buf bufLen tag)
    (heap : Heap Object) :
    chacha20poly1305Decrypt key nonce aad aadLen buf bufLen tag heap =
      match Wire.chacha20poly1305Decrypt (keyOf ((heap.read key).take 32))
          ((heap.read nonce).take 12) ((heap.read aad).take aadLen) ((heap.read buf).take bufLen)
          ((heap.read tag).take 16) with
      | none => some (false, heap)
      | some plain => some (true, heap.write buf 0 plain) := by
  obtain ⟨k, e, hmatches⟩ := tagMatches_eq h heap
  have hne : Object.expected ≠ .otk := by decide
  simp only [Wire.chacha20poly1305Decrypt]
  cases hsame : Wire.ctEq (Wire.aeadTag (Wire.oneTimeKey (keyOf ((heap.read key).take 32))
      ((heap.read nonce).take 12)) ((heap.read aad).take aadLen) ((heap.read buf).take bufLen))
    ((heap.read tag).take 16) with
  | false =>
    have hbody : decryptBody key nonce aad aadLen buf bufLen tag heap =
        some (false, Function.update (Function.update heap .otk k) .expected e) := by
      rw [decryptBody, Access.bind_eq hmatches, hsame, Bool.not_false, if_pos rfl, Access.pure_eq]
    simp only [Bool.not_false, if_true]
    refine Access.scope_eq (Access.scope_eq hbody ?_) rfl
    rw [Function.update_of_ne hne]
  | true =>
    have hfits : XorFits key nonce buf bufLen :=
      { keyLen := h.keyLen, nonceLen := h.nonceLen, dataLen := h.bufLen
        keyLocal := h.keyPassed.ne.2.1, nonceLocal := h.noncePassed.ne.2.1
        dataLocal := h.bufPassed.ne.2.1, keyApart := h.keyApart, nonceApart := h.nonceApart }
    have hread {s : Ptr rawLen} (hs : s.obj.Passed) :
        Heap.read (Function.update (Function.update heap .otk k) .expected e) s = heap.read s := by
      rw [Heap.read_update _ hs.ne.2.2.2, Heap.read_update _ hs.ne.2.2.1]
    have hxor := chacha20Xor_eq hfits 1 (Function.update (Function.update heap .otk k) .expected e)
    rw [hread h.keyPassed, hread h.noncePassed, hread h.bufPassed,
      Heap.write_update _ h.bufPassed.ne.2.2.2, Heap.write_update _ h.bufPassed.ne.2.2.1] at hxor
    have hbody : decryptBody key nonce aad aadLen buf bufLen tag heap = some (true,
        Function.update (Function.update (heap.write buf 0 (Wire.chacha20Xor
          (keyOf ((heap.read key).take 32)) 1 ((heap.read nonce).take 12)
          ((heap.read buf).take bufLen))) .otk k) .expected e) := by
      rw [decryptBody, Access.bind_eq hmatches, hsame, Bool.not_true, if_neg Bool.false_ne_true,
        Access.bind_eq hxor, Access.pure_eq]
    simp only [Bool.not_true, Bool.false_eq_true, if_false]
    refine Access.scope_eq (Access.scope_eq hbody ?_) ?_
    · rw [Function.update_of_ne hne]
      exact Function.update_of_ne h.bufPassed.ne.2.2.2.symm ..
    · exact Function.update_of_ne h.bufPassed.ne.2.2.1.symm ..

end Mpubsub.Wire.InMemory
