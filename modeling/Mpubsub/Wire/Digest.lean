import Mpubsub.Lib.Sha2
import Mpubsub.Wire.Sha256

/-!
# The vendored SHA-256 and the standard (`sha256.cpp`)

The hash holds back what is not a whole block (`Absorbed`), so that its state depends on the bytes
alone, and not on the calls that they came with. `process_block_` is the compression of FIPS 180-4
(`vars_processBlock`), and `finalize` pads as the standard does (`bitsOfBytes_padding`).
-/

namespace Mpubsub.Wire.Sha256

open Mpubsub.Lib

/-! ## Streaming -/

/-- The state after the bytes `m`. -/
structure Absorbed (s : Sha256) (m : Bytes) : Prop where
  taken : Taken processBlock 64 init.state m s.state s.buffer
  bitLen : s.bitLen = UInt64.ofNat (8 * m.length)

theorem absorbed_init : Absorbed init [] := ⟨taken_nil (by decide), rfl⟩

/-- The loop takes all bytes, up to the end of a block at a time. -/
theorem updateLoop_taken {n : Nat} {s : Sha256} {m data : Bytes} (hn : data.length ≤ n)
    (h : Taken processBlock 64 init.state m s.state s.buffer) :
    Taken processBlock 64 init.state (m ++ data) (updateLoop n s data).state
        (updateLoop n s data).buffer ∧
      (updateLoop n s data).bitLen = s.bitLen := by
  induction n generalizing s m data with
  | zero =>
    obtain rfl := List.length_eq_zero_iff.mp (Nat.le_zero.mp hn)
    rw [List.append_nil]
    exact ⟨h, rfl⟩
  | succ n ih =>
    rw [updateLoop]
    by_cases hnil : data.length = 0
    · obtain rfl := List.length_eq_zero_iff.mp hnil
      rw [List.append_nil]
      exact ⟨h, rfl⟩
    have hlt := h.lt
    rw [if_neg hnil]
    simp only
    generalize hk : min (64 - s.buffer.length) data.length = k
    -- Each round takes bytes: the buffer has room, and there are some.
    have hrest : (data.drop k).length ≤ n := by
      rw [List.length_drop]
      omega
    have hlen : (s.buffer ++ data.take k).length = s.buffer.length + k := by
      rw [List.length_append, List.length_take]
      omega
    have hjoin : m ++ data = (m ++ data.take k) ++ data.drop k := by
      rw [List.append_assoc, List.take_append_drop]
    rw [hjoin]
    split
    · rename_i hfull
      exact ih hrest (h.complete hfull)
    · rename_i hnot
      exact ih hrest (h.wait (by omega))

theorem Absorbed.update {s : Sha256} {m : Bytes} (h : Absorbed s m) (data : Bytes) :
    Absorbed (s.update data) (m ++ data) := by
  obtain ⟨htaken, hbits⟩ := updateLoop_taken (Nat.le_refl data.length)
    (s := { s with bitLen := s.bitLen + UInt64.ofNat data.length * 8 }) h.taken
  refine ⟨htaken, hbits.trans ?_⟩
  show s.bitLen + UInt64.ofNat data.length * 8 = _
  rw [h.bitLen, List.length_append, Nat.mul_add, UInt64.ofNat_add, Nat.mul_comm 8 data.length,
    UInt64.ofNat_mul data.length]
  rfl

theorem Absorbed.foldl_update {s : Sha256} {m : Bytes} (h : Absorbed s m) (chunks : List Bytes) :
    Absorbed (chunks.foldl Sha256.update s) (m ++ chunks.flatten) := by
  induction chunks generalizing s m with
  | nil => rwa [List.flatten_nil, List.append_nil]
  | cons data chunks ih =>
    rw [List.foldl_cons, List.flatten_cons, ← List.append_assoc]
    exact ih (h.update data)

/-- The bytes alone say what the state is. -/
theorem Absorbed.ext {s s' : Sha256} {m : Bytes} (h : Absorbed s m) (h' : Absorbed s' m) :
    s = s' := by
  obtain ⟨hstate, hbuffer⟩ := h.taken.ext h'.taken
  obtain ⟨state, bitLen, buffer⟩ := s
  cases hstate
  cases hbuffer
  cases h.bitLen.trans h'.bitLen.symm
  rfl

/-- However the bytes are split, the state is that of one call. -/
theorem foldl_update_eq (chunks : List Bytes) :
    chunks.foldl update init = init.update chunks.flatten :=
  (absorbed_init.foldl_update chunks).ext (absorbed_init.update chunks.flatten)

/-! ## The end -/

/-- The words of the state as bytes. -/
def digest (s : Sha256Words) : Bytes :=
  storeU32be s.a ++ storeU32be s.b ++ storeU32be s.c ++ storeU32be s.d ++
    storeU32be s.e ++ storeU32be s.f ++ storeU32be s.g ++ storeU32be s.h

/-- What `finalize` appends to `len` bytes. -/
def padding (len : Nat) : Bytes :=
  [(0x80 : UInt8)] ++ List.replicate ((119 - len % 64) % 64) (0 : UInt8) ++
    (storeU32be (UInt64.ofNat (8 * len) >>> 32).toUInt32 ++
      storeU32be (UInt64.ofNat (8 * len)).toUInt32)

theorem finalize_eq {s : Sha256} {m : Bytes} (h : Absorbed s m) :
    s.finalize = digest (foldBlocks processBlock 64 init.state (m ++ padding m.length)) := by
  have hlt := h.taken.lt
  have hmod : m.length % 64 = s.buffer.length := by
    obtain ⟨whole, rfl, ⟨k, hk⟩, -⟩ := h.taken.blocks
    rw [List.length_append, hk]
    omega
  rw [h.taken.foldBlocks_append, finalize, padding, hmod, h.bitLen]
  generalize UInt64.ofNat (8 * m.length) = bits
  generalize hend : storeU32be (bits >>> 32).toUInt32 ++ storeU32be bits.toUInt32 = ending
  have hending : ending.length = 8 := by
    rw [← hend]
    rfl
  by_cases hlong : s.buffer.length + 1 > 56
  · -- The padding fills this block, and the length comes with another one.
    have hzeros : (119 - s.buffer.length) % 64 = (63 - s.buffer.length) + 56 := by omega
    have hsplit : s.buffer ++ ([0x80] ++ List.replicate ((119 - s.buffer.length) % 64) 0 ++ ending) =
        (s.buffer ++ [0x80] ++ List.replicate (63 - s.buffer.length) 0) ++
          (List.replicate 56 0 ++ ending) := by
      rw [hzeros, List.replicate_add]
      simp
    have hfirst : (s.buffer ++ [0x80] ++ List.replicate (63 - s.buffer.length) (0 : UInt8)).length =
        64 := by
      simp only [List.length_append, List.length_singleton, List.length_replicate]
      omega
    have hlast : (List.replicate 56 (0 : UInt8) ++ ending).length = 64 := by
      rw [List.length_append, List.length_replicate, hending]
    rw [hsplit, foldBlocks_append _ 64 (by decide) ⟨1, hfirst⟩,
      foldBlocks_block _ _ (by decide) hfirst, foldBlocks_block _ _ (by decide) hlast]
    simp only [List.length_append, List.length_singleton, if_pos hlong, Nat.reduceSubDiff,
      List.nil_append, List.length_nil, Nat.sub_zero]
    rfl
  · have hzeros : (119 - s.buffer.length) % 64 = 55 - s.buffer.length := by omega
    have hblock : (s.buffer ++ ([0x80] ++ List.replicate (55 - s.buffer.length) 0 ++ ending)).length =
        64 := by
      simp only [List.length_append, List.length_singleton, List.length_replicate, hending]
      omega
    rw [hzeros, foldBlocks_block _ _ (by decide) hblock]
    simp only [List.length_append, List.length_singleton, if_neg hlong, Nat.reduceSubDiff,
      List.append_assoc, List.cons_append]
    rfl

/-! ## Words -/

theorem toBitVec_rotr (x n : UInt32) (hpos : 0 < n.toNat) (hlt : n.toNat < 32) :
    (rotr x n).toBitVec = x.toBitVec.rotateRight n.toNat := by
  have hn : (n.toBitVec % 32).toNat = n.toNat := by
    rw [BitVec.toNat_umod]
    exact Nat.mod_eq_of_lt hlt
  have hsub : ((32 - n).toBitVec % 32).toNat = 32 - n.toNat := by
    have hle : n ≤ 32 := UInt32.le_iff_toNat_le.mpr (Nat.le_of_lt hlt)
    have hdiff : (32 - n).toNat = 32 - n.toNat := UInt32.toNat_sub_of_le _ _ hle
    rw [BitVec.toNat_umod]
    show (32 - n).toNat % 32 = _
    rw [hdiff, Nat.mod_eq_of_lt (by omega)]
  rw [rotr, UInt32.toBitVec_or, UInt32.toBitVec_shiftRight, UInt32.toBitVec_shiftLeft,
    BitVec.rotateRight_def, Nat.mod_eq_of_lt hlt, BitVec.ushiftRight_eq', BitVec.shiftLeft_eq', hn,
    hsub]

/-- The word whose bytes are given, the first one on top. -/
theorem toBitVec_loadU32be (a b c d : UInt8) : (loadU32be a b c d).toBitVec =
    a.toBitVec ++ b.toBitVec ++ c.toBitVec ++ d.toBitVec := by
  apply BitVec.eq_of_getLsbD_eq
  intro i hi
  have hout (x : UInt8) (j : Nat) (h : 8 ≤ j) : x.toBitVec.getLsbD j = false :=
    BitVec.getLsbD_of_ge _ _ h
  simp only [loadU32be, UInt32.toBitVec_or, UInt32.toBitVec_shiftLeft, UInt8.toBitVec_toUInt32,
    BitVec.getLsbD_or, BitVec.getLsbD_append, BitVec.shiftLeft_eq', BitVec.getLsbD_shiftLeft,
    BitVec.getLsbD_setWidth, show (UInt32.toBitVec 24 % 32).toNat = 24 from rfl,
    show (UInt32.toBitVec 16 % 32).toNat = 16 from rfl,
    show (UInt32.toBitVec 8 % 32).toNat = 8 from rfl]
  grind

theorem loadU32be_bytes (v : UInt32) :
    loadU32be (v >>> 24).toUInt8 (v >>> 16).toUInt8 (v >>> 8).toUInt8 v.toUInt8 = v := by
  apply UInt32.toBitVec_inj.mp
  rw [toBitVec_loadU32be]
  apply BitVec.eq_of_getLsbD_eq
  intro i hi
  simp only [UInt32.toBitVec_toUInt8, UInt32.toBitVec_shiftRight, BitVec.getLsbD_append,
    BitVec.ushiftRight_eq', BitVec.getLsbD_setWidth, BitVec.getLsbD_ushiftRight,
    show (UInt32.toBitVec 24 % 32).toNat = 24 from rfl,
    show (UInt32.toBitVec 16 % 32).toNat = 16 from rfl,
    show (UInt32.toBitVec 8 % 32).toNat = 8 from rfl]
  grind

theorem bitsOf_loadU32be (a b c d : UInt8) :
    Sha2.bitsOf (loadU32be a b c d).toBitVec = Sha2.bitsOfBytes [a, b, c, d] := by
  rw [toBitVec_loadU32be]
  show Sha2.bitsOf (w := 8 + 8 + 8 + 8) (a.toBitVec ++ b.toBitVec ++ c.toBitVec ++ d.toBitVec) = _
  rw [Sha2.bitsOf_append, Sha2.bitsOf_append, Sha2.bitsOf_append]
  simp [Sha2.bitsOfBytes]

theorem bitsOfBytes_storeU32be (v : UInt32) :
    Sha2.bitsOfBytes (storeU32be v) = Sha2.bitsOf v.toBitVec := by
  rw [storeU32be, ← bitsOf_loadU32be, loadU32be_bytes]

/-! ## A block -/

/-- The state as the standard has it. -/
def vars (s : Sha256Words) : Sha2.Vars :=
  ⟨s.a.toBitVec, s.b.toBitVec, s.c.toBitVec, s.d.toBitVec, s.e.toBitVec, s.f.toBitVec,
    s.g.toBitVec, s.h.toBitVec⟩

theorem vars_init : vars init.state = Sha2.initial := by decide +kernel

theorem constants_eq : Sha2.constants = roundConstants.map UInt32.toBitVec := by decide +kernel

theorem blockWords_eq {n : Nat} {block : Bytes} (h : block.length = 4 * n) :
    (blockWords block).map UInt32.toBitVec =
      (List.range n).map (Sha2.wordsOf (Sha2.bitsOfBytes block)) := by
  induction n generalizing block with
  | zero =>
    obtain rfl := List.length_eq_zero_iff.mp h
    rfl
  | succ n ih =>
    obtain ⟨a, b, c, d, rest, rfl⟩ : ∃ a b c d rest, block = a :: b :: c :: d :: rest := by
      rcases block with _ | ⟨a, _ | ⟨b, _ | ⟨c, _ | ⟨d, rest⟩⟩⟩⟩
      case cons.cons.cons.cons => exact ⟨a, b, c, d, rest, rfl⟩
      all_goals
        simp only [List.length_cons, List.length_nil] at h
        omega
    have hrest : rest.length = 4 * n := by
      simp only [List.length_cons] at h
      omega
    have hbits : Sha2.bitsOfBytes (a :: b :: c :: d :: rest) =
        Sha2.bitsOf (loadU32be a b c d).toBitVec ++ Sha2.bitsOfBytes rest := by
      rw [bitsOf_loadU32be, ← Sha2.bitsOfBytes_append]
      rfl
    have hfirst : Sha2.wordsOf (Sha2.bitsOfBytes (a :: b :: c :: d :: rest)) 0 =
        (loadU32be a b c d).toBitVec := by
      rw [Sha2.wordsOf, hbits, Nat.mul_zero, List.drop_zero,
        List.take_left' (Sha2.length_bitsOf _), Sha2.wordOf_bitsOf]
    have hnext (t : Nat) : Sha2.wordsOf (Sha2.bitsOfBytes (a :: b :: c :: d :: rest)) (t + 1) =
        Sha2.wordsOf (Sha2.bitsOfBytes rest) t := by
      rw [Sha2.wordsOf, hbits, Nat.mul_succ, Nat.add_comm, ← List.drop_drop,
        List.drop_left' (Sha2.length_bitsOf _), Sha2.wordsOf]
    rw [blockWords, List.map_cons, ih hrest, List.range_succ_eq_map, List.map_cons, List.map_map,
      hfirst]
    simp only [Function.comp_def, Nat.succ_eq_add_one, hnext]

/-- The functions of the rounds and of the schedule, on words of the code. -/
theorem toBitVec_rotations (x : UInt32) :
    (rotr x 2 ^^^ rotr x 13 ^^^ rotr x 22).toBitVec = Sha2.bigSigma0 x.toBitVec ∧
    (rotr x 6 ^^^ rotr x 11 ^^^ rotr x 25).toBitVec = Sha2.bigSigma1 x.toBitVec ∧
    (rotr x 7 ^^^ rotr x 18 ^^^ (x >>> 3)).toBitVec = Sha2.sigma0 x.toBitVec ∧
    (rotr x 17 ^^^ rotr x 19 ^^^ (x >>> 10)).toBitVec = Sha2.sigma1 x.toBitVec := by
  simp only [UInt32.toBitVec_xor, Sha2.bigSigma0, Sha2.bigSigma1, Sha2.sigma0, Sha2.sigma1]
  refine ⟨?_, ?_, ?_, ?_⟩
  · rw [toBitVec_rotr x 2 (by decide) (by decide), toBitVec_rotr x 13 (by decide) (by decide),
      toBitVec_rotr x 22 (by decide) (by decide)]
    rfl
  · rw [toBitVec_rotr x 6 (by decide) (by decide), toBitVec_rotr x 11 (by decide) (by decide),
      toBitVec_rotr x 25 (by decide) (by decide)]
    rfl
  · rw [toBitVec_rotr x 7 (by decide) (by decide), toBitVec_rotr x 18 (by decide) (by decide)]
    rfl
  · rw [toBitVec_rotr x 17 (by decide) (by decide), toBitVec_rotr x 19 (by decide) (by decide)]
    rfl

/-- The loop appends entries of the standard's schedule. -/
theorem extendSchedule_eq (words : Nat → Sha2.Word) {n : Nat} {w : List UInt32}
    (hlen : 16 ≤ w.length)
    (hw : w.map UInt32.toBitVec = (List.range w.length).map (Sha2.schedule words)) :
    (extendSchedule n w).map UInt32.toBitVec =
      (List.range (w.length + n)).map (Sha2.schedule words) := by
  induction n generalizing w with
  | zero => exact hw
  | succ n ih =>
    have hget {j : Nat} (hj : j < w.length) : (w.getD j 0).toBitVec = Sha2.schedule words j := by
      have hentry := congrArg (fun l : List Sha2.Word => l[j]?) hw
      rw [List.getD_eq_getElem _ _ hj]
      simpa [hj] using hentry
    have hnext : Sha2.schedule words w.length =
        (w.getD (w.length - 16) 0 + (rotr (w.getD (w.length - 15) 0) 7 ^^^
            rotr (w.getD (w.length - 15) 0) 18 ^^^ (w.getD (w.length - 15) 0 >>> 3)) +
          w.getD (w.length - 7) 0 + (rotr (w.getD (w.length - 2) 0) 17 ^^^
            rotr (w.getD (w.length - 2) 0) 19 ^^^
              (w.getD (w.length - 2) 0 >>> 10))).toBitVec := by
      obtain ⟨-, -, hs0, -⟩ := toBitVec_rotations (w.getD (w.length - 15) 0)
      obtain ⟨-, -, -, hs1⟩ := toBitVec_rotations (w.getD (w.length - 2) 0)
      rw [Sha2.schedule, if_neg (Nat.not_lt.mpr hlen), UInt32.toBitVec_add, UInt32.toBitVec_add,
        UInt32.toBitVec_add, hs0, hs1, hget (by omega), hget (by omega), hget (by omega),
        hget (by omega)]
      ac_rfl
    rw [extendSchedule, ih, List.length_append, List.length_singleton, Nat.add_assoc, Nat.add_comm 1 n]
    · rw [List.length_append]
      omega
    · rw [List.length_append, List.length_singleton, List.map_append, hw, List.range_succ,
        List.map_append, List.map_singleton, List.map_singleton, hnext]

theorem vars_round {s : Sha256Words} {kw : UInt32 × UInt32} {words : Nat → Sha2.Word} {t : Nat}
    (hk : Sha2.constants.getD t 0 = kw.1.toBitVec) (hw : Sha2.schedule words t = kw.2.toBitVec) :
    vars (round s kw) = Sha2.round words (vars s) t := by
  obtain ⟨-, hs1, -, -⟩ := toBitVec_rotations s.e
  obtain ⟨hs0, -, -, -⟩ := toBitVec_rotations s.a
  simp only [vars, round, Sha2.round, UInt32.toBitVec_add, hs0, hs1, hk, hw, Sha2.ch, Sha2.maj,
    UInt32.toBitVec_xor, UInt32.toBitVec_and, UInt32.toBitVec_not]

/-- The rounds, from the one with the number `t`. -/
theorem vars_rounds {words : Nat → Sha2.Word} {ks ws : List UInt32} {t : Nat}
    (hlen : ks.length = ws.length)
    (hk : ∀ i, (h : i < ks.length) → Sha2.constants.getD (t + i) 0 = ks[i].toBitVec)
    (hw : ∀ i, (h : i < ws.length) → Sha2.schedule words (t + i) = ws[i].toBitVec)
    (s : Sha256Words) :
    vars ((ks.zip ws).foldl round s) =
      (List.range' t ks.length).foldl (Sha2.round words) (vars s) := by
  induction ks generalizing ws t s with
  | nil => rfl
  | cons k ks ih =>
    cases ws with
    | nil => cases hlen
    | cons w ws =>
      have hround : vars (round s (k, w)) = Sha2.round words (vars s) t :=
        vars_round (hk 0 (Nat.zero_lt_succ _)) (hw 0 (Nat.zero_lt_succ _))
      rw [List.zip_cons_cons, List.foldl_cons, List.length_cons, List.range'_succ, List.foldl_cons,
        ih (Nat.succ.inj hlen) (t := t + 1), hround]
      · intro i hi
        rw [Nat.add_right_comm, Nat.add_assoc]
        exact hk (i + 1) (Nat.succ_lt_succ hi)
      · intro i hi
        rw [Nat.add_right_comm, Nat.add_assoc]
        exact hw (i + 1) (Nat.succ_lt_succ hi)

/-- `process_block_` is the compression of the standard. -/
theorem vars_processBlock (s : Sha256Words) {block : Bytes} (h : block.length = 64) :
    vars (processBlock s block) = Sha2.compress (vars s) (Sha2.bitsOfBytes block) := by
  have hfirst := blockWords_eq (n := 16) h
  have hlen : (blockWords block).length = 16 := by
    simpa using congrArg List.length hfirst
  have hschedule : (extendSchedule 48 (blockWords block)).map UInt32.toBitVec =
      (List.range 64).map (Sha2.schedule (Sha2.wordsOf (Sha2.bitsOfBytes block))) := by
    rw [extendSchedule_eq _ (Nat.le_of_eq hlen.symm), hlen]
    rw [hfirst, hlen]
    refine List.map_congr_left fun t ht => ?_
    rw [Sha2.schedule, if_pos (List.mem_range.mp ht)]
  have hcount : (extendSchedule 48 (blockWords block)).length = 64 := by
    simpa using congrArg List.length hschedule
  have hrounds : vars ((roundConstants.zip (extendSchedule 48 (blockWords block))).foldl round s) =
      (List.range' 0 64).foldl (Sha2.round (Sha2.wordsOf (Sha2.bitsOfBytes block))) (vars s) := by
    have hcounts : roundConstants.length = (extendSchedule 48 (blockWords block)).length :=
      hcount.symm
    refine vars_rounds hcounts (fun i hi => ?_) (fun i hi => ?_) s
    · rw [constants_eq, Nat.zero_add, List.getD_eq_getElem _ _ (by simpa using hi),
        List.getElem_map]
    · have hentry := congrArg (fun l : List Sha2.Word => l[i]?) hschedule
      rw [hcount] at hi
      rw [Nat.zero_add]
      simpa [hcount, hi, eq_comm] using hentry
  rw [processBlock, Sha2.compress, List.range_eq_range', ← hrounds]
  simp only [vars, UInt32.toBitVec_add, Sha2.Vars.mk.injEq]
  simp only [BitVec.add_comm, and_self]

/-- `finalize` pads as the standard does. -/
theorem bitsOfBytes_padding (m : Bytes) :
    Sha2.bitsOfBytes (m ++ padding m.length) = Sha2.pad (Sha2.bitsOfBytes m) := by
  have hlength (v : UInt64) : Sha2.bitsOfBytes (storeU32be (v >>> 32).toUInt32 ++
      storeU32be v.toUInt32) = Sha2.bitsOf v.toBitVec := by
    have hjoin : (v >>> 32).toUInt32.toBitVec ++ v.toUInt32.toBitVec = v.toBitVec := by
      apply BitVec.eq_of_getLsbD_eq
      intro i hi
      simp only [UInt64.toBitVec_toUInt32, UInt64.toBitVec_shiftRight, BitVec.getLsbD_append,
        BitVec.ushiftRight_eq', BitVec.getLsbD_setWidth, BitVec.getLsbD_ushiftRight,
        show (UInt64.toBitVec 32 % 64).toNat = 32 from rfl]
      grind
    rw [Sha2.bitsOfBytes_append, bitsOfBytes_storeU32be, bitsOfBytes_storeU32be,
      ← Sha2.bitsOf_append, hjoin]
  have hzeros : Sha2.zeros (8 * m.length) = 7 + 8 * ((119 - m.length % 64) % 64) := by
    rw [Sha2.zeros]
    omega
  have hone : Sha2.bitsOfBytes [0x80] = true :: List.replicate 7 false := by decide
  rw [padding, Sha2.pad, Sha2.bitsOfBytes_append, Sha2.bitsOfBytes_append,
    Sha2.bitsOfBytes_append, hlength, hone, Sha2.bitsOfBytes_replicate_zero,
    Sha2.length_bitsOfBytes, hzeros, List.replicate_add]
  simp only [List.append_assoc, List.cons_append]
  rfl

theorem bitsOfBytes_digest (s : Sha256Words) : Sha2.bitsOfBytes (digest s) = (vars s).bits := by
  simp only [digest, Sha2.bitsOfBytes_append, bitsOfBytes_storeU32be, Sha2.Vars.bits, vars]

/-- The hash is the SHA-256 of the standard. -/
theorem bitsOfBytes_hash (data : Bytes) :
    Sha2.bitsOfBytes (hash data) = Sha2.sha256 (Sha2.bitsOfBytes data) := by
  have hfold := foldBlocks_map processBlock 64 (g := Sha2.compress) (by decide : 0 < 8)
    Sha2.length_bitsOfBytes Sha2.drop_bitsOfBytes Sha2.take_bitsOfBytes
    (fun s block hblock => vars_processBlock s hblock) init.state (data ++ padding data.length)
  rw [hash, finalize_eq (absorbed_init.update data), List.nil_append, bitsOfBytes_digest, hfold,
    bitsOfBytes_padding, vars_init, Sha2.sha256]

example : hash [97, 98, 99] =
    [0xba, 0x78, 0x16, 0xbf, 0x8f, 0x01, 0xcf, 0xea, 0x41, 0x41, 0x40, 0xde, 0x5d, 0xae, 0x22, 0x23,
      0xb0, 0x03, 0x61, 0xa3, 0x96, 0x17, 0x7a, 0x9c, 0xb4, 0x10, 0xff, 0x61, 0xf2, 0x00, 0x15,
      0xad] := by decide +kernel

end Mpubsub.Wire.Sha256
