import Mpubsub.Lib.Crc
import Mpubsub.Wire.Sha256

/-!
# Topic addressing (`topic_hash.cpp`)

A topic is addressed twice: by the multicast group that carries its
datagrams, 14 bytes of the topic's SHA-256, and by the CRC-32 in the header,
by which the receiver dispatches. Every CRC is the CRC of some topic
(`exists_topic_of_crc`): `topic_crc32` is the library's CRC register between
two complements.
-/

namespace Mpubsub.Wire

open Mpubsub.Lib

/-- `Scope`: the IPv6 multicast scope nibble. -/
inductive Scope where
  | LINK_LOCAL
  | SITE_LOCAL
  | ORG_LOCAL
deriving DecidableEq

def Scope.toUInt8 : Scope → UInt8
  | LINK_LOCAL => 0x2
  | SITE_LOCAL => 0x5
  | ORG_LOCAL => 0x8

/-- `GroupAddr`: an IPv6 address, byte 0 first. -/
abbrev GroupAddr := Vector UInt8 16

/-- `topic_to_group`. -/
def topicToGroup (topic : Bytes) (scope : Scope) : GroupAddr :=
  let digest := Sha256.hash topic
  Vector.ofFn fun i =>
    if i.val = 0 then 0xFF
    else if i.val = 1 then ((0x1 : UInt8) <<< 4) ||| (scope.toUInt8 &&& 0x0F)
    else digest.getD (i.val - 2) 0

/-- A group tells its scope. -/
theorem scope_eq_of_topicToGroup_eq {t t' : Bytes} {scope scope' : Scope}
    (h : topicToGroup t scope = topicToGroup t' scope') : scope = scope' := by
  have hsecond (t : Bytes) (scope : Scope) :
      (topicToGroup t scope)[1] = ((0x1 : UInt8) <<< 4) ||| (scope.toUInt8 &&& 0x0F) := by
    simp [topicToGroup]
  have hbyte := congrArg (fun g : GroupAddr => g[1]) h
  simp only [hsecond] at hbyte
  clear h
  revert hbyte
  cases scope <;> cases scope' <;> decide

/-- One iteration of the inner loop of `topic_crc32`. -/
def crcBit (crc : UInt32) : UInt32 :=
  let mask := -(crc &&& 1)
  (crc >>> 1) ^^^ (0xEDB88320 &&& mask)

/-- The inner loop. -/
def crcBits : Nat → UInt32 → UInt32
  | 0, crc => crc
  | n + 1, crc => crcBits n (crcBit crc)

/-- `topic_crc32`. -/
def topicCrc32 (topic : Bytes) : UInt32 :=
  ~~~(topic.foldl (fun crc c => crcBits 8 (crc ^^^ c.toUInt32)) 0xFFFFFFFF)

example : topicCrc32 [49, 50, 51, 52, 53, 54, 55, 56, 57] = 0xCBF43926 := by decide +kernel

/-! ## The CRC register -/

/-- The reflected polynomial of CRC-32/IEEE. -/
def crcPoly : BitVec (8 * 4) := 0xEDB88320#32

theorem toBitVec_crcBit (crc : UInt32) :
    (crcBit crc).toBitVec = Crc.bitStep crcPoly crc.toBitVec := by
  have hmask : (-(crc &&& 1)).toBitVec =
      if crc.toBitVec.getLsbD 0 then BitVec.allOnes 32 else 0#32 := by
    rw [UInt32.toBitVec_neg, UInt32.toBitVec_and, show (1 : UInt32).toBitVec = 1#32 from rfl,
      BitVec.and_one_eq_setWidth_ofBool_getLsbD]
    cases crc.toBitVec.getLsbD 0 <;> rfl
  unfold crcBit Crc.bitStep
  simp only [UInt32.toBitVec_xor, UInt32.toBitVec_and, hmask]
  cases crc.toBitVec.getLsbD 0 <;> rfl

theorem toBitVec_crcBits (n : Nat) (crc : UInt32) :
    (crcBits n crc).toBitVec = Crc.steps crcPoly n crc.toBitVec := by
  induction n generalizing crc with
  | zero => rfl
  | succ n ih => rw [crcBits, ih, toBitVec_crcBit]; rfl

theorem toBitVec_crcFold (topic : Bytes) (crc : UInt32) :
    (topic.foldl (fun crc c => crcBits 8 (crc ^^^ c.toUInt32)) crc).toBitVec =
      Crc.feed crcPoly crc.toBitVec (topic.map UInt8.toBitVec) := by
  induction topic generalizing crc with
  | nil => rfl
  | cons c topic ih =>
    rw [List.foldl_cons, ih, toBitVec_crcBits]
    rfl

/-- The node's CRC is the standard one. -/
theorem toBitVec_topicCrc32 (topic : Bytes) :
    (topicCrc32 topic).toBitVec = Crc.crc32 (topic.map UInt8.toBitVec) := by
  rw [topicCrc32, UInt32.toBitVec_not, toBitVec_crcFold]
  rfl

/-- Every CRC is the CRC of a topic of four bytes. -/
theorem exists_topic_of_crc (crc : UInt32) : ∃ topic : Bytes, topicCrc32 topic = crc := by
  obtain ⟨cs, -, hcs⟩ := Crc.exists_feed_eq 4 (show crcPoly.msb = true by decide)
    (0xFFFFFFFF : UInt32).toBitVec (~~~crc).toBitVec
  refine ⟨cs.map UInt8.ofBitVec, UInt32.toBitVec_inj.mp ?_⟩
  rw [topicCrc32, UInt32.toBitVec_not, toBitVec_crcFold, List.map_map]
  have hmap : cs.map (UInt8.toBitVec ∘ UInt8.ofBitVec) = cs := List.map_id cs
  rw [hmap, hcs, UInt32.toBitVec_not, BitVec.not_not]

end Mpubsub.Wire
