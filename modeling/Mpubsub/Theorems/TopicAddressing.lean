import Mpubsub.Lib.CrcDivision
import Mpubsub.Wire.Digest
import Mpubsub.Theorems.SenderAgreement

/-!
# The addresses of a topic

The node and the reference address a topic alike, by SHA-256 as FIPS 180-4 has it and by the
remainder of a division of polynomials.
-/

namespace Mpubsub.Theorems

open Mpubsub.Lib Mpubsub.Wire

/-- The group of a topic: the prefix of a transient multicast address, the scope, and the first 14
bytes of SHA-256. -/
structure IsGroupOf (topic : Bytes) (scope : Scope) (group : GroupAddr) : Prop where
  front : group.toList.take 2 = [0xFF, 0x10 ||| scope.toUInt8]
  hash : Sha2.bitsOfBytes (group.toList.drop 2) =
    (Sha2.sha256 (Sha2.bitsOfBytes topic)).take (8 * 14)

/-- CRC-32/IEEE of a message: the complement of the remainder. -/
def IsCrcOf (message : Bytes) (crc : UInt32) : Prop :=
  Crc.toPoly (~~~crc.toBitVec) = Crc.ieeeRemainder (message.map UInt8.toBitVec)

theorem IsGroupOf.eq {topic : Bytes} {scope : Scope} {group group' : GroupAddr}
    (h : IsGroupOf topic scope group) (h' : IsGroupOf topic scope group') : group = group' := by
  have hdrop : group.toList.drop 2 = group'.toList.drop 2 :=
    Sha2.bitsOfBytes_injective (h.hash.trans h'.hash.symm)
  have hlist : group.toList = group'.toList := by
    rw [← List.take_append_drop 2 group.toList, ← List.take_append_drop 2 group'.toList, hdrop,
      h.front, h'.front]
  exact Vector.toList_inj.mp hlist

theorem IsCrcOf.eq {message : Bytes} {crc crc' : UInt32} (h : IsCrcOf message crc)
    (h' : IsCrcOf message crc') : crc = crc' := by
  have hbits := Crc.toPoly_injective (h.trans h'.symm)
  rw [BitVec.not_inj] at hbits
  exact UInt32.toBitVec_inj.mp hbits

theorem scopeByte_eq (scope : Scope) :
    ((0x1 : UInt8) <<< 4) ||| (scope.toUInt8 &&& 0x0F) = 0x10 ||| scope.toUInt8 := by
  cases scope <;> rfl

/-- Two bytes in front of 14 of the digest. -/
theorem isGroupOf_of_toList {topic : Bytes} {scope : Scope} {group : GroupAddr}
    (h : group.toList = [0xFF, 0x10 ||| scope.toUInt8] ++ (Sha256.hash topic).take 14) :
    IsGroupOf topic scope group where
  front := by rw [h, List.take_append_of_le_length (le_refl 2), List.take_of_length_le (le_refl 2)]
  hash := by
    rw [h, List.drop_append_of_le_length (le_refl 2), List.drop_of_length_le (le_refl 2),
      List.nil_append, ← Sha2.take_bitsOfBytes, Sha256.bitsOfBytes_hash]

theorem isGroupOf_topicToGroup (topic : Bytes) (scope : Scope) :
    IsGroupOf topic scope (topicToGroup topic scope) := by
  apply isGroupOf_of_toList
  rw [topicToGroup, Vector.toList_ofFn]
  apply List.ext_getElem
  · simp
  · intro i hi hi'
    rw [List.length_ofFn] at hi
    rw [List.getElem_ofFn]
    rcases i with _ | _ | i
    · rfl
    · exact scopeByte_eq scope
    · have hdigest : i < (Sha256.hash topic).length := by
        rw [Sha256.length_hash]
        omega
      have hbyte : ([0xFF, 0x10 ||| scope.toUInt8] ++ (Sha256.hash topic).take 14)[i + 2] =
          (Sha256.hash topic)[i] := by simp
      exact (List.getD_eq_getElem _ _ hdigest).trans hbyte.symm

theorem isGroupOf_reference (topic : String) (scope : Scope) :
    IsGroupOf (utf8 topic) scope (Reference.topicToGroup topic scope) := by
  apply isGroupOf_of_toList
  rw [Reference.topicToGroup, Vector.toList_ofFn]
  apply List.ext_getElem
  · simp
  · intro i hi hi'
    have hscope := scopeByte_eq scope
    rw [List.getElem_ofFn, hscope]
    exact List.getD_eq_getElem _ _ hi'

theorem isCrcOf_topicCrc32 (topic : Bytes) : IsCrcOf topic (topicCrc32 topic) := by
  rw [IsCrcOf, toBitVec_topicCrc32]
  exact Crc.toPoly_crc32 _

/-- **Addresses.** The node and the reference have the group and the CRC that the standards give a
topic; a digest does not depend on how the bytes come. -/
theorem topic_addressed (topic : Bytes) (scope : Scope) :
    (∀ group, IsGroupOf topic scope group ↔ group = topicToGroup topic scope) ∧
      (∀ crc, IsCrcOf topic crc ↔ crc = topicCrc32 topic) ∧
      (∀ chunks : List Bytes,
        (chunks.foldl Sha256.update Sha256.init).finalize = Sha256.hash chunks.flatten) ∧
      ∀ t : String, Reference.topicToGroup t scope = topicToGroup (utf8 t) scope ∧
        Reference.topicCrc32 t = (topicCrc32 (utf8 t)).toNat := by
  have hgroup := isGroupOf_topicToGroup topic scope
  have hcrc := isCrcOf_topicCrc32 topic
  refine ⟨fun group => ⟨fun h => h.eq hgroup, ?_⟩, fun crc => ⟨fun h => h.eq hcrc, ?_⟩,
    fun chunks => ?_, fun t => ⟨?_, topicCrc32_eq t⟩⟩
  · rintro rfl
    exact hgroup
  · rintro rfl
    exact hcrc
  · rw [Sha256.foldl_update_eq, Sha256.hash]
  · exact (isGroupOf_reference t scope).eq (isGroupOf_topicToGroup (utf8 t) scope)

end Mpubsub.Theorems
