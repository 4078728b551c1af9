import Mpubsub.Node.Run

/-!
# The verification counters

What the diagnostic counters should say after a run (`Tally.count`): each datagram counts as
received, and each one with a valid header that is encrypted, or that is well-formed plaintext,
as verified or as failed. `on_packet_` counts an encrypted datagram only if `decode` lets it
through, and `decode` drops one that is not as long as its header declares. So the counters are
right in every state of a run exactly when no datagram is such (`counters_iff`).
-/

namespace Mpubsub.Theorems

open Mpubsub.Lib Mpubsub.Wire Mpubsub.Node Mpubsub.Node.MulticastPubSub

variable {κ : Type}

/-! ## The property -/

/-- The encryption mode of a valid header: 12 bytes, magic, version, known encoding and known
mode. -/
def validMode (raw : Bytes) : Option EncMode :=
  if HEADER_LEN ≤ raw.length ∧ raw.getD 0 0 = MAGIC0 ∧ raw.getD 1 0 = MAGIC1 ∧
      raw.getD 2 0 = VERSION then
    (Encoding.ofUInt8 (raw.getD 3 0)).bind fun _ => EncMode.ofUInt8 (raw.getD 10 0)
  else none

/-- The body has a nonce and a tag, and authenticates under the node's key. -/
def Authenticates (node : MulticastPubSub κ) (raw : Bytes) : Prop :=
  node.encryptionEnabled = true ∧
    HEADER_LEN + AEAD_NONCE_LEN + AEAD_TAG_LEN ≤ raw.length ∧
    (openBody node.encryptionKeyBytes (raw.take HEADER_LEN) (raw.drop HEADER_LEN)).isSome = true

instance (node : MulticastPubSub κ) (raw : Bytes) : Decidable (Authenticates node raw) :=
  inferInstanceAs (Decidable (_ ∧ _ ∧ _))

/-- The datagram is as long as its header declares. -/
def AsDeclared (mode : EncMode) (raw : Bytes) : Prop :=
  raw.length = HEADER_LEN + bodyLen mode (declaredLen raw).toNat

instance (mode : EncMode) (raw : Bytes) : Decidable (AsDeclared mode raw) :=
  inferInstanceAs (Decidable (_ = _))

/-- The CRC in the header is that of a subscription. -/
def CrcMatches (node : MulticastPubSub κ) (raw : Bytes) : Prop :=
  ∃ sub ∈ node.subscriptions, sub.crc = loadU32leAt raw 4

instance (node : MulticastPubSub κ) (raw : Bytes) : Decidable (CrcMatches node raw) :=
  inferInstanceAs (Decidable (∃ sub ∈ node.subscriptions, _))

/-- The counters, as they should be. -/
structure Tally where
  received : UInt32
  verifyOk : UInt32
  verifyFailed : UInt32
deriving DecidableEq

namespace Tally

def verified (t : Tally) (ok : Bool) : Tally :=
  if ok then { t with verifyOk := t.verifyOk + 1 } else { t with verifyFailed := t.verifyFailed + 1 }

/-- A datagram that the node is given. -/
def count (t : Tally) (node : MulticastPubSub κ) (raw : Bytes) : Tally :=
  let t := { t with received := t.received + 1 }
  match validMode raw with
  | none => t
  | some .AEAD => t.verified (Authenticates node raw)
  | some .NONE => if AsDeclared .NONE raw then t.verified (CrcMatches node raw) else t

def record (t : Tally) (node : MulticastPubSub κ) : Node.Event κ → Tally
  | .packet raw _ => t.count node raw
  | _ => t

/-- The counters of the node. -/
def of (node : MulticastPubSub κ) : Tally :=
  ⟨node.packetsReceived, node.verifyOk, node.verifyFailed⟩

end Tally

/-- A node beside the tally of its datagrams. -/
def tallied : Machine (MulticastPubSub κ × Tally) (Node.Event κ) (Output κ) :=
  ⟨fun s e => (((s.1.step e).1, s.2.record s.1 e), (s.1.step e).2)⟩

/-- An encrypted datagram is as long as its header declares, and fits the work buffer unless it
fails to authenticate. -/
def Countable (node : MulticastPubSub κ) : Node.Event κ → Prop
  | .packet raw _ => validMode raw = some .AEAD →
    AsDeclared .AEAD raw ∧
      (HEADER_LEN + MAX_DATAGRAM < raw.length → ¬Authenticates node raw)
  | _ => True

/-! ## One datagram -/

theorem validMode_eq_some_iff {raw : Bytes} {mode : EncMode} :
    validMode raw = some mode ↔ ∃ enc, HeaderValid raw enc mode := by
  unfold validMode
  constructor
  · intro h
    split at h
    · rename_i hhead
      obtain ⟨enc, henc, hmode⟩ := Option.bind_eq_some_iff.mp h
      obtain ⟨hlen, h0, h1, hversion⟩ := hhead
      exact ⟨enc, hlen, h0, h1, hversion, Encoding.ofUInt8_eq_some_iff.mp henc,
        EncMode.ofUInt8_eq_some_iff.mp hmode⟩
    · cases h
  · rintro ⟨enc, hlen, h0, h1, hversion, henc, hmode⟩
    rw [if_pos ⟨hlen, h0, h1, hversion⟩, Encoding.ofUInt8_eq_some_iff.mpr henc, Option.bind_some]
    exact EncMode.ofUInt8_eq_some_iff.mpr hmode

/-- What `decode` does with a header of either kind. -/
theorem decode_of_validMode {raw : Bytes} {mode : EncMode} (h : validMode raw = some mode) :
    (AsDeclared mode raw ∧ ∃ enc, decode raw = .ok (packetOf raw enc mode)) ∨
      (¬AsDeclared mode raw ∧ ∃ e, decode raw = .error e) := by
  obtain ⟨enc, hvalid⟩ := validMode_eq_some_iff.mp h
  by_cases hlen : AsDeclared mode raw
  · exact .inl ⟨hlen, enc, decode_of_headerValid hvalid hlen⟩
  · refine .inr ⟨hlen, ?_⟩
    cases hdecode : decode raw with
    | error e => exact ⟨e, rfl⟩
    | ok pkt =>
      obtain ⟨hpkt, heq, hsize⟩ := decode_eq_ok_iff.mp hdecode
      have hmode : validMode raw = some pkt.encMode := validMode_eq_some_iff.mpr ⟨_, hpkt⟩
      rw [h] at hmode
      cases hmode
      rw [congrArg DecodedPacket.plaintextLen heq] at hsize
      exact absurd hsize hlen

theorem decode_of_validMode_eq_none {raw : Bytes} (h : validMode raw = none) :
    ∃ e, decode raw = .error e := by
  cases hdecode : decode raw with
  | error e => exact ⟨e, rfl⟩
  | ok pkt =>
    have hmode := validMode_eq_some_iff.mpr ⟨_, (decode_eq_ok_iff.mp hdecode).1⟩
    rw [h] at hmode
    cases hmode

/-- `crc_matched`. -/
theorem deliver_matched (crc : UInt32) (encoding : Encoding) (payload : Bytes)
    (wasEncrypted : Bool) (subs : List (Subscription κ)) :
    (deliver crc encoding payload wasEncrypted subs).2 = true ↔ ∃ sub ∈ subs, sub.crc = crc := by
  induction subs with
  | nil => simp [deliver]
  | cons sub subs ih =>
    simp only [deliver]
    by_cases hcrc : sub.crc = crc
    · rw [if_neg (not_not.mpr hcrc)]
      refine iff_of_true ?_ ⟨sub, List.mem_cons_self, hcrc⟩
      split <;> rfl
    · rw [if_pos hcrc, ih]
      simp [hcrc]

/-- The counters of the encrypted path. -/
theorem of_handleEncrypted (node : MulticastPubSub κ) (raw : Bytes) {pkt : DecodedPacket}
    (hpayload : pkt.payload = raw.drop HEADER_LEN)
    (hmin : AEAD_NONCE_LEN + AEAD_TAG_LEN ≤ pkt.payload.length) (clock : Option UInt32) :
    Tally.of (node.handleEncrypted raw pkt clock).1 =
      (Tally.of node).verified
        (decide (pkt.payload.length ≤ MAX_DATAGRAM) && decide (Authenticates node raw)) := by
  unfold handleEncrypted
  simp only
  cases hkey : node.encryptionEnabled with
  | false =>
    have hnot : ¬Authenticates node raw := fun h => by rw [h.1] at hkey; cases hkey
    simp only [Bool.not_false, if_true, hnot, decide_false, Bool.and_false]
    rfl
  | true =>
    simp only [Bool.not_true, Bool.false_eq_true, if_false]
    by_cases hsize : pkt.payload.length ≤ MAX_DATAGRAM
    · rw [if_neg (by omega), decide_eq_true hsize, Bool.true_and, hpayload]
      cases hopen : openBody node.encryptionKeyBytes (raw.take HEADER_LEN)
          (raw.drop HEADER_LEN) with
      | none =>
        have hnot : ¬Authenticates node raw := by
          rintro ⟨-, -, h⟩
          rw [hopen] at h
          cases h
        rw [decide_eq_false hnot]
        rfl
      | some plain =>
        have hlen : HEADER_LEN + AEAD_NONCE_LEN + AEAD_TAG_LEN ≤ raw.length := by
          rw [hpayload, List.length_drop] at hmin
          simp only [AEAD_NONCE_LEN, AEAD_TAG_LEN] at hmin ⊢
          omega
        have hauth : Authenticates node raw := ⟨hkey, hlen, by rw [hopen]; rfl⟩
        rw [decide_eq_true hauth]
        simp only
        split <;> rfl
    · rw [if_pos (.inl (Nat.not_le.mp hsize)), decide_eq_false hsize, Bool.false_and]
      rfl

theorem verified_ne (t : Tally) (ok : Bool) : t.verified ok ≠ t := by
  intro h
  cases ok with
  | true =>
    have hok := congrArg Tally.verifyOk h
    simp [Tally.verified] at hok
  | false =>
    have hfailed := congrArg Tally.verifyFailed h
    simp [Tally.verified] at hfailed

theorem verified_inj {t : Tally} {ok ok' : Bool} (h : t.verified ok = t.verified ok') :
    ok = ok' := by
  have hok := congrArg Tally.verifyOk h
  cases ok <;> cases ok' <;> simp_all [Tally.verified]

/-- The counters after an encrypted datagram that decodes. -/
theorem of_onPacket_aead {node : MulticastPubSub κ} {raw : Bytes} {enc : Encoding}
    (hlen : AsDeclared .AEAD raw) (hdecode : decode raw = .ok (packetOf raw enc .AEAD))
    (clock : Option UInt32) :
    Tally.of (node.onPacket raw clock).1 =
      Tally.verified { Tally.of node with received := node.packetsReceived + 1 }
        (decide (raw.length ≤ HEADER_LEN + MAX_DATAGRAM) && decide (Authenticates node raw)) := by
  have hpayload : (packetOf raw enc .AEAD).payload.length = aeadBodyLen (declaredLen raw).toNat := by
    simp only [packetOf, List.length_drop]
    rw [hlen, Nat.add_sub_cancel_left, bodyLen]
  have hmin : AEAD_NONCE_LEN + AEAD_TAG_LEN ≤ (packetOf raw enc .AEAD).payload.length := by
    rw [hpayload]
    simp only [aeadBodyLen, AEAD_NONCE_LEN, AEAD_TAG_LEN, AEAD_PREFIX_LEN]
    omega
  have hfits : (packetOf raw enc .AEAD).payload.length ≤ MAX_DATAGRAM ↔
      raw.length ≤ HEADER_LEN + MAX_DATAGRAM := by
    rw [hpayload, show raw.length = HEADER_LEN + aeadBodyLen (declaredLen raw).toNat from hlen]
    omega
  have hcounters := of_handleEncrypted { node with packetsReceived := node.packetsReceived + 1 }
    raw (rfl : (packetOf raw enc .AEAD).payload = _) hmin clock
  rw [decide_eq_decide.mpr hfits] at hcounters
  unfold onPacket
  rw [hdecode]
  exact hcounters

/-- A datagram counts as it should. -/
theorem of_onPacket {node : MulticastPubSub κ} {raw : Bytes} {clock : Option UInt32}
    (h : Countable node (.packet raw clock)) :
    Tally.of (node.onPacket raw clock).1 = (Tally.of node).count node raw := by
  unfold Tally.count
  cases hmode : validMode raw with
  | none =>
    obtain ⟨e, hdecode⟩ := decode_of_validMode_eq_none hmode
    simp only [onPacket, hdecode]
    rfl
  | some mode =>
    cases mode with
    | AEAD =>
      obtain ⟨hlen, hbig⟩ := h hmode
      rcases decode_of_validMode hmode with ⟨-, enc, hdecode⟩ | ⟨hnot, -⟩
      · rw [of_onPacket_aead hlen hdecode]
        by_cases hfits : raw.length ≤ HEADER_LEN + MAX_DATAGRAM
        · rw [decide_eq_true hfits, Bool.true_and]
          rfl
        · rw [decide_eq_false hfits, Bool.false_and,
            ← decide_eq_false (hbig (Nat.not_le.mp hfits))]
          rfl
      · exact absurd hlen hnot
    | NONE =>
      rcases decode_of_validMode hmode with ⟨hlen, enc, hdecode⟩ | ⟨hnot, e, hdecode⟩
      · simp only [if_pos hlen, onPacket, hdecode, packetOf]
        have hmatched := deliver_matched (loadU32leAt raw 4) enc (raw.drop HEADER_LEN) false
          node.subscriptions
        by_cases hcrc : CrcMatches node raw
        · rw [if_pos (hmatched.mpr hcrc), decide_eq_true hcrc]
          rfl
        · rw [if_neg (mt hmatched.mp hcrc), decide_eq_false hcrc]
          rfl
      · simp only [if_neg hnot, onPacket, hdecode]
        rfl

/-- A datagram of the other kind does not. -/
theorem of_onPacket_ne {node : MulticastPubSub κ} {raw : Bytes} {clock : Option UInt32}
    (h : ¬Countable node (.packet raw clock)) :
    Tally.of (node.onPacket raw clock).1 ≠ (Tally.of node).count node raw := by
  obtain ⟨hmode, hbad⟩ := Classical.not_imp.mp h
  simp only [Tally.count, hmode]
  rcases decode_of_validMode hmode with ⟨hlen, enc, hdecode⟩ | ⟨hnot, e, hdecode⟩
  · have hbig : ¬(HEADER_LEN + MAX_DATAGRAM < raw.length → ¬Authenticates node raw) :=
      fun hbig => hbad ⟨hlen, hbig⟩
    obtain ⟨hbig, hauth⟩ := Classical.not_imp.mp hbig
    rw [of_onPacket_aead hlen hdecode]
    intro heq
    have hok := verified_inj heq
    rw [decide_eq_true (not_not.mp hauth), decide_eq_false (Nat.not_le.mpr hbig)] at hok
    cases hok
  · -- `decode` drops the datagram, and no verdict is counted.
    intro heq
    simp only [onPacket, hdecode] at heq
    exact verified_ne _ _ heq.symm

/-! ## Runs -/

/-- Only datagrams are counted. -/
theorem of_step {node : MulticastPubSub κ} {e : Node.Event κ}
    (h : ∀ raw clock, e ≠ .packet raw clock) (t : Tally) :
    Tally.of (node.step e).1 = Tally.of node ∧ t.record node e = t := by
  cases e with
  | subscribe topic cb requireEncryption => exact ⟨rfl, rfl⟩
  | subscribeTyped topic schemaId cb requireEncryption => exact ⟨rfl, rfl⟩
  | packet raw clock => exact absurd rfl (h raw clock)
  | publish env topic payload encoding =>
    obtain ⟨_, _, _, heq⟩ := node.publish_frame env topic payload encoding
    refine ⟨?_, rfl⟩
    show Tally.of (node.publish env topic payload encoding).1 = _
    rw [heq]
    rfl
  | timeout sendOk i =>
    obtain ⟨_, _, heq⟩ := node.fireTimeout_frame sendOk i
    refine ⟨?_, rfl⟩
    show Tally.of (node.fireTimeout sendOk i).1 = _
    rw [heq]
    rfl

/-- A truncated encrypted datagram: a header that declares an empty payload, and no body. -/
def truncatedDatagram : Bytes := encodeHeader 0 .RAW 0 .AEAD

/-- A node with a key counts it as received, and neither as verified nor as failed. -/
theorem truncated_not_counted :
    ∃ node : MulticastPubSub Unit, node.encryptionEnabled = true ∧
      Tally.of (tallied.exec (node, Tally.of node) [.packet truncatedDatagram none]).1 =
        ⟨1, 0, 0⟩ ∧
      (tallied.exec (node, Tally.of node) [.packet truncatedDatagram none]).2 = ⟨1, 0, 1⟩ :=
  ⟨{ encryptionEnabled := true }, rfl, by decide +kernel, by decide +kernel⟩

/-- The counters are right in every state of a run if and only if every encrypted datagram of the
run with a valid header is as long as it declares, and fits the work buffer unless it fails to
authenticate. -/
theorem counters_iff (start : MulticastPubSub κ) (events : List (Node.Event κ)) :
    (∀ before, before <+: events →
        Tally.of (tallied.exec (start, Tally.of start) before).1 =
          (tallied.exec (start, Tally.of start) before).2) ↔
      tallied.Along (fun s e => Countable s.1 e) (start, Tally.of start) events := by
  refine tallied.forall_exec_iff_along (I := fun s => Tally.of s.1 = s.2)
    (G := fun s => Tally.of s.1 = s.2) (fun _ h => h) ?_ ?_ rfl events
  · rintro ⟨node, t⟩ e hs he
    change Tally.of node = t at hs
    subst hs
    by_cases hpacket : ∃ raw clock, e = .packet raw clock
    · obtain ⟨raw, clock, rfl⟩ := hpacket
      exact of_onPacket he
    · obtain ⟨hnode, htally⟩ := of_step (fun raw clock heq => hpacket ⟨raw, clock, heq⟩)
        (Tally.of node)
      exact hnode.trans htally.symm
  · rintro ⟨node, t⟩ e hs he
    change Tally.of node = t at hs
    subst hs
    cases e with
    | packet raw clock => exact of_onPacket_ne he
    | subscribe | subscribeTyped | publish | timeout => exact absurd trivial he

end Mpubsub.Theorems
