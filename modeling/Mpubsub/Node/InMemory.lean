import Mpubsub.Wire.InMemory
import Mpubsub.Node.Receive

/-!
# The receive path in memory (`multicast_pubsub.cpp`, `wire_format.cpp`)

`on_packet_` with its buffers and pointers: the datagram it is given, the key, and
the work array of `handle_encrypted_`. The pointers into the work array are spans of
exactly the bytes that they stand for (nonce, ciphertext, tag), so a read behind the
end of the ciphertext is out of bounds although the array goes on. A callback reads
all of the span that it gets. Each function stays inside its buffers and returns what
the function of the same name in `Mpubsub.Node` returns.
-/

namespace Mpubsub.Node.InMemory

open Mpubsub.Lib Mpubsub.Wire Mpubsub.Wire.InMemory
open Mpubsub.Replay (ReplayGuardT)

variable {κ : Type} {rawLen : Nat}

/-! ## The program -/

def loadU32leAt (p : Ptr rawLen) (off : Nat) : Access Object UInt32 := do
  let a ← p.get off
  let b ← p.get (off + 1)
  let c ← p.get (off + 2)
  let d ← p.get (off + 3)
  pure (loadU32le a b c d)

/-- `DecodedPacket`, with a view of the datagram. -/
structure DecodedPacket (rawLen : Nat) where
  topicCrc : UInt32
  encoding : Encoding
  encMode : EncMode
  plaintextLen : UInt16
  payload : Ptr rawLen

/-- `decode`, behind the checks of the first four bytes. -/
def decodeFields (data : Ptr rawLen) (enc : Encoding) (enm : EncMode) :
    Access Object (Except DecodeError (DecodedPacket rawLen)) := do
  let crc ← loadU32leAt data 4
  let lo ← data.get 8
  let hi ← data.get 9
  let payloadLen := loadU16le lo hi
  match enm with
  | .AEAD =>
    if data.len ≠ HEADER_LEN + aeadBodyLen payloadLen.toNat then
      pure (.error .CIPHERTEXT_TOO_SHORT)
    else do
      let payload ← data.drop HEADER_LEN
      pure (.ok ⟨crc, enc, enm, payloadLen, payload⟩)
  | .NONE =>
    if HEADER_LEN + payloadLen.toNat ≠ data.len then pure (.error .LENGTH_MISMATCH)
    else do
      let payload ← data.drop HEADER_LEN
      pure (.ok ⟨crc, enc, enm, payloadLen, payload⟩)

/-- `decode`. -/
def decode (data : Ptr rawLen) : Access Object (Except DecodeError (DecodedPacket rawLen)) :=
  if data.len < HEADER_LEN then pure (.error .TOO_SHORT)
  else do
    -- Both bytes are read, where the source may stop at the first.
    let m0 ← data.get 0
    let m1 ← data.get 1
    if m0 ≠ MAGIC0 ∨ m1 ≠ MAGIC1 then pure (.error .BAD_MAGIC)
    else do
      let version ← data.get 2
      if version ≠ VERSION then pure (.error .BAD_VERSION)
      else do
        let enc ← data.get 3
        match Encoding.ofUInt8 enc with
        | none => pure (.error .UNKNOWN_ENCODING)
        | some enc => do
          let enm ← data.get 10
          match EncMode.ofUInt8 enm with
          | none => pure (.error .UNKNOWN_ENC_MODE)
          | some enm => decodeFields data enc enm

/-- Callbacks that get the same span. -/
def calls (topic : Bytes) (payload : Ptr rawLen) : List κ → Access Object (List (Invocation κ))
  | [] => pure []
  | cb :: cbs => do
    let bytes ← payload.load payload.len
    let rest ← calls topic payload cbs
    pure (⟨topic, cb, bytes⟩ :: rest)

/-- The body of `deliver_`'s loop for a subscription that takes the packet. -/
def dispatch (sub : Subscription κ) (encoding : Encoding) (payload : Ptr rawLen) :
    Access Object (List (Invocation κ)) :=
  match encoding with
  | .RAW => calls sub.topic payload sub.rawCallbacks
  | .PROTOBUF =>
    if payload.len < 2 then pure []
    else do
      let lo ← payload.get 0
      let hi ← payload.get 1
      let schemaId := loadU16le lo hi
      let body ← payload.drop 2
      calls sub.topic body
        ((sub.typedCallbacks.filter fun tc => tc.schemaId == schemaId).map fun tc => tc.callback)

/-- The loop of `deliver_`: the invocations, and `crc_matched`. -/
def deliver (crc : UInt32) (encoding : Encoding) (payload : Ptr rawLen) (wasEncrypted : Bool) :
    List (Subscription κ) → Access Object (List (Invocation κ) × Bool)
  | [] => pure ([], false)
  | sub :: subs =>
    if sub.crc ≠ crc then deliver crc encoding payload wasEncrypted subs
    else if sub.requireEncryption && !wasEncrypted then do
      let (rest, _) ← deliver crc encoding payload wasEncrypted subs
      pure (rest, true)
    else do
      let called ← dispatch sub encoding payload
      let (rest, _) ← deliver crc encoding payload wasEncrypted subs
      pure (called ++ rest, true)

/-- `handle_encrypted_` behind the decryption. -/
def handleOpened (node : MulticastPubSub κ) (pkt : DecodedPacket rawLen) (nonce ct : Ptr rawLen)
    (clock : Option UInt32) : Access Object (MulticastPubSub κ × List (Invocation κ)) := do
  let node := { node with verifyOk := node.verifyOk + 1 }
  let crc ← loadU32leAt ct 0
  let ts ← loadU32leAt ct 4
  let rnonce ← loadU32leAt nonce 0
  let checked := MulticastPubSub.replayCheck node.replayGuard clock ts rnonce
  let node := { node with replayGuard := checked.1 }
  if !checked.2 then pure (node, [])
  else do
    let body ← ct.sub AEAD_PREFIX_LEN pkt.plaintextLen.toNat
    let (called, _) ← deliver crc pkt.encoding body true node.subscriptions
    pure (node, called)

/-- `handle_encrypted_` with the result of the decryption. -/
def handleResult (node : MulticastPubSub κ) (pkt : DecodedPacket rawLen) (nonce ct : Ptr rawLen)
    (opened : Bool) (clock : Option UInt32) :
    Access Object (MulticastPubSub κ × List (Invocation κ)) :=
  if !opened then pure ({ node with verifyFailed := node.verifyFailed + 1 }, [])
  else handleOpened node pkt nonce ct clock

/-- `handle_encrypted_` behind the check for a key. -/
def handleBody (node : MulticastPubSub κ) (raw : Ptr rawLen) (pkt : DecodedPacket rawLen)
    (clock : Option UInt32) : Access Object (MulticastPubSub κ × List (Invocation κ)) := do
  let work : Ptr rawLen := Object.work.data
  let bodyLen := pkt.payload.len
  if bodyLen > work.len ∨ bodyLen < AEAD_NONCE_LEN + AEAD_TAG_LEN then
    pure ({ node with verifyFailed := node.verifyFailed + 1 }, [])
  else do
    work.copy pkt.payload bodyLen
    let nonce ← work.sub 0 AEAD_NONCE_LEN
    let rest ← Access.subtract bodyLen AEAD_NONCE_LEN
    let ctLen ← Access.subtract rest AEAD_TAG_LEN
    let ct ← work.sub AEAD_NONCE_LEN ctLen
    let tag ← work.sub (AEAD_NONCE_LEN + ctLen) AEAD_TAG_LEN
    let opened ← chacha20poly1305Decrypt Object.key.data nonce raw HEADER_LEN ct ctLen tag
    handleResult node pkt nonce ct opened clock

/-- `handle_encrypted_`. -/
def handleEncrypted (node : MulticastPubSub κ) (raw : Ptr rawLen) (pkt : DecodedPacket rawLen)
    (clock : Option UInt32) : Access Object (MulticastPubSub κ × List (Invocation κ)) :=
  if !node.encryptionEnabled then pure ({ node with verifyFailed := node.verifyFailed + 1 }, [])
  else Access.scope .work (handleBody node raw pkt clock)

/-- `on_packet_`. -/
def onPacket (node : MulticastPubSub κ) (raw : Ptr rawLen) (clock : Option UInt32) :
    Access Object (MulticastPubSub κ × List (Invocation κ)) := do
  let node := { node with packetsReceived := node.packetsReceived + 1 }
  let decoded ← decode raw
  match decoded with
  | .error _ => pure (node, [])
  | .ok pkt =>
    match pkt.encMode with
    | .AEAD => handleEncrypted node raw pkt clock
    | .NONE => do
      let (called, matched) ←
        deliver pkt.topicCrc pkt.encoding pkt.payload false node.subscriptions
      if matched then pure ({ node with verifyOk := node.verifyOk + 1 }, called)
      else pure ({ node with verifyFailed := node.verifyFailed + 1 }, called)

/-! ## Each function stays inside -/

theorem loadU32leAt_eq {p : Ptr rawLen} {off : Nat} (h : off + 4 ≤ p.len) (heap : Heap Object) :
    loadU32leAt p off heap = some (Lib.loadU32leAt (heap.read p) off, heap) := by
  rw [loadU32leAt, Access.bind_eq (Span.get_eq (by omega) heap),
    Access.bind_eq (Span.get_eq (by omega) heap), Access.bind_eq (Span.get_eq (by omega) heap),
    Access.bind_eq (Span.get_eq (by omega) heap), Access.pure_eq, Lib.loadU32leAt]

/-- The packet that `decode` makes, with a view of the body. -/
def packetOf (pkt : Wire.DecodedPacket) (payload : Ptr rawLen) : DecodedPacket rawLen :=
  ⟨pkt.topicCrc, pkt.encoding, pkt.encMode, pkt.plaintextLen, payload⟩

theorem decodeFields_eq {data : Ptr rawLen} (enc : Encoding) (enm : EncMode)
    (h : HEADER_LEN + (data.len - HEADER_LEN) ≤ data.len) (heap : Heap Object) :
    decodeFields data enc enm heap = some (
      if data.len = HEADER_LEN + bodyLen enm (declaredLen (heap.read data)).toNat then
        .ok (packetOf (Wire.packetOf (heap.read data) enc enm)
          (data.part HEADER_LEN (data.len - HEADER_LEN) h))
      else match enm with
        | .AEAD => .error .CIPHERTEXT_TOO_SHORT
        | .NONE => .error .LENGTH_MISMATCH, heap) := by
  have hlen : 12 ≤ data.len := by
    simp only [HEADER_LEN] at h
    omega
  rw [decodeFields, Access.bind_eq (loadU32leAt_eq (by omega) heap),
    Access.bind_eq (Span.get_eq (by omega) heap), Access.bind_eq (Span.get_eq (by omega) heap)]
  by_cases hsize : data.len = HEADER_LEN + bodyLen enm (declaredLen (heap.read data)).toNat
  · rw [if_pos hsize]
    cases enm with
    | AEAD =>
      refine Eq.trans (congrFun (if_neg (not_not.mpr hsize)) heap) ?_
      rw [Access.bind_eq (Span.drop_eq h heap), Access.pure_eq]
      rfl
    | NONE =>
      refine Eq.trans (congrFun (if_neg (not_not.mpr hsize.symm)) heap) ?_
      rw [Access.bind_eq (Span.drop_eq h heap), Access.pure_eq]
      rfl
  · rw [if_neg hsize]
    cases enm with
    | AEAD => exact congrFun (if_pos hsize) heap
    | NONE => exact congrFun (if_pos (Ne.symm hsize)) heap

/-- `decode` reads the header inside the datagram. -/
theorem decode_eq (data : Ptr rawLen) (heap : Heap Object) :
    (∃ e, Wire.decode (heap.read data) = .error e ∧
      decode data heap = some (.error e, heap)) ∨
    (∃ pkt, ∃ h : HEADER_LEN + (data.len - HEADER_LEN) ≤ data.len,
      Wire.decode (heap.read data) = .ok pkt ∧
      decode data heap = some (.ok (packetOf pkt (data.part HEADER_LEN (data.len - HEADER_LEN) h)),
        heap)) := by
  unfold decode Wire.decode
  rw [Heap.length_read]
  split
  · exact .inl ⟨_, rfl, rfl⟩
  rename_i hlen
  have h : HEADER_LEN + (data.len - HEADER_LEN) ≤ data.len := by omega
  have hlen : 12 ≤ data.len := Nat.not_lt.mp hlen
  rw [Access.bind_eq (Span.get_eq (by omega) heap), Access.bind_eq (Span.get_eq (by omega) heap)]
  split
  · exact .inl ⟨_, rfl, rfl⟩
  rw [Access.bind_eq (Span.get_eq (by omega) heap)]
  split
  · exact .inl ⟨_, rfl, rfl⟩
  rw [Access.bind_eq (Span.get_eq (by omega) heap)]
  cases Encoding.ofUInt8 ((heap.read data).getD 3 0) with
  | none => exact .inl ⟨_, rfl, rfl⟩
  | some enc =>
    simp only
    rw [Access.bind_eq (Span.get_eq (by omega) heap)]
    cases EncMode.ofUInt8 ((heap.read data).getD 10 0) with
    | none => exact .inl ⟨_, rfl, rfl⟩
    | some enm =>
      simp only
      rw [decodeFields_eq enc enm h heap]
      by_cases hsize : data.len = HEADER_LEN + bodyLen enm (declaredLen (heap.read data)).toNat
      · rw [if_pos hsize]
        refine .inr ⟨Wire.packetOf (heap.read data) enc enm, h, ?_, rfl⟩
        cases enm with
        | AEAD => exact if_neg (not_not.mpr hsize)
        | NONE => exact if_neg (not_not.mpr hsize.symm)
      · rw [if_neg hsize]
        cases enm with
        | AEAD => exact .inl ⟨_, if_pos hsize, rfl⟩
        | NONE => exact .inl ⟨_, if_pos (Ne.symm hsize), rfl⟩

theorem calls_eq (topic : Bytes) (payload : Ptr rawLen) (cbs : List κ) (heap : Heap Object) :
    calls topic payload cbs heap =
      some (cbs.map fun cb => ⟨topic, cb, heap.read payload⟩, heap) := by
  induction cbs with
  | nil => rfl
  | cons cb cbs ih =>
    rw [calls, Access.bind_eq (Span.load_eq (le_refl _) heap), Access.bind_eq ih, Access.pure_eq,
      List.take_of_length_le (by rw [Heap.length_read]), List.map_cons]

/-- `payload[0]`, `payload[1]` and `subspan(2)` are taken of two bytes or more. -/
theorem dispatch_eq (sub : Subscription κ) (encoding : Encoding) (payload : Ptr rawLen)
    (heap : Heap Object) :
    dispatch sub encoding payload heap =
      some (sub.dispatch encoding (heap.read payload), heap) := by
  unfold dispatch Subscription.dispatch
  cases encoding with
  | RAW => exact calls_eq ..
  | PROTOBUF =>
    simp only [Heap.length_read]
    split
    · rfl
    · rename_i hlen
      have hinside : 2 + (payload.len - 2) ≤ payload.len := by omega
      rw [Access.bind_eq (Span.get_eq (by omega) heap),
        Access.bind_eq (Span.get_eq (by omega) heap), Access.bind_eq (Span.drop_eq hinside heap),
        calls_eq, Heap.read_rest, List.map_map]
      rfl

theorem deliver_eq (crc : UInt32) (encoding : Encoding) (payload : Ptr rawLen)
    (wasEncrypted : Bool) (subs : List (Subscription κ)) (heap : Heap Object) :
    deliver crc encoding payload wasEncrypted subs heap =
      some (Node.deliver crc encoding (heap.read payload) wasEncrypted subs, heap) := by
  induction subs with
  | nil => rfl
  | cons sub subs ih =>
    unfold deliver Node.deliver
    split
    · exact ih
    split
    · rw [Access.bind_eq ih]
      rfl
    · rw [Access.bind_eq (dispatch_eq sub encoding payload heap), Access.bind_eq ih]
      rfl

theorem keyOf_toList (key : Key) : keyOf (key.toList.take 32) = key := by
  rw [List.take_of_length_le (by rw [Vector.length_toList])]
  apply Vector.ext
  intro i hi
  rw [keyOf, Vector.getElem_ofFn, List.getD_eq_getElem _ _ (by rw [Vector.length_toList]; exact hi),
    Vector.getElem_toList]

/-- Where `handle_encrypted_` is called: the body is as long as the header declares, behind a
header in the datagram. -/
structure BodyFits (raw : Ptr rawLen) (pkt : Wire.DecodedPacket) (payload : Ptr rawLen) : Prop where
  rawObj : raw.obj = .raw
  rawLen : HEADER_LEN ≤ raw.len
  payloadObj : payload.obj = .raw
  payloadLen : payload.len = aeadBodyLen pkt.plaintextLen.toNat

/-- What becomes of an opened packet. -/
def opened (node : MulticastPubSub κ) (pkt : Wire.DecodedPacket) (nonce plain : Bytes)
    (clock : Option UInt32) : MulticastPubSub κ × List (Invocation κ) :=
  let node := { node with verifyOk := node.verifyOk + 1 }
  let checked := MulticastPubSub.replayCheck node.replayGuard clock (Lib.loadU32leAt plain 4)
    (Lib.loadU32leAt nonce 0)
  let node := { node with replayGuard := checked.1 }
  if !checked.2 then (node, [])
  else (node, (Node.deliver (Lib.loadU32leAt plain 0) pkt.encoding
    ((plain.drop AEAD_PREFIX_LEN).take pkt.plaintextLen.toNat) true node.subscriptions).1)

theorem handleEncrypted_of_key {node : MulticastPubSub κ} (henabled : node.encryptionEnabled = true)
    (raw : Bytes) (pkt : Wire.DecodedPacket) (clock : Option UInt32) :
    node.handleEncrypted raw pkt clock =
      if pkt.payload.length > MAX_DATAGRAM ∨
          pkt.payload.length < AEAD_NONCE_LEN + AEAD_TAG_LEN then
        ({ node with verifyFailed := node.verifyFailed + 1 }, [])
      else match openBody node.encryptionKeyBytes (raw.take HEADER_LEN) pkt.payload with
        | none => ({ node with verifyFailed := node.verifyFailed + 1 }, [])
        | some plain => opened node pkt (pkt.payload.take AEAD_NONCE_LEN) plain clock := by
  have hkey : ¬((!node.encryptionEnabled) = true) := by
    rw [henabled]
    exact Bool.false_ne_true
  unfold MulticastPubSub.handleEncrypted
  rw [if_neg hkey]
  rfl

/-- Behind the decryption: the prefix and the payload are in the ciphertext. -/
theorem handleOpened_eq (node : MulticastPubSub κ) (pkt : Wire.DecodedPacket)
    (payload nonce ct : Ptr rawLen) (clock : Option UInt32) (hnonce : nonce.len = AEAD_NONCE_LEN)
    (hct : ct.len = AEAD_PREFIX_LEN + pkt.plaintextLen.toNat) (heap : Heap Object) :
    handleOpened node (packetOf pkt payload) nonce ct clock heap =
      some (opened node pkt (heap.read nonce) (heap.read ct) clock, heap) := by
  have hprefix : 8 ≤ ct.len := by
    rw [hct, AEAD_PREFIX_LEN]
    omega
  rw [handleOpened, Access.bind_eq (loadU32leAt_eq (by omega) heap),
    Access.bind_eq (loadU32leAt_eq (by omega) heap),
    Access.bind_eq (loadU32leAt_eq (by rw [hnonce, AEAD_NONCE_LEN]; omega) heap)]
  simp only [opened]
  split
  · rfl
  · refine (Access.bind_eq (Span.sub_eq (le_of_eq hct.symm) heap)).trans ?_
    refine (Access.bind_eq (deliver_eq _ _ _ _ _ heap)).trans ?_
    rw [Heap.read_part]
    rfl

/-- A part of the copy in the work array is a part of the body. -/
theorem read_work (heap : Heap Object) {body : Bytes} {off len : Nat}
    (hin : off + len ≤ (Object.work.data : Ptr rawLen).len) (hbody : off + len ≤ body.length)
    (hmax : body.length ≤ MAX_DATAGRAM) :
    (heap.write (Object.work.data : Ptr rawLen) 0 body).read
        ((Object.work.data : Ptr rawLen).part off len hin) = (body.drop off).take len := by
  have hfits : 0 + body.length ≤ (Object.work.data : Ptr rawLen).len := by
    rw [Nat.zero_add]
    exact hmax
  rw [Heap.read_part, Heap.read_write heap hfits, List.take_zero, List.nil_append,
    List.drop_append_of_le_length (by omega), List.take_append_of_le_length (by
      rw [List.length_drop]; omega)]

section

variable {raw : Ptr rawLen} {body : Bytes} {ctLen : Nat} {heap : Heap Object}
  (hin : 0 + AEAD_NONCE_LEN ≤ (Object.work.data : Ptr rawLen).len)
  (hctIn : AEAD_NONCE_LEN + ctLen ≤ (Object.work.data : Ptr rawLen).len)
  (htagIn : AEAD_NONCE_LEN + ctLen + AEAD_TAG_LEN ≤ (Object.work.data : Ptr rawLen).len)

/-- The parts of the work array are what `openBody` takes from the body. -/
theorem decryptWork_eq {key : Key} (hkey : heap.read (Object.key.data : Ptr rawLen) = key.toList)
    (hobj : raw.obj = .raw) (hraw : HEADER_LEN ≤ raw.len) (hmax : body.length ≤ MAX_DATAGRAM)
    (hctLen : body.length = AEAD_NONCE_LEN + ctLen + AEAD_TAG_LEN) :
    chacha20poly1305Decrypt (Object.key.data : Ptr rawLen)
        ((Object.work.data : Ptr rawLen).part 0 AEAD_NONCE_LEN hin) raw HEADER_LEN
        ((Object.work.data : Ptr rawLen).part AEAD_NONCE_LEN ctLen hctIn) ctLen
        ((Object.work.data : Ptr rawLen).part (AEAD_NONCE_LEN + ctLen) AEAD_TAG_LEN htagIn)
        (heap.write (Object.work.data : Ptr rawLen) 0 body) =
      match openBody key ((heap.read raw).take HEADER_LEN) body with
      | none => some (false, heap.write (Object.work.data : Ptr rawLen) 0 body)
      | some plain => some (true, (heap.write (Object.work.data : Ptr rawLen) 0 body).write
          ((Object.work.data : Ptr rawLen).part AEAD_NONCE_LEN ctLen hctIn) 0 plain) := by
  have hfits : DecryptFits (Object.key.data : Ptr rawLen)
      ((Object.work.data : Ptr rawLen).part 0 AEAD_NONCE_LEN hin) raw HEADER_LEN
      ((Object.work.data : Ptr rawLen).part AEAD_NONCE_LEN ctLen hctIn) ctLen
      ((Object.work.data : Ptr rawLen).part (AEAD_NONCE_LEN + ctLen) AEAD_TAG_LEN htagIn) :=
    { keyLen := le_refl 32, nonceLen := le_refl 12, aadLen := hraw, bufLen := le_refl ctLen
      tagLen := le_refl 16, keyPassed := .inr (.inl rfl), noncePassed := .inr (.inr rfl)
      aadPassed := .inl hobj, bufPassed := .inr (.inr rfl), tagPassed := .inr (.inr rfl)
      keyApart := Object.data_ne (by decide : Object.key ≠ .work), nonceApart := .inr (le_refl 12) }
  have hkey' : (heap.write (Object.work.data : Ptr rawLen) 0 body).read
      (Object.key.data : Ptr rawLen) = key.toList := by
    rw [Heap.read_write_of_ne heap (Object.data_ne (by decide : Object.key ≠ .work)), hkey]
  have hraw' : (heap.write (Object.work.data : Ptr rawLen) 0 body).read raw = heap.read raw := by
    refine Heap.read_write_of_ne heap ?_ 0 body
    rw [hobj]
    exact (by decide : Object.raw ≠ .work)
  have hct : body.length - AEAD_NONCE_LEN - AEAD_TAG_LEN = ctLen := by omega
  have hnonce : ((heap.write (Object.work.data : Ptr rawLen) 0 body).read
      ((Object.work.data : Ptr rawLen).part 0 AEAD_NONCE_LEN hin)).take 12 =
      body.take AEAD_NONCE_LEN := by
    rw [read_work heap hin (by omega) hmax, List.drop_zero, List.take_take]
    rfl
  have hbuf : ((heap.write (Object.work.data : Ptr rawLen) 0 body).read
      ((Object.work.data : Ptr rawLen).part AEAD_NONCE_LEN ctLen hctIn)).take ctLen =
      (body.drop AEAD_NONCE_LEN).take ctLen := by
    rw [read_work heap hctIn (by omega) hmax, List.take_take, Nat.min_self]
  have htag : ((heap.write (Object.work.data : Ptr rawLen) 0 body).read
      ((Object.work.data : Ptr rawLen).part (AEAD_NONCE_LEN + ctLen) AEAD_TAG_LEN htagIn)).take 16 =
      body.drop (AEAD_NONCE_LEN + ctLen) := by
    rw [read_work heap htagIn (by omega) hmax, List.take_take]
    refine List.take_of_length_le ?_
    rw [List.length_drop, hctLen, Nat.add_sub_cancel_left]
    exact le_refl 16
  have hopen : openBody key ((heap.read raw).take HEADER_LEN) body =
      Wire.chacha20poly1305Decrypt key (body.take AEAD_NONCE_LEN) ((heap.read raw).take HEADER_LEN)
        ((body.drop AEAD_NONCE_LEN).take ctLen) (body.drop (AEAD_NONCE_LEN + ctLen)) := by
    simp only [openBody, hct]
  have hrun := chacha20poly1305Decrypt_eq hfits (heap.write (Object.work.data : Ptr rawLen) 0 body)
  rw [hkey', keyOf_toList, hraw', hnonce, hbuf, htag, ← hopen] at hrun
  refine hrun.trans ?_
  cases openBody key ((heap.read raw).take HEADER_LEN) body <;> rfl

end

/-- Behind the check of the length: the copy fits the work array, and the parts are in it. -/
theorem handleBody_run (node : MulticastPubSub κ) (raw : Ptr rawLen)
    (pkt : DecodedPacket rawLen) (clock : Option UInt32) {ctLen : Nat}
    (hmax : pkt.payload.len ≤ MAX_DATAGRAM)
    (hlen : pkt.payload.len = AEAD_NONCE_LEN + ctLen + AEAD_TAG_LEN)
    (hin : 0 + AEAD_NONCE_LEN ≤ (Object.work.data : Ptr rawLen).len)
    (hctIn : AEAD_NONCE_LEN + ctLen ≤ (Object.work.data : Ptr rawLen).len)
    (htagIn : AEAD_NONCE_LEN + ctLen + AEAD_TAG_LEN ≤ (Object.work.data : Ptr rawLen).len)
    (heap : Heap Object) :
    handleBody node raw pkt clock heap = (do
      let opened ← chacha20poly1305Decrypt (Object.key.data : Ptr rawLen)
        ((Object.work.data : Ptr rawLen).part 0 AEAD_NONCE_LEN hin) raw HEADER_LEN
        ((Object.work.data : Ptr rawLen).part AEAD_NONCE_LEN ctLen hctIn) ctLen
        ((Object.work.data : Ptr rawLen).part (AEAD_NONCE_LEN + ctLen) AEAD_TAG_LEN htagIn)
      handleResult node pkt ((Object.work.data : Ptr rawLen).part 0 AEAD_NONCE_LEN hin)
        ((Object.work.data : Ptr rawLen).part AEAD_NONCE_LEN ctLen hctIn) opened clock)
      (heap.write (Object.work.data : Ptr rawLen) 0 (heap.read pkt.payload)) := by
  have hgood : ¬(pkt.payload.len > (Object.work.data : Ptr rawLen).len ∨
      pkt.payload.len < AEAD_NONCE_LEN + AEAD_TAG_LEN) := by
    rw [not_or]
    exact ⟨Nat.not_lt.mpr hmax, by omega⟩
  have hcopy : Span.copy (Object.work.data : Ptr rawLen) pkt.payload pkt.payload.len heap =
      some ((), heap.write (Object.work.data : Ptr rawLen) 0 (heap.read pkt.payload)) := by
    rw [Span.copy_eq (le_refl _) hmax, List.take_of_length_le (by rw [Heap.length_read])]
  have hsub (heap : Heap Object) : Access.subtract (pkt.payload.len - AEAD_NONCE_LEN) AEAD_TAG_LEN
      heap = some (ctLen, heap) := by
    rw [Access.subtract_eq (by omega), hlen, Nat.add_assoc, Nat.add_sub_cancel_left,
      Nat.add_sub_cancel]
  unfold handleBody
  refine (congrFun (if_neg hgood) heap).trans ?_
  rw [Access.bind_eq hcopy, Access.bind_eq (Span.sub_eq hin _),
    Access.bind_eq (Access.subtract_eq (by omega) _), Access.bind_eq (hsub _),
    Access.bind_eq (Span.sub_eq hctIn _), Access.bind_eq (Span.sub_eq htagIn _)]

/-- Behind the check for a key. -/
theorem handleBody_eq (node : MulticastPubSub κ) (raw : Ptr rawLen) (pkt : Wire.DecodedPacket)
    (payload : Ptr rawLen) (clock : Option UInt32) (h : BodyFits raw pkt payload)
    (heap : Heap Object) (hkey : (heap.read (Object.key.data : Ptr rawLen)) =
      node.encryptionKeyBytes.toList) (hpayload : heap.read payload = pkt.payload)
    (henabled : node.encryptionEnabled = true) :
    ∃ w, handleBody node raw (packetOf pkt payload) clock heap =
      some (node.handleEncrypted (heap.read raw) pkt clock, Function.update heap .work w) := by
  have hlen : pkt.payload.length = payload.len := by rw [← hpayload, Heap.length_read]
  have hwork : (Object.work.data : Ptr rawLen).len = MAX_DATAGRAM := rfl
  rw [handleEncrypted_of_key henabled, hlen]
  by_cases hbad : payload.len > MAX_DATAGRAM ∨ payload.len < AEAD_NONCE_LEN + AEAD_TAG_LEN
  · refine ⟨heap .work, ?_⟩
    rw [if_pos hbad, Function.update_eq_self]
    exact congrFun (if_pos hbad) heap
  obtain ⟨hmax, hmin⟩ := not_or.mp hbad
  obtain ⟨ctLen, hctLen⟩ : ∃ ctLen, payload.len = AEAD_NONCE_LEN + ctLen + AEAD_TAG_LEN :=
    ⟨payload.len - AEAD_NONCE_LEN - AEAD_TAG_LEN, by omega⟩
  have hin : 0 + AEAD_NONCE_LEN ≤ (Object.work.data : Ptr rawLen).len := by omega
  have hctIn : AEAD_NONCE_LEN + ctLen ≤ (Object.work.data : Ptr rawLen).len := by omega
  have htagIn : AEAD_NONCE_LEN + ctLen + AEAD_TAG_LEN ≤ (Object.work.data : Ptr rawLen).len := by
    omega
  have hdecrypt := decryptWork_eq hin hctIn htagIn hkey h.rawObj h.rawLen
    (by omega : pkt.payload.length ≤ MAX_DATAGRAM) (by omega)
  rw [if_neg hbad, handleBody_run node raw (packetOf pkt payload) clock (Nat.not_lt.mp hmax)
    hctLen hin hctIn htagIn heap]
  rw [show (packetOf pkt payload).payload = payload from rfl, hpayload]
  cases hopen : openBody node.encryptionKeyBytes ((heap.read raw).take HEADER_LEN) pkt.payload with
  | none =>
    rw [hopen] at hdecrypt
    exact ⟨_, Access.bind_eq hdecrypt⟩
  | some plain =>
    rw [hopen] at hdecrypt
    have hplain : plain.length = ctLen := by
      rw [length_of_openBody hopen]
      omega
    have hpart : ctLen = AEAD_PREFIX_LEN + pkt.plaintextLen.toNat := by
      have hbody := h.payloadLen
      rw [aeadBodyLen] at hbody
      omega
    -- The body is copied into `work`, and then decrypted where it stands.
    obtain ⟨heap1, hheap1⟩ : ∃ heap1, heap1 =
      heap.write (Object.work.data : Ptr rawLen) 0 pkt.payload := ⟨_, rfl⟩
    obtain ⟨heap2, hheap2⟩ : ∃ heap2, heap2 = heap1.write
      ((Object.work.data : Ptr rawLen).part AEAD_NONCE_LEN ctLen hctIn) 0 plain := ⟨_, rfl⟩
    have hct : heap2.read ((Object.work.data : Ptr rawLen).part AEAD_NONCE_LEN ctLen hctIn) =
        plain := by
      rw [hheap2, Heap.read_write_self heap1 hplain]
    have hnonce : heap2.read ((Object.work.data : Ptr rawLen).part 0 AEAD_NONCE_LEN hin) =
        pkt.payload.take AEAD_NONCE_LEN := by
      rw [hheap2, Heap.read_write_of_le heap1 (le_refl 12), hheap1,
        read_work heap hin (by omega) (by omega), List.drop_zero]
    have hopened := handleOpened_eq node pkt payload
      ((Object.work.data : Ptr rawLen).part 0 AEAD_NONCE_LEN hin)
      ((Object.work.data : Ptr rawLen).part AEAD_NONCE_LEN ctLen hctIn) clock rfl hpart heap2
    rw [hct, hnonce] at hopened
    obtain ⟨w1, hw1⟩ : ∃ w, heap1 = Function.update heap .work w := ⟨_, hheap1⟩
    obtain ⟨w2, hw2⟩ : ∃ w, heap2 = Function.update heap1 .work w := ⟨_, hheap2⟩
    refine ⟨w2, ?_⟩
    rw [Access.bind_eq hdecrypt, ← hheap1, ← hheap2]
    refine hopened.trans ?_
    rw [hw2, hw1, Function.update_idem]

/-- `handle_encrypted_` stays inside its buffers. -/
theorem handleEncrypted_eq (node : MulticastPubSub κ) (raw : Ptr rawLen)
    (pkt : Wire.DecodedPacket) (payload : Ptr rawLen) (clock : Option UInt32)
    (h : BodyFits raw pkt payload) (heap : Heap Object)
    (hkey : (heap.read (Object.key.data : Ptr rawLen)) = node.encryptionKeyBytes.toList)
    (hpayload : heap.read payload = pkt.payload) :
    handleEncrypted node raw (packetOf pkt payload) clock heap =
      some (node.handleEncrypted (heap.read raw) pkt clock, heap) := by
  unfold handleEncrypted
  cases henabled : node.encryptionEnabled with
  | false =>
    unfold MulticastPubSub.handleEncrypted
    simp only [henabled]
    rfl
  | true =>
    obtain ⟨w, hbody⟩ := handleBody_eq node raw pkt payload clock h heap hkey hpayload henabled
    exact Access.scope_eq hbody rfl

/-! ## The whole path -/

/-- The memory that `on_packet_` is called with: the datagram and the key, and whatever the stack
holds. -/
def heapOf (node : MulticastPubSub κ) (raw : Bytes) (stack : Heap Object) : Heap Object :=
  Function.update (Function.update stack .raw fun i => raw.getD i 0) .key
    fun i => node.encryptionKeyBytes.toList.getD i 0

theorem read_raw (node : MulticastPubSub κ) (raw : Bytes) (stack : Heap Object) :
    (heapOf node raw stack).read (Object.raw.data : Ptr raw.length) = raw := by
  unfold heapOf Heap.read
  rw [show (Object.raw.data : Ptr raw.length).obj = Object.raw from rfl,
    Function.update_of_ne (by decide), Function.update_self]
  exact Mem.load_getD raw

theorem read_key (rawLen : Nat) (node : MulticastPubSub κ) (raw : Bytes) (stack : Heap Object) :
    (heapOf node raw stack).read (Object.key.data : Ptr rawLen) =
      node.encryptionKeyBytes.toList := by
  have hlen : (Object.key.data : Ptr rawLen).len = node.encryptionKeyBytes.toList.length :=
    (Vector.length_toList ..).symm
  unfold heapOf Heap.read
  rw [show (Object.key.data : Ptr rawLen).obj = Object.key from rfl, Function.update_self, hlen]
  exact Mem.load_getD _

/-- `on_packet_` stays inside its buffers. -/
theorem onPacket_eq (node : MulticastPubSub κ) {raw : Ptr rawLen} (hobj : raw.obj = .raw)
    (clock : Option UInt32) (heap : Heap Object)
    (hkey : (heap.read (Object.key.data : Ptr rawLen)) = node.encryptionKeyBytes.toList) :
    onPacket node raw clock heap = some (node.onPacket (heap.read raw) clock, heap) := by
  unfold onPacket MulticastPubSub.onPacket
  rcases decode_eq raw heap with ⟨e, hwire, hdecode⟩ | ⟨pkt, hin, hwire, hdecode⟩
  · rw [Access.bind_eq hdecode, hwire]
    rfl
  obtain ⟨-, hpkt, hsize⟩ := decode_eq_ok_iff.mp hwire
  have hpayload : heap.read (raw.part HEADER_LEN (raw.len - HEADER_LEN) hin) = pkt.payload := by
    rw [Heap.read_rest, hpkt]
    rfl
  rw [Heap.length_read] at hsize
  rw [Access.bind_eq hdecode, hwire]
  simp only [packetOf]
  cases hmode : pkt.encMode with
  | AEAD =>
    have hfits : BodyFits raw pkt (raw.part HEADER_LEN (raw.len - HEADER_LEN) hin) :=
      { rawObj := hobj, rawLen := by omega, payloadObj := hobj
        payloadLen := by
          show raw.len - HEADER_LEN = _
          rw [hsize, hmode, bodyLen, Nat.add_sub_cancel_left] }
    have hrun := handleEncrypted_eq { node with packetsReceived := node.packetsReceived + 1 } raw
      pkt _ clock hfits heap hkey hpayload
    unfold packetOf at hrun
    rw [hmode] at hrun
    exact hrun
  | NONE =>
    refine (Access.bind_eq (deliver_eq _ _ _ _ _ heap)).trans ?_
    rw [hpayload]
    simp only
    split <;> rfl

end Mpubsub.Node.InMemory
