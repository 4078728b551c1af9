import Mpubsub.Lib.Except
import Mpubsub.Node.Dynamic
import Mpubsub.Node.Run

/-!
# Publishing without a schema

`publish_dynamic` sends a body that was built at run time. A receiver that knows nothing of a
schema reads from it what was added, nested messages included (`dynamic_delivers`). For the
members of a generated struct, the body and with it the datagram are those of the typed publish
(`dynamic_eq_typed`), so a node can stand in for another that has the struct.
-/

namespace Mpubsub.Theorems

open Mpubsub.Lib Mpubsub.Lib.Protobuf Mpubsub.Wire Mpubsub.Proto Mpubsub.Node
open Mpubsub.Node.MulticastPubSub

variable {κ κ' : Type} {enc : ProtoEncode} {varInt : ProtoVarInt} {zigzag : Zigzag}

/-! ## From a publisher to a reader -/

/-- The typed callbacks of a topic for a schema id. -/
def typedCalls (subs : List (Subscription κ)) (topic : Bytes) (schemaId : UInt16) (body : Bytes) :
    List (Invocation κ) :=
  (((subs.find? fun sub => sub.topic = topic).elim [] (·.typedCallbacks)).filter
    fun tc => tc.schemaId == schemaId).map fun tc => ⟨topic, tc.callback, body⟩

/-- A body behind its schema id is dispatched to the typed callbacks of that id. -/
theorem dispatch_eq_typedCalls (subs : List (Subscription κ)) (topic : Bytes) (schemaId : UInt16)
    (body : Bytes) :
    (match subs.find? fun sub => sub.topic = topic with
      | none => []
      | some sub => sub.dispatch .PROTOBUF (storeU16le schemaId ++ body)) =
      typedCalls subs topic schemaId body := by
  unfold typedCalls
  cases hfind : subs.find? fun sub => sub.topic = topic with
  | none => rfl
  | some sub =>
    have htopic : sub.topic = topic := by simpa using List.find?_some hfind
    have hlength : ¬(storeU16le schemaId ++ body).length < 2 := Nat.not_lt.mpr (Nat.le_add_left ..)
    have hid : loadU16le ((storeU16le schemaId ++ body).getD 0 0)
        ((storeU16le schemaId ++ body).getD 1 0) = schemaId := loadU16le_storeU16le schemaId
    have hbody : (storeU16le schemaId ++ body).drop 2 = body := rfl
    simp only [Subscription.dispatch, if_neg hlength, hid, hbody, htopic, Option.elim_some]

/-- **A dynamic message arrives**: it is refused above 1218 bytes (1182 with a key), and else sent in
one datagram; a receiver with the same key, whose guard takes the packet, hands exactly the bytes
to the callbacks of the schema id, and a reader over them yields what was added. -/
theorem dynamic_delivers (henc : enc.Standard) (hvar : varInt.Standard) (hzigzag : zigzag.Standard)
    {p : MulticastPubSub κ'} (hsocket : p.socket = true) {adds : Adds} (htags : adds.TagsOk)
    (env : PublishEnv) (topic : Bytes) (schemaId : UInt16) :
    let body := (adds.run enc {}).bytes
    let limit := if p.encryptionEnabled then 1182 else 1218
    (limit < body.length → p.publishDynamic env topic schemaId body = (p, [], false)) ∧
    (body.length ≤ limit → ∃ datagram,
      (p.publishDynamic env topic schemaId body).2 =
        ([⟨datagram, topicToGroup topic p.scope⟩], env.sendOk) ∧
      ∀ (r : MulticastPubSub κ) (clock : Option UInt32), Reachable r →
        (p.encryptionEnabled = true →
          r.encryptionEnabled = true ∧ r.encryptionKeyBytes = p.encryptionKeyBytes) →
        (p.encryptionEnabled = true →
          (replayCheck r.replayGuard clock (replayTimestamp env.clock) env.random0).2 = true) →
        (∀ sub ∈ r.subscriptions, sub.topic = topic → sub.requireEncryption = true →
          p.encryptionEnabled = true) →
        (r.onPacket datagram clock).2.filter (fun inv => inv.topic = topic) =
            typedCalls r.subscriptions topic schemaId body ∧
          ∀ (mem : Mem) (span : ByteSpan), mem.load span.data span.size = body →
            (DynamicReader.ofSpan span).Yields varInt zigzag mem adds) := by
  intro body limit
  have hlimit : limit + 2 = p.effectiveMax := by
    unfold effectiveMax
    show (if p.encryptionEnabled then 1182 else 1218) + 2 = _
    cases p.encryptionEnabled <;> rfl
  have hmax : p.effectiveMax ≤ MAX_PAYLOAD := by
    unfold effectiveMax
    split
    · exact Nat.sub_le _ _
    · exact Nat.le_refl _
  have hlength : (storeU16le schemaId ++ body).length = body.length + 2 := rfl
  constructor
  · intro hover
    unfold publishDynamic
    split
    · rfl
    · exact publish_refuses (.inr (by omega)) env topic .PROTOBUF
  · intro hfits
    have hroom : (storeU16le schemaId ++ body).length ≤ p.effectiveMax := by omega
    refine ⟨p.datagram env topic (storeU16le schemaId ++ body) .PROTOBUF, ?_, ?_⟩
    · unfold publishDynamic
      rw [if_neg (by omega)]
      exact publish_sends hsocket hroom env topic .PROTOBUF
    · intro r clock hreach hkey hreplay hreq
      have hok := hreach.wellFormed.subscriptions
      have htakes : ∀ sub ∈ r.subscriptions, sub.topic = topic →
          sub.Takes (topicCrc32 topic) p.encryptionEnabled := by
        intro sub hsub htopic
        exact ⟨by rw [hok.crc_eq sub hsub, htopic], hreq sub hsub htopic⟩
      constructor
      · rw [onPacket_datagram hroom env topic .PROTOBUF clock hkey hreplay]
        exact (filter_deliver hok.nodup htakes).trans (dispatch_eq_typedCalls ..)
      · intro mem span hload
        have hsmall : MAX_PAYLOAD = 1220 := rfl
        have hencoding : body = adds.encoding := by
          have hrun : body.length = adds.encoding.length :=
            (Adds.length_run henc adds {}).trans (Nat.zero_add _)
          exact Adds.run_eq henc htags (by omega) {}
        have hspan := congrArg List.length hload
        rw [Mem.length_load] at hspan
        refine DynamicReader.yields hvar hzigzag rfl (Nat.le_add_right _ _) ?_ ?_
        · simp only [DynamicReader.ofSpan]
          omega
        · simp only [DynamicReader.ofSpan, Nat.add_sub_cancel_left]
          rw [hload, hencoding]

/-- A number and a message with a text in it, for a receiver with two typed callbacks. -/
theorem dynamic_delivers_nested :
    let adds : Adds := .value .sint32 1 (-3 : Int32)
      (.message 2 (.value .string 1 ([0x61] : Bytes) .done) .done)
    let r : MulticastPubSub Nat := machine.exec {}
      [.subscribeTyped [116] 0 5 false, .subscribeTyped [116] 7 6 false]
    ∃ datagram, (({ socket := true } : MulticastPubSub Nat).publishDynamic {} [116] 0
        (adds.run .standard {}).bytes).2 = ([⟨datagram, topicToGroup [116] .LINK_LOCAL⟩], true) ∧
      (r.onPacket datagram none).2.filter (fun inv => inv.topic = [116]) =
        [⟨[116], 5, (adds.run .standard {}).bytes⟩] := by
  intro adds r
  have htags : adds.TagsOk := by
    simp only [adds, Adds.TagsOk]
    decide
  have hlength : (adds.run .standard {}).bytes.length = adds.encoding.length := by
    rw [DynamicMessage.bytes, Adds.length_run ProtoEncode.standard_standard]
    exact Nat.zero_add _
  have hshort : adds.encoding.length ≤ 1218 := by decide
  have hreach : Reachable r := ⟨_, _, ⟨rfl, rfl, rfl, 0, rfl⟩, rfl⟩
  obtain ⟨datagram, hsend, hrecv⟩ := (@dynamic_delivers Nat Nat .standard .standard .standard
    ProtoEncode.standard_standard ProtoVarInt.standard_standard Zigzag.standard_standard
    { socket := true } rfl adds htags {} [116] 0).2 (hlength ▸ hshort)
  have hopen : ∀ sub ∈ r.subscriptions, sub.topic = [116] → sub.requireEncryption = true →
      false = true := by
    intro sub hsub _ hrequired
    rw [List.mem_singleton.mp hsub] at hrequired
    exact hrequired
  exact ⟨datagram, hsend, (hrecv r none hreach nofun nofun hopen).1⟩

/-! ## A struct without its type -/

/-- The calls that add a member. -/
def addMember : Member → Adds → Adds
  | .singular type tag value, more => if value = type.default then more else .value type tag value more
  | .repeated type tag values, more => values.foldr (fun value more => .value type tag value more) more

/-- The calls that add the members of a struct. -/
def addStruct {msg : Message} (s : Struct msg) : Adds := s.members.foldr addMember .done

theorem encoding_addMember (m : Member) (more : Adds) :
    (addMember m more).encoding = m.encoding ++ more.encoding := by
  cases m with
  | singular type tag value =>
    simp only [addMember, Member.encoding]
    split
    · rfl
    · rfl
  | repeated type tag values =>
    simp only [addMember, Member.encoding]
    induction values with
    | nil => rfl
    | cons value values ih =>
      rw [List.foldr_cons, Adds.encoding, ih, List.flatMap_cons, List.append_assoc]

theorem encoding_addStruct {msg : Message} (s : Struct msg) :
    (addStruct s).encoding = s.encoding := by
  unfold addStruct Struct.encoding
  induction s.members with
  | nil => rfl
  | cons m members ih => rw [List.foldr_cons, encoding_addMember, ih, List.flatMap_cons]

theorem tag_ofInt {tag : Int} (h : 1 ≤ tag ∧ tag ≤ 536870911) :
    1 ≤ UInt32.ofInt tag ∧ UInt32.ofInt tag ≤ 536870911 := by
  have htag : (UInt32.ofInt tag).toNat = tag.toNat := by
    rw [UInt32.ofInt, UInt32.toNat_ofNat']
    omega
  simp only [UInt32.le_iff_toNat_le, htag]
  exact ⟨by show 1 ≤ _; omega, by show _ ≤ 536870911; omega⟩

theorem tagsOk_addMember {m : Member} {more : Adds} (hmore : more.TagsOk)
    (htag : 1 ≤ m.call.fieldId ∧ m.call.fieldId ≤ 536870911) : (addMember m more).TagsOk := by
  cases m with
  | singular type tag value =>
    simp only [addMember]
    split
    · exact hmore
    · exact ⟨htag, hmore⟩
  | repeated type tag values =>
    simp only [addMember]
    induction values with
    | nil => exact hmore
    | cons value values ih => exact ⟨htag, ih htag⟩

/-- The tags of a validated message are field numbers. -/
theorem tagsOk_addStruct {msg : Message} (hmsg : validate msg = .ok ()) (s : Struct msg) :
    (addStruct s).TagsOk := by
  have heach := (validate_iff.mp hmsg).each
  have hshape := mapM_eq_some_iff.mp s.shape
  rw [List.forall₂_map_right_iff] at hshape
  unfold addStruct
  generalize msg.fields = fields at heach hshape
  generalize s.members = members at hshape
  induction hshape with
  | nil => trivial
  | cons hcall _ ih =>
    rw [List.forall_mem_cons] at heach
    obtain ⟨type, -, hcall⟩ := Option.map_eq_some_iff.mp hcall
    rw [List.foldr_cons]
    refine tagsOk_addMember (ih heach.2) ?_
    rw [← hcall]
    exact tag_ofInt heach.1.range

/-- Adding the members of a struct encodes it. -/
theorem run_addStruct (henc : enc.Standard) {msg : Message} (hmsg : validate msg = .ok ())
    (s : Struct msg) (hsize : s.encodedSize < 2 ^ 32) :
    ((addStruct s).run enc {}).bytes = s.encoding := by
  have hrun := Adds.run_eq henc (tagsOk_addStruct hmsg s)
    (by rw [encoding_addStruct, Struct.length_encoding]; exact hsize) {}
  exact hrun.trans (encoding_addStruct s)

/-- **Dynamic is typed** up to the end of the array: adding the members of a struct and publishing
under its `SCHEMA_ID` does what the typed publish of the struct does, if the encoding has at most
1218 bytes. A longer one is refused without a trace, where the typed publish has written past
its array when it comes to the check. -/
theorem dynamic_eq_typed (henc : enc.Standard) {msg : Message} (hmsg : validate msg = .ok ())
    (s : Struct msg) (node : MulticastPubSub κ) (env : PublishEnv) (mem : Mem) (topic : Bytes) :
    (s.encodedSize ≤ 1218 →
      node.publishDynamic env topic (schemaId msg) ((addStruct s).run enc {}).bytes =
          node.publishTyped env enc mem topic s ∧
        (encodeTyped enc s mem).pos ≤ MAX_PAYLOAD) ∧
    (1218 < s.encodedSize → s.encodedSize < 2 ^ 32 →
      node.publishDynamic env topic (schemaId msg) ((addStruct s).run enc {}).bytes =
          (node, [], false) ∧
        MAX_PAYLOAD < (encodeTyped enc s mem).pos) := by
  have hpos : (encodeTyped enc s mem).pos = 2 + s.encodedSize := pos_encodeTyped henc s mem
  have hlength : s.encoding.length = s.encodedSize := s.length_encoding
  constructor
  · intro hfits
    refine ⟨?_, by rw [hpos]; exact Nat.add_le_add_left hfits 2⟩
    rw [run_addStruct henc hmsg s (Nat.lt_of_le_of_lt hfits (by decide)), publishTyped_eq henc]
    unfold publishDynamic
    rw [if_neg (by rw [hlength]; exact Nat.not_lt.mpr (Nat.add_le_add_right hfits 2))]
    rfl
  · intro hover hsize
    refine ⟨?_, by rw [hpos]; exact Nat.add_lt_add_left hover 2⟩
    rw [run_addStruct henc hmsg s hsize]
    unfold publishDynamic
    rw [if_pos (by rw [hlength]; exact Nat.add_lt_add_right hover 2)]

/-- A message with two fields. -/
def lampMessage : Message := ⟨"lamp", [⟨"on", "bool", 1, false⟩, ⟨"level", "uint32", 2, false⟩]⟩

/-- Its struct, with the lamp off: that member is not added. -/
def lamp (level : UInt32) : Struct lampMessage where
  members := [.singular .bool 1 false, .singular .uint32 2 level]
  shape := by
    have h : emitEncodeCalls lampMessage = some [⟨.bool, 1, false⟩, ⟨.uint32, 2, false⟩] := by
      decide +kernel
    exact h

/-- The lamp at level 40, published either way. -/
theorem dynamic_eq_typed_lamp :
    ({ socket := true } : MulticastPubSub Nat).publishDynamic {} [116] (schemaId lampMessage)
        ((addStruct (lamp 40)).run .standard {}).bytes =
      ({ socket := true } : MulticastPubSub Nat).publishTyped {} .standard (fun _ => 0) [116]
        (lamp 40) :=
  ((dynamic_eq_typed ProtoEncode.standard_standard (by decide +kernel) (lamp 40) _ {} _ [116]).1
    (by decide +kernel)).1

end Mpubsub.Theorems
