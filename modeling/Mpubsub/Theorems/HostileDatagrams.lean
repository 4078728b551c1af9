import Mpubsub.Theorems.Dispatch
import Mpubsub.Theorems.ReceiverAgreement

/-!
# Datagrams that raise (`aio.py`)

What a client does with whatever arrives, when its subscriptions use Python's text codecs.
`decode` raises `WireError`, which is caught, except for a key of another length than 32: the
constructor takes such a key, and the first encrypted packet of a consistent length then raises
a plain `ValueError` (`returns_iff`).
-/

namespace Mpubsub.Theorems

open Mpubsub.Lib Mpubsub.Client MpubsubClient

/-! ## The property -/

/-- `_handle_datagram` returns. -/
def Returns {ε : Type} (handled : Handled ε) : Prop := handled.raised = none

/-- The constructor's key is one that the AEAD takes, or none. -/
def KeyFits : KeyArg → Prop
  | .none => True
  | .str _ => True
  | .bytes key => key.length = 32

/-- An encrypted packet as far as `decode` looks before it looks at the key. -/
structure EncryptedPacket (data : Bytes) : Prop where
  header : ¬data.length < Reference.HEADER_LEN
  magic : Reference.slice data 0 2 = Reference.MAGIC
  version : data.getD 2 0 = Reference.VERSION
  encoding : (data.getD 3 0).toNat ∈ Reference.KNOWN_ENCODINGS
  encMode : (data.getD 10 0).toNat = Reference.ENC_MODE_AEAD
  length : data.length = Reference.HEADER_LEN +
    Reference.aeadBodyLen (ofBytesLE (Reference.slice data 8 2))

/-- The call subscribes with one of the text codecs or with none, if it subscribes. -/
def TextOnly {ε : Type} : Input ε → Prop
  | .call (.subscribe _ encoding _ _) => encoding ∈ TEXT_ENCODINGS
  | _ => True

/-! ## Decoding -/

/-- `decode` with a key of another length. -/
theorem decode_cases {key : Bytes} (hkey : key.length ≠ 32) (data : Bytes) :
    (EncryptedPacket data ∧ Reference.decode data (some key) = .error (.keyLength key.length)) ∨
      ¬EncryptedPacket data ∧ ((∃ w, Reference.decode data (some key) = .error (.wireError w)) ∨
        ∃ msg, Reference.decode data (some key) = .ok msg) := by
  unfold Reference.decode
  by_cases hlen : data.length < Reference.HEADER_LEN
  · exact .inr ⟨fun h => h.header hlen, .inl ⟨_, if_pos hlen⟩⟩
  rw [if_neg hlen]
  by_cases hmagic : Reference.slice data 0 2 ≠ Reference.MAGIC
  · exact .inr ⟨fun h => hmagic h.magic, .inl ⟨_, if_pos hmagic⟩⟩
  rw [if_neg hmagic]
  simp only
  by_cases hversion : data.getD 2 0 ≠ Reference.VERSION
  · exact .inr ⟨fun h => hversion h.version, .inl ⟨_, if_pos hversion⟩⟩
  rw [if_neg hversion]
  by_cases hencoding : (data.getD 3 0).toNat ∉ Reference.KNOWN_ENCODINGS
  · exact .inr ⟨fun h => hencoding h.encoding, .inl ⟨_, if_pos hencoding⟩⟩
  rw [if_neg hencoding]
  by_cases hknown : (data.getD 10 0).toNat ∉ Reference.KNOWN_ENC_MODES
  · refine .inr ⟨fun h => hknown ?_, .inl ⟨_, if_pos hknown⟩⟩
    rw [h.encMode]
    decide
  rw [if_neg hknown]
  by_cases hmode : (data.getD 10 0).toNat = Reference.ENC_MODE_AEAD
  · rw [if_pos hmode]
    by_cases hlength : data.length ≠ Reference.HEADER_LEN +
        Reference.aeadBodyLen (ofBytesLE (Reference.slice data 8 2))
    · exact .inr ⟨fun h => hlength h.length, .inl ⟨_, if_pos hlength⟩⟩
    rw [if_neg hlength, if_pos hkey]
    exact .inl ⟨⟨hlen, not_not.mp hmagic, not_not.mp hversion, not_not.mp hencoding, hmode,
      not_not.mp hlength⟩, rfl⟩
  · rw [if_neg hmode]
    refine .inr ⟨fun h => hmode h.encMode, ?_⟩
    split
    · exact .inl ⟨_, rfl⟩
    · exact .inr ⟨_, rfl⟩

/-- With a key of the right length or none, `decode` raises `WireError` only. -/
theorem wireError_of_decode {key : Option Bytes} (hkey : ∀ k ∈ key, k.length = 32) {data : Bytes}
    {error : Reference.DecodeException} (h : Reference.decode data key = .error error) :
    ∃ w, error = .wireError w := by
  have houtcome := reference_decode hkey data
  rw [h] at houtcome
  cases error with
  | wireError w => exact ⟨w, rfl⟩
  | keyLength len => exact houtcome.elim
  | structError len => exact houtcome.elim

/-- The key of a client is of the right length, unless it was given as bytes of another one. -/
theorem keyOf_cases (key : KeyArg) :
    (KeyFits key ∧ ∀ k ∈ Client.keyOf key, k.length = 32) ∨
      ¬KeyFits key ∧ ∃ k, Client.keyOf key = some k ∧ k.length ≠ 32 := by
  cases key with
  | none => exact .inl ⟨trivial, fun k hk => by cases hk⟩
  | str passphrase =>
    refine .inl ⟨trivial, ?_⟩
    intro k hk
    simp only [Client.keyOf] at hk
    split at hk
    · cases hk
    · cases hk
      exact Wire.Sha256.length_hash _
  | bytes key =>
    by_cases hlen : key.length = 32
    · refine .inl ⟨hlen, ?_⟩
      intro k hk
      cases hk
      exact hlen
    · exact .inr ⟨hlen, key, rfl, hlen⟩

/-! ## The codecs -/

section

variable {ε : Type} {cfg : Settings} {others : Codecs ε}

/-- The text codecs raise `UnicodeDecodeError` only. -/
theorem textCodecs_decode {subscription : Subscription}
    (h : subscription.encoding ∈ TEXT_ENCODINGS) (payload : Bytes) (e : ε) :
    decodePayload (textCodecs others) subscription payload ≠ .error (.other e) := by
  have hcases : subscription.encoding = none ∨ subscription.encoding = some "utf-8" ∨
      subscription.encoding = some "ascii" ∨ subscription.encoding = some "latin-1" := by
    simpa [TEXT_ENCODINGS] using h
  unfold decodePayload textCodecs
  rcases hcases with hencoding | hencoding | hencoding | hencoding
  · rw [hencoding]
    exact fun h => by cases h
  · rw [hencoding]
    simp only [if_true]
    split <;> exact fun h => by cases h
  · rw [hencoding]
    simp only [String.reduceEq, if_false, if_true]
    split <;> exact fun h => by cases h
  · rw [hencoding]
    exact fun h => by cases h

/-- The new subscriptions of a call. -/
theorem step_subscriptions {c : MpubsubClient} (h : c.Indexed cfg) (e : Event) :
    ∀ s ∈ (c.step cfg e).1.subscriptions, s ∈ c.subscriptions ∨
      ∃ topic known ok, e = .subscribe topic s.encoding known ok := by
  intro s hs
  cases e with
  | start ifindex =>
    simp only [MpubsubClient.step, MpubsubClient.start] at hs
    split at hs <;> exact .inl hs
  | stop => exact .inl hs
  | subscribe topic encoding known ok =>
    have hcases := subscribe_subscribes h.cached topic encoding known ok
    simp only [MpubsubClient.step] at hs
    generalize c.subscribe cfg topic encoding known ok = result at hcases hs
    have hnew (hs : s ∈ c.subscriptions ++ [⟨topic, encoding⟩]) : s ∈ c.subscriptions ∨
        ∃ topic' known' ok', Event.subscribe topic encoding known ok =
          .subscribe topic' s.encoding known' ok' := by
      rcases List.mem_append.mp hs with hs | hs
      · exact .inl hs
      · rw [List.mem_singleton.mp hs]
        exact .inr ⟨topic, known, ok, rfl⟩
    cases hcases with
    | raised => exact .inl hs
    | added => exact hnew hs
    | joined => exact hnew hs
  | unsubscribe sub =>
    simp only [MpubsubClient.step] at hs
    rw [(h.unsubscribe_pruned sub).subscriptions] at hs
    exact .inl hs
  | publish call =>
    simp only [MpubsubClient.step] at hs
    rw [(h.publish_pruned call).subscriptions] at hs
    exact .inl hs
  | advance time => exact .inl hs
  | fire handle ok =>
    simp only [MpubsubClient.step] at hs
    rw [(fire_sameSubscriptions c handle ok).subscriptions] at hs
    exact .inl hs

/-- All subscriptions of a run use the text codecs. -/
theorem exec_textOnly (time : Rat) (replay : Replay.Python.ReplayGuard) {inputs : List (Input ε)}
    (hinputs : ∀ input ∈ inputs, TextOnly input) :
    ∀ s ∈ ((Receiver.machine cfg (textCodecs others)).exec ⟨new time, replay⟩
      inputs).client.subscriptions, s.encoding ∈ TEXT_ENCODINGS := by
  have hrun := (Receiver.machine cfg (textCodecs others)).exec_invariant_along
    (I := fun r => r.client.Indexed cfg ∧ ∀ s ∈ r.client.subscriptions, s.encoding ∈ TEXT_ENCODINGS)
    (P := fun _ input => TextOnly input) ?_ (s := ⟨new time, replay⟩) ⟨indexed_new time, ?_⟩
    ((Receiver.machine cfg (textCodecs others)).along_of_forall _ hinputs)
  · exact hrun.2
  · rintro r input ⟨hindexed, htext⟩ hinput
    cases input with
    | call e =>
      refine ⟨hindexed.step e, ?_⟩
      intro s hs
      rcases step_subscriptions hindexed e s hs with hold | ⟨topic, known, ok, rfl⟩
      · exact htext s hold
      · exact hinput
    | datagram callbacks now data =>
      have hkept := handleDatagram_kept (textCodecs others) callbacks hindexed now data
      refine ⟨hkept.indexed, ?_⟩
      intro s hs
      exact htext s (hkept.subscriptions ▸ hs)
  · exact List.forall_mem_nil _

end

/-! ## The theorem -/

theorem key_of_init {args : InitArgs} {a : Attributes} (h : init args = .ok a) :
    a.key = Client.keyOf args.key := by
  unfold init at h
  split at h
  · cases h
  simp only at h
  split at h
  · cases h
  split at h
  · cases h
  split at h
  · cases h
  cases h
  rfl

/-- A client whose subscriptions use the text codecs returns from every datagram, unless the
constructor was given a key of another length than 32 and the datagram is an encrypted packet. -/
theorem returns_iff {ε : Type} {args : InitArgs} {a : Attributes} (hinit : init args = .ok a)
    (delay time : Rat) (others : Codecs ε) {inputs : List (Input ε)}
    (hinputs : ∀ input ∈ inputs, TextOnly input) (callbacks : Callbacks ε) (now : Int)
    (data : Bytes) :
    let cfg := a.settings delay
    let r := (Receiver.machine cfg (textCodecs others)).exec (a.receiver time) inputs
    Returns (handleDatagram cfg (textCodecs others) callbacks now data r) ↔
      KeyFits args.key ∨ ¬EncryptedPacket data := by
  intro cfg r
  have hkey : cfg.key = Client.keyOf args.key := key_of_init hinit
  have hkept : Handles cfg (textCodecs others) r data
      (handleDatagram cfg (textCodecs others) callbacks now data r) :=
    handleDatagram_kept _ _ (exec_indexed time _ inputs) now data
  constructor
  · intro hreturns
    by_contra hnot
    obtain ⟨hmisfit, hpacket⟩ := not_or.mp hnot
    rcases keyOf_cases args.key with ⟨hfits, -⟩ | ⟨-, k, hk, hlen⟩
    · exact hmisfit hfits
    rcases decode_cases hlen data with ⟨-, hdecode⟩ | ⟨hno, -⟩
    · rw [Returns, handleDatagram, hkey, hk, hdecode] at hreturns
      cases hreturns
    · exact hpacket hno
  · intro hcondition
    rcases hkept.raised with hnone | ⟨error, hdecode, hwire, -⟩ | ⟨msg, sub, e, hraises, -⟩
    · exact hnone
    · rw [hkey] at hdecode
      rcases keyOf_cases args.key with ⟨-, hlen⟩ | ⟨hmisfit, k, hk, hlen⟩
      · obtain ⟨w, rfl⟩ := wireError_of_decode hlen hdecode
        exact absurd rfl (hwire w)
      · rw [hk] at hdecode
        rcases decode_cases hlen data with ⟨hpacket, -⟩ | ⟨-, ⟨w, hother⟩ | ⟨msg, hother⟩⟩
        · rcases hcondition with hfits | hno
          · exact absurd hfits hmisfit
          · exact absurd hpacket hno
        · cases hdecode.symm.trans hother
          exact absurd rfl (hwire w)
        · cases hdecode.symm.trans hother
    · -- The text codecs do not raise so.
      rw [Raises, decodedFor] at hraises
      obtain ⟨s, hs, hdecoded⟩ := Option.map_eq_some_iff.mp hraises
      have htext : s.encoding ∈ TEXT_ENCODINGS := exec_textOnly time
        (.init a.replayWindow REPLAY_CACHE_ENTRIES) hinputs s (List.mem_of_getElem? hs)
      exact absurd hdecoded (textCodecs_decode htext msg.payload e)

/-- The attributes of a client with a key of three bytes. -/
def shortKey : Attributes where
  port := 18512
  scope := .LINK_LOCAL
  interface := none
  hops := 1
  key := some [1, 2, 3]
  replayWindow := 0
  retransmitCount := 1
  retransmitDelay := .finite (1 / 10)
  promoteQos := false

/-- Bytes of the length of an encrypted packet with an empty payload, behind its header. -/
def forged : Bytes := Reference.buildHeader 0 0 0 1 ++ List.replicate 36 0

/-- The constructor takes a key of three bytes, and the first such datagram raises. -/
theorem short_key_raises :
    init { key := .bytes [1, 2, 3] } = .ok shortKey ∧
      ¬Returns (handleDatagram (shortKey.settings 0) (textCodecs fun _ _ => .error (.other ""))
        quiet 0 forged (shortKey.receiver 0)) := by
  refine ⟨rfl, ?_⟩
  have hraised : (handleDatagram (shortKey.settings 0)
      (textCodecs fun _ _ => .error (.other "")) quiet 0 forged (shortKey.receiver 0)).raised =
      some (.decode (.keyLength 3)) := by decide +kernel
  rw [Returns, hraised]
  exact fun h => by cases h

/-- `returns_iff` for a client without a key, with a subscription to text, and a payload that is
no text. -/
theorem returns_iff_utf8 :
    Returns (handleDatagram ({ shortKey with key := none }.settings 0)
      (textCodecs fun _ _ => .error (.other "")) quiet 0
      (Reference.buildHeader (Reference.topicCrc32 "t") 0 1 0 ++ [255])
      ((Receiver.machine ({ shortKey with key := none }.settings 0)
        (textCodecs fun _ _ => .error (.other ""))).exec
        ({ shortKey with key := none }.receiver 0)
        [.call (.start 0), .call (.subscribe "t" (some "utf-8") true true)])) := by
  have hinputs : ∀ input ∈ ([.call (.start 0),
      .call (.subscribe "t" (some "utf-8") true true)] : List (Input String)), TextOnly input := by
    refine List.forall_mem_cons.mpr ⟨trivial, List.forall_mem_singleton.mpr ?_⟩
    show some "utf-8" ∈ TEXT_ENCODINGS
    decide
  exact (returns_iff (rfl : init {} = .ok { shortKey with key := none }) 0 0 _ hinputs quiet 0
    _).mpr (.inl trivial)

end Mpubsub.Theorems
