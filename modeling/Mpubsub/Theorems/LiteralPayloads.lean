import Mpubsub.Component.PublishAction
import Mpubsub.Node.Retransmit
import Mpubsub.Theorems.CodeGeneration

/-!
# Payloads that are written out in the configuration

`_static_payload_validator` lets 1220 bytes through, whatever the component is. An encrypted node
keeps 36 of them for itself, so that `publish` refuses what has more than 1184.
-/

namespace Mpubsub.Theorems

open Mpubsub.Lib Mpubsub.Wire Mpubsub.Node Mpubsub.Component

/-- The node of `main.cpp` in some run, after `setup()` has opened the socket or has failed to. -/
def Running (code : List Statement) (node : MulticastPubSub String) : Prop :=
  ∃ socket calls, node = MulticastPubSub.publisher.exec { setUp code with socket := socket } calls

/-- In every run, an action with the payload fails for want of a socket or of a send alone, and
what it sends fits into a datagram. -/
structure LiteralFits (code : List Statement) (payload : String) : Prop where
  accepted : ∀ node, Running code node → ∀ env topic retransmitCount,
    (play node env topic (utf8 payload) retransmitCount).2.2 = false →
      node.socket = false ∨ env.sendOk = false
  fits : ∀ node, Running code node → ∀ env topic retransmitCount,
    ∀ sent ∈ (play node env topic (utf8 payload) retransmitCount).2.1,
      sent.datagram.length ≤ Wire.MAX_DATAGRAM

variable {u : Unicode} {mqtt : Bool} {config : Config} {code : List Statement}

/-- Nothing that happens to a node switches its encryption. -/
theorem encryptionEnabled_of_running (h : toCode u mqtt config = .ok code)
    {node : MulticastPubSub String} (hrun : Running code node) :
    node.encryptionEnabled = config.encryption.isSome := by
  obtain ⟨socket, calls, rfl⟩ := hrun
  refine Machine.exec_invariant MulticastPubSub.publisher
    (I := fun n => n.encryptionEnabled = config.encryption.isSome) ?_ ?_ calls
  · intro n c hn
    cases c with
    | event e => exact (n.step_sameConfig e).encryptionEnabled.trans hn
    | setRetransmitCount count => exact hn
    | setRetransmitDelayMs delayMs => exact hn
  · exact encryptionEnabled_setUp h

/-- The limit of `publish`, in terms of the configuration. -/
theorem effectiveMax_of_running (h : toCode u mqtt config = .ok code)
    {node : MulticastPubSub String} (hrun : Running code node) :
    node.effectiveMax = if config.encryption.isSome then 1184 else 1220 := by
  rw [MulticastPubSub.effectiveMax, encryptionEnabled_of_running h hrun]
  rfl

/-- Within the limit, an action is not refused for its size. -/
theorem play_of_length_le {node : MulticastPubSub String} {payload : Bytes}
    (hsize : payload.length ≤ node.effectiveMax) (env : PublishEnv) (topic : Bytes)
    (retransmitCount : Option Int16) :
    ((play node env topic payload retransmitCount).2.2 = false →
        node.socket = false ∨ env.sendOk = false) ∧
      ∀ sent ∈ (play node env topic payload retransmitCount).2.1,
        sent.datagram.length ≤ Wire.MAX_DATAGRAM := by
  obtain ⟨count, heq⟩ := play_eq node env topic payload retransmitCount
  rw [heq]
  constructor
  · intro hfalse
    cases hsocket : node.socket with
    | false => exact .inl rfl
    | true =>
      have hsends := MulticastPubSub.publish_sends (p := { node with retransmitCount := count })
        hsocket hsize env topic .RAW
      rw [hsends] at hfalse
      exact .inr hfalse
  · intro sent hsent
    obtain ⟨-, rfl⟩ := MulticastPubSub.sent_of_publish hsent
    exact MulticastPubSub.length_datagram_le hsize env topic .RAW

theorem length_utf8_replicate (n : Nat) :
    (utf8 (String.ofList (List.replicate n 'a'))).length = n := by
  have hchar : ∀ c ∈ List.replicate n 'a', (String.utf8EncodeChar c).length = 1 := by
    intro c hc
    rw [List.eq_of_mem_replicate hc]
    rfl
  rw [utf8_eq_flatMap, String.toList_ofList, List.length_flatMap, List.map_congr_left hchar,
    List.map_const', List.sum_replicate_nat, List.length_replicate, Nat.mul_one]

/-- The component with a key and nothing else. -/
def encryptedConfig : Config where
  id := "mpubsub"
  port := 18512
  scope := .LINK_LOCAL
  hops := 1
  retransmitCount := 1
  retransmitDelay := 100
  encryption := some { key := "passphrase", replayWindow := none, timeId := none }
  messages := []
  onMessage := none

/-- 1185 bytes go through the validator, and are refused with a socket that sends. -/
theorem literal_refused :
    ∃ code node, Validates asciiTables ("mpubsub", fun i => "trigger" ++ toString i) []
        { encryption := some { key := some "passphrase" } } encryptedConfig ∧
      toCode asciiTables false encryptedConfig = .ok code ∧
      staticPayloadValidator (String.ofList (List.replicate 1185 'a')) =
        .ok (String.ofList (List.replicate 1185 'a')) ∧
      Running code node ∧ node.socket = true ∧
      play node {} (utf8 "home/air") (utf8 (String.ofList (List.replicate 1185 'a'))) none =
        (node, [], false) ∧
      ¬LiteralFits code (String.ofList (List.replicate 1185 'a')) := by
  have hlen := length_utf8_replicate 1185
  have hcode : ∃ code, toCode asciiTables false encryptedConfig = .ok code := ⟨_, rfl⟩
  obtain ⟨code, hcode⟩ := hcode
  have hrun : Running code { setUp code with socket := true } := ⟨true, [], rfl⟩
  have hmax := effectiveMax_of_running hcode hrun
  have hplay : play { setUp code with socket := true } {} (utf8 "home/air")
      (utf8 (String.ofList (List.replicate 1185 'a'))) none =
        ({ setUp code with socket := true }, [], false) := by
    refine MulticastPubSub.publish_refuses (.inr ?_) {} _ .RAW
    rw [hmax, hlen]
    decide
  refine ⟨code, _, rfl, hcode, staticPayloadValidator_ok_iff.mpr ?_, hrun, rfl, hplay, ?_⟩
  · rw [hlen]
    decide
  · intro hfits
    have hrefused := hfits.accepted _ hrun {} (utf8 "home/air") none (by rw [hplay])
    simp at hrefused

/-- **An accepted literal is never refused for its size if and only if** the component is not
encrypted, or the literal has at most 1184 bytes. -/
theorem literal_fits_iff (hcode : toCode u mqtt config = .ok code) {payload : String}
    (haccepted : staticPayloadValidator payload = .ok payload) :
    LiteralFits code payload ↔ config.encryption = none ∨ (utf8 payload).length ≤ 1184 := by
  have hlen : (utf8 payload).length ≤ 1220 := staticPayloadValidator_ok_iff.mp haccepted
  constructor
  · intro hfits
    cases hencryption : config.encryption with
    | none => exact .inl rfl
    | some enc =>
      right
      by_contra hlong
      -- A node with a socket, right after `setup()`, refuses a longer one.
      have hrun : Running code { setUp code with socket := true } := ⟨true, [], rfl⟩
      have hmax := effectiveMax_of_running hcode hrun
      rw [hencryption, Option.isSome_some, if_pos rfl] at hmax
      have hrefuses : play { setUp code with socket := true } {} [] (utf8 payload) none =
          ({ setUp code with socket := true }, [], false) :=
        MulticastPubSub.publish_refuses (.inr (by omega)) {} _ .RAW
      have hrefused := hfits.accepted _ hrun {} [] none (by rw [hrefuses])
      simp at hrefused
  · intro hcond
    have hsize {node : MulticastPubSub String} (hrun : Running code node) :
        (utf8 payload).length ≤ node.effectiveMax := by
      rw [effectiveMax_of_running hcode hrun]
      rcases hcond with hnone | hshort
      · rw [hnone]
        exact hlen
      · split <;> omega
    constructor
    · intro node hrun env topic retransmitCount
      exact (play_of_length_le (hsize hrun) env topic retransmitCount).1
    · intro node hrun env topic retransmitCount
      exact (play_of_length_le (hsize hrun) env topic retransmitCount).2

/-- A short literal on an encrypted component. -/
theorem literal_fits_open :
    ∃ code, toCode asciiTables false encryptedConfig = .ok code ∧ LiteralFits code "open" := by
  have hcode : ∃ code, toCode asciiTables false encryptedConfig = .ok code := ⟨_, rfl⟩
  obtain ⟨code, hcode⟩ := hcode
  have haccepted : staticPayloadValidator "open" = .ok "open" := by decide
  exact ⟨code, hcode, (literal_fits_iff hcode haccepted).mpr (.inr (by decide))⟩

end Mpubsub.Theorems
