import Mpubsub.Bridge.Receive

/-!
# What the bridge forwards

The payload of a plaintext RAW packet is a slice of the receive buffer, and the
MQTT client serialises it after the loop may have read the next datagram into
that buffer. As long as no read changes bytes of a payload that is still queued,
what is written is what was received (`bridge_forwards`); two plaintext packets
in a row and a slow client break it (`later_datagram_overwrites_payload`).
-/

namespace Mpubsub.Theorems

open Mpubsub.Lib Mpubsub.Wire Mpubsub.Bridge

variable {σ : Type}

/-- The writes of a run are those of the bridge that copies every datagram. -/
def ForwardsReceived (aeadOpen : AeadOpen) (ops : SchemaOps σ) (cfg : Config σ)
    (events : List (Producer.Event Arrival)) : Prop :=
  (Bridge.machine aeadOpen ops cfg).trace (start cfg) events =
    (forwarding aeadOpen ops cfg).eager.trace
      { mem := ⟨⟩, state := (start cfg).state } events

/-- A step that is no socket read, or reads a datagram into the buffer that changes no byte
of a queued payload. -/
def KeepsQueued (s : Bridge.State) : Producer.Event Arrival → Prop
  | .iterate arrival => s.made = [] → ∀ p ∈ s.queue, p.payload.Untouched s.mem arrival.datagram
  | .handOver => True
  | .consume => True

instance (s : Bridge.State) : ∀ event, Decidable (KeepsQueued s event)
  | .iterate _ => inferInstanceAs (Decidable (s.made = [] → ∀ p ∈ s.queue, _))
  | .handOver => isTrue trivial
  | .consume => isTrue trivial

/-- In every run whose reads change no queued payload, the bridge writes what it received,
and every message is due to a datagram that was read. -/
theorem bridge_forwards {aeadOpen : AeadOpen} {ops : SchemaOps σ} {cfg : Config σ}
    {events : List (Producer.Event Arrival)}
    (h : (Bridge.machine aeadOpen ops cfg).Along KeepsQueued (start cfg) events) :
    ForwardsReceived aeadOpen ops cfg events ∧
      ∀ message, some message ∈ (Bridge.machine aeadOpen ops cfg).trace (start cfg) events →
        ∃ arrival, Producer.Event.iterate arrival ∈ events ∧
          DueTo aeadOpen ops cfg arrival message := by
  have hsame : ForwardsReceived aeadOpen ops cfg events := by
    apply Producer.trace_eq_of_stable (makes_forwarding aeadOpen ops cfg)
    -- The same run, with the condition in the words of the library.
    apply Machine.along_of_sim (R := Eq) (P := KeepsQueued) ?_ ?_ rfl h
    · rintro s _ event rfl
      exact ⟨rfl, rfl⟩
    · rintro s _ event rfl hkeeps
      cases event with
      | iterate arrival =>
        intro hmade p hp
        exact congrArg _ (Slice.read_fill_of_untouched (hkeeps hmade p hp))
      | handOver => trivial
      | consume => trivial
  refine ⟨hsame, ?_⟩
  intro message hmessage
  rw [hsame] at hmessage
  rcases Producer.exists_of_consumed hmessage with hmade | hqueue | ⟨arrival, replay, hin, hm⟩
  · cases hmade
  · cases hqueue
  · exact ⟨arrival, hin, dueTo_of_mem_forwarding hm⟩

/-- A bridge that forwards the topics "a" and "b" to "A" and "B". -/
def twoRoutes : Config Empty where
  bridges :=
    [{ direction := .DirMPubsubToMQTT, mqttTopic := [65], mpubsubTopic := [97] },
      { direction := .DirMPubsubToMQTT, mqttTopic := [66], mpubsubTopic := [98] }]

/-- A plaintext RAW datagram with one byte of payload. -/
def rawArrival (topic : Bytes) (payload : UInt8) : Arrival :=
  ⟨encodeHeader (topicCrc32 topic) .RAW 1 .NONE ++ [payload], 1000⟩

/-- No schemas are configured. -/
def noSchemas : SchemaOps Empty := ⟨Empty.elim, Empty.elim⟩

/-- A datagram on "b" is read before the client gets to the message of the datagram on "a":
the payload of "b" is written to "A". -/
theorem later_datagram_overwrites_payload :
    ¬∀ events, ForwardsReceived (fun _ _ _ _ => none) noSchemas twoRoutes events := by
  intro h
  have hrun := h [.iterate (rawArrival [97] 1), .handOver, .iterate (rawArrival [98] 2),
    .handOver, .consume, .consume]
  revert hrun
  unfold ForwardsReceived
  decide +kernel

/-- A retransmission changes nothing: it is read while the first copy is queued. -/
theorem bridge_forwards_retransmission :
    ForwardsReceived (fun _ _ _ _ => none) noSchemas twoRoutes
      [.iterate (rawArrival [97] 1), .handOver, .iterate (rawArrival [97] 1), .handOver,
        .consume, .consume] :=
  (bridge_forwards (by decide +kernel)).1

end Mpubsub.Theorems
