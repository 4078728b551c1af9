import Mpubsub.Component.Codegen
import Mpubsub.Node.Delivery

/-!
# The configured node (`main.cpp`)

The statements of `to_code` as they run at the start: the setters of the component, and the
triggers, whose constructors subscribe. A callback is known by the id of its trigger. The port,
the hops, the clock and the sensors are not part of the node's state.
-/

namespace Mpubsub.Component

open Mpubsub.Lib Mpubsub.Proto Mpubsub.Wire Mpubsub.Node

/-- The structs among the globals. -/
def Statement.struct? : Statement → Option EmittedStruct
  | .global struct => some struct
  | _ => none

/-- The constructor of a trigger, where `structs` are the structs of `main.cpp`. A trigger whose
struct is not among them does not compile. -/
def runTrigger (structs : List EmittedStruct) (node : MulticastPubSub String) (id : String)
    (argument : Option String) (topic : String) (requireEncryption : Bool) :
    MulticastPubSub String :=
  match argument with
  | none => node.subscribe (utf8 topic) id requireEncryption
  | some name =>
    match structs.find? fun struct => struct.structName = name with
    | none => node
    | some struct => node.subscribeTyped (utf8 topic) struct.schemaId id requireEncryption

/-- A statement of `main.cpp`. -/
def Statement.run (structs : List EmittedStruct) (node : MulticastPubSub String) :
    Statement → MulticastPubSub String
  | .setScope scope => { node with scope := scope }
  | .setRetransmitCount count => { node with retransmitCount := Int16.ofInt count }
  | .setRetransmitDelayMs delay => { node with retransmitDelayMs := UInt32.ofNat delay }
  | .setEncryptionKey digest => node.setEncryptionKey digest
  | .setReplayWindow window => node.setReplayWindow (UInt32.ofNat window)
  | .trigger id _ argument topic requireEncryption =>
    runTrigger structs node id argument topic requireEncryption
  | _ => node

/-- The node that the code sets up. -/
def setUp (code : List Statement) : MulticastPubSub String :=
  code.foldl (Statement.run (code.filterMap Statement.struct?)) {}

/-! ## Encryption -/

variable {structs : List EmittedStruct} {node : MulticastPubSub String}

theorem encryptionEnabled_runTrigger (id : String) (argument : Option String) (topic : String)
    (requireEncryption : Bool) :
    (runTrigger structs node id argument topic requireEncryption).encryptionEnabled =
      node.encryptionEnabled := by
  unfold runTrigger
  split
  · rfl
  · split <;> rfl

/-- Encryption is switched by `set_encryption_key` alone. -/
theorem encryptionEnabled_run {s : Statement}
    (hkey : ∀ digest, s = .setEncryptionKey digest → digest.length = 32) :
    (s.run structs node).encryptionEnabled = true ↔
      node.encryptionEnabled = true ∨ ∃ digest, s = .setEncryptionKey digest := by
  cases s with
  | setEncryptionKey digest =>
    have hlen := hkey digest rfl
    simp [Statement.run, MulticastPubSub.setEncryptionKey, hlen]
  | trigger id triggerClass argument topic requireEncryption =>
    simp [Statement.run, encryptionEnabled_runTrigger]
  | _ => simp [Statement.run, MulticastPubSub.setReplayWindow]

theorem encryptionEnabled_foldl_run {code : List Statement}
    (hkeys : ∀ digest, .setEncryptionKey digest ∈ code → digest.length = 32) :
    (code.foldl (Statement.run structs) node).encryptionEnabled = true ↔
      node.encryptionEnabled = true ∨ ∃ digest, .setEncryptionKey digest ∈ code := by
  induction code generalizing node with
  | nil => simp
  | cons s code ih =>
    have hs : ∀ digest, s = .setEncryptionKey digest → digest.length = 32 := by
      rintro digest rfl
      exact hkeys digest List.mem_cons_self
    rw [List.foldl_cons, ih fun digest hmem => hkeys digest (List.mem_cons_of_mem _ hmem),
      encryptionEnabled_run hs, or_assoc]
    simp only [List.mem_cons, exists_or, eq_comm]

/-- The keys that `to_code` sets. -/
theorem setEncryptionKey_mem_toCode_iff {u : Unicode} {mqtt : Bool} {config : Config}
    {code : List Statement} (h : toCode u mqtt config = .ok code) {digest : Bytes} :
    .setEncryptionKey digest ∈ code ↔
      ∃ enc ∈ config.encryption, Sha256.hash (utf8 enc.key) = digest := by
  obtain ⟨structs, -, h⟩ := bind_eq_ok.mp h
  obtain ⟨encryption, hencryption, h⟩ := bind_eq_ok.mp h
  cases pure_eq_ok.mp h
  have hin : .setEncryptionKey digest ∈ encryption ↔
      ∃ enc ∈ config.encryption, Sha256.hash (utf8 enc.key) = digest := by
    cases henc : config.encryption with
    | none =>
      rw [henc] at hencryption
      cases hencryption
      simp
    | some enc =>
      obtain ⟨key, replayWindow, timeId⟩ := enc
      rw [henc] at hencryption
      cases replayWindow with
      | none =>
        cases hencryption
        simp [eq_comm]
      | some window =>
        obtain ⟨timeId, -, hencryption⟩ := bind_eq_ok.mp hencryption
        cases pure_eq_ok.mp hencryption
        simp [eq_comm]
  have htrigger : ∀ conf, triggerCode u conf ≠ .setEncryptionKey digest := by
    intro conf heq
    unfold triggerCode at heq
    split at heq <;> cases heq
  rw [← hin]
  simp only [List.mem_append, List.mem_map, List.mem_cons, List.not_mem_nil, or_false]
  constructor
  · intro hmem
    split at hmem <;> simp_all [sensorCode]
  · intro hmem
    exact .inl (.inl (.inr hmem))

/-- The node is encrypted exactly when the configuration has the block. -/
theorem encryptionEnabled_setUp {u : Unicode} {mqtt : Bool} {config : Config}
    {code : List Statement} (h : toCode u mqtt config = .ok code) :
    (setUp code).encryptionEnabled = config.encryption.isSome := by
  have hkeys : ∀ digest, .setEncryptionKey digest ∈ code → digest.length = 32 := by
    intro digest hmem
    obtain ⟨enc, -, rfl⟩ := (setEncryptionKey_mem_toCode_iff h).mp hmem
    exact Sha256.length_hash _
  rw [Bool.eq_iff_iff, setUp, encryptionEnabled_foldl_run hkeys]
  simp only [setEncryptionKey_mem_toCode_iff h, Bool.false_eq_true, false_or]
  cases config.encryption <;> simp

end Mpubsub.Component
