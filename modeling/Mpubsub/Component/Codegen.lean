import Mpubsub.Component.Config

/-!
# Code generation of the ESPHome component (`__init__.py`)

`to_code`: the statements that it adds to `main.cpp`, in order, and what it raises. The objects
of ESPHome's code generator stand for themselves as the statements' parts.
-/

namespace Mpubsub.Component

open Mpubsub.Lib Mpubsub.Proto Mpubsub.Wire

/-- What `to_code` can raise: a `KeyError`, or what `emit_struct` raises. -/
inductive CodegenError where
  | keyError (key : String)
  | emitter (error : ValidationError)
  | typeInfo (id : String)
deriving DecidableEq

/-- The parts of the text that `emit_struct` returns: the struct, with what its `encode_to`
calls, and its trigger class. -/
structure EmittedStruct where
  structName : String
  triggerClass : String
  schemaId : UInt16
  encodeCalls : List EncodeCall
deriving DecidableEq

/-- The `to_code`'s statements and globals. -/
inductive Statement where
  | includeProto
  | global (struct : EmittedStruct)
  | newComponent (id : String)
  | setPort (port : Nat)
  | setScope (scope : Scope)
  | setHops (hops : Nat)
  | setRetransmitCount (count : Int)
  | setRetransmitDelayMs (delay : Nat)
  | setEncryptionKey (digest : Bytes)
  | setReplayWindow (window : Nat)
  | setTime (timeId : String)
  | sensor (id name setter : String) (mqttId : Option String)
  | trigger (id triggerClass : String) (argument : Option String) (topic : String)
    (requireEncryption : Bool)
deriving DecidableEq

section

variable (u : Unicode)

/-- `part[:1].upper() + part[1:]`, of a part that is not empty. -/
def capitalised : List Char → String
  | [] => ""
  | c :: part => u.upper c ++ String.ofList part

/-- `pascal_case`. -/
def pascalCase (name : String) : String :=
  String.join ((name.toList.splitOnP fun c => c == '_' || c == '-').map (capitalised u))

/-- The trigger class for a message. -/
def triggerClassOf (name : String) : String := "On" ++ name ++ "Trigger"

/-- `emit_struct`. -/
def emitStruct (msg : Message) : Except CodegenError EmittedStruct := do
  (validate msg).mapError .emitter
  match emitEncodeCalls msg with
  | none => throw (.typeInfo msg.id)
  | some calls =>
    pure
      { structName := pascalCase u msg.id
        triggerClass := triggerClassOf (pascalCase u msg.id)
        schemaId := schemaId msg
        encodeCalls := calls }

/-- `mapping[key]`. -/
def getItem {α : Type} (key : String) : Option α → Except CodegenError α
  | none => .error (.keyError key)
  | some value => .ok value

/-- The statements for the `encryption:` block. A window that is there needs the `time_id`. -/
def encryptionCode : Option Encryption → Except CodegenError (List Statement)
  | none => .ok []
  | some ⟨key, none, _⟩ => .ok [.setEncryptionKey (Sha256.hash (utf8 key))]
  | some ⟨key, some window, timeId⟩ => do
    let timeId ← getItem "time_id" timeId
    return [.setEncryptionKey (Sha256.hash (utf8 key)), .setReplayWindow window, .setTime timeId]

/-- The diagnostic sensors and their setters. -/
def SENSORS : List (String × String) :=
  [("packets_sent", "set_packets_sent_sensor"), ("packets_received", "set_packets_received_sensor"),
    ("verify_ok", "set_verify_ok_sensor"), ("verify_failed", "set_verify_failed_sensor")]

/-- A diagnostic sensor; the rest of its configuration is always the same. -/
def sensorCode (mqtt : Bool) (parentSlug : String) (sensor : String × String) : Statement :=
  .sensor (parentSlug ++ "_" ++ sensor.1) (sensor.1.replace "_" " ") sensor.2
    (if mqtt then some (parentSlug ++ "_" ++ sensor.1 ++ "_mqtt") else none)

/-- The trigger of an `on_message` entry. -/
def triggerCode (conf : OnMessage) : Statement :=
  match conf.message with
  | some ref =>
    .trigger conf.triggerId (triggerClassOf (pascalCase u ref)) (some (pascalCase u ref)) conf.topic
      conf.requireEncryption
  | none => .trigger conf.triggerId "OnMessageTrigger" none conf.topic conf.requireEncryption

/-- `to_code`; `mqtt` says whether the configuration has `mqtt:`. -/
def toCode (mqtt : Bool) (config : Config) : Except CodegenError (List Statement) := do
  let structs ← config.messages.mapM (emitStruct u)
  let encryption ← encryptionCode config.encryption
  return (if config.messages = [] then [] else [.includeProto]) ++ structs.map .global ++
    [.newComponent config.id, .setPort config.port, .setScope config.scope, .setHops config.hops,
      .setRetransmitCount config.retransmitCount, .setRetransmitDelayMs config.retransmitDelay] ++
    encryption ++ SENSORS.map (sensorCode mqtt config.id) ++
    (config.onMessage.getD []).map (triggerCode u)

end

end Mpubsub.Component
