import Mpubsub.Bridge.Receive
import Mpubsub.Bridge.Resend
import Mpubsub.Bridge.Schema
import Mpubsub.Lib.Except

/-!
# The bridge's configuration (`config.go`)

`LoadConfig` behind the YAML: `applyDefaults` fills in defaults, parses the durations and
resolves the schemas, `validate` checks the rest. `Std` is what the loader calls of the
standard library for durations, which counts in nanoseconds (`time.Duration`).

`LoadedConfig.Ok` is what the rest of the bridge can rely on (`ok_of_loadConfig`).
-/

namespace Mpubsub.Bridge

open Mpubsub.Lib Mpubsub.Wire

/-- `time.ParseDuration`, with the text of its error, and `uint32(d.Seconds())`. -/
structure Std where
  parseDuration : Bytes → Except String Int
  seconds : Int → UInt32

/-- `time.Second` and `time.Millisecond`. -/
def SECOND : Int := 1000000000
def MILLISECOND : Int := 1000000

/-! ## The file -/

/-- `MQTTConfig`. -/
structure MQTTConfig where
  broker : Bytes
  clientID : Bytes := []
  qos : UInt8 := 0
  retain : Bool := false

/-- `MPubsubConfig` and `EncryptionConfig`, as the file has them. -/
structure MPubsubFile where
  port : UInt16 := 0
  scope : Bytes := []
  hops : Int := 0
  retransmitCount : Int := 0
  retransmitDelay : Bytes := []
  promoteQoS : Bool := false
  key : Bytes := []
  replayWindow : Bytes := []

/-- `BridgeEntry`, as the file has it. -/
structure EntryFile where
  direction : Bytes
  mqttTopic : Bytes
  mpubsubTopic : Bytes := []
  requireEncryption : Bool := false
  schema : Bytes := []

/-- `SchemaConfig`. -/
structure SchemaConfig where
  id : Bytes
  fields : List SchemaField

/-- `Config`, as the file has it. -/
structure ConfigFile where
  mqtt : MQTTConfig
  mpubsub : MPubsubFile := {}
  schemas : List SchemaConfig := []
  bridges : List EntryFile := []
  jsonTranslation : Bool := false

/-! ## The loaded configuration -/

/-- `MPubsubConfig` with what `applyDefaults` derives. -/
structure MPubsubConfig where
  port : UInt16
  scope : Bytes
  hops : Int
  retransmitCount : Int
  retransmitDelay : Int
  promoteQoS : Bool
  encryptionKey : Option Bytes
  replayWindowSeconds : UInt32

/-- A `BridgeEntry` with its schema resolved. -/
structure LoadedEntry extends EntryFile where
  schemaPtr : Option Schema := none

/-- `Config` after `applyDefaults`. -/
structure LoadedConfig where
  mqtt : MQTTConfig
  mpubsub : MPubsubConfig
  bridges : List LoadedEntry

/-! ## Errors -/

inductive ConfigError where
  | retransmitDelay (raw : Bytes) (err : String)
  | negativeDelay (d : Int)
  | replayWindow (raw : Bytes) (err : String)
  | negativeWindow (d : Int)
  | windowWithoutKey
  | schemasDisabled
  | schemaDisabled (i : Nat) (schema : Bytes)
  | schema (i : Nat) (err : SchemaError)
  | duplicateSchema (i : Nat) (id : Bytes)
  | undefinedSchema (i : Nat) (schema : Bytes)
  | noBroker
  | unknownScope (scope : Bytes)
  | hops (hops : Int)
  | retransmitCount (count : Int)
  | indefiniteDelay (d : Int)
  | noBridges
  | noMqttTopic (i : Nat)
  | noMpubsubTopic (i : Nat)
  | wildcards (i : Nat) (topic : Bytes)
  | unknownDirection (i : Nat) (direction : Bytes)
  | requireDirection (i : Nat) (direction : Bytes)
  | requireWithoutKey (i : Nat)

/-- The names of the directions. -/
def Direction.name : Direction → Bytes
  | .DirMQTTToMPubsub => utf8 "mqtt_to_mpubsub"
  | .DirMPubsubToMQTT => utf8 "mpubsub_to_mqtt"

/-- The text of an error; `quote` is the format `%q`, `show` are `%s` of a string and of a
duration. -/
def ConfigError.text (quote str : Bytes → String) (duration : Int → String) :
    ConfigError → String
  | retransmitDelay raw err => "mpubsub.retransmit_delay " ++ quote raw ++ ": " ++ err
  | negativeDelay d => "mpubsub.retransmit_delay must be >= 0 (got " ++ duration d ++ ")"
  | replayWindow raw err => "mpubsub.encryption.replay_window " ++ quote raw ++ ": " ++ err
  | negativeWindow d =>
    "mpubsub.encryption.replay_window must be >= 0 (got " ++ duration d ++ ")"
  | windowWithoutKey => "mpubsub.encryption.replay_window requires encryption.key"
  | schemasDisabled =>
    "schemas: configured but json_translation is false (default); set json_translation: " ++
      "true to enable JSON <-> proto translation"
  | schemaDisabled i id =>
    "bridges[" ++ toString i ++ "]: schema " ++ quote id ++ " set but json_translation " ++
      "is false (default); set json_translation: true to enable"
  | schema i err => "schemas[" ++ toString i ++ "]: " ++ err.text quote
  | duplicateSchema i id => "schemas[" ++ toString i ++ "]: duplicate id " ++ quote id
  | undefinedSchema i id =>
    "bridges[" ++ toString i ++ "]: schema " ++ quote id ++ " not defined"
  | noBroker => "mqtt.broker is required"
  | unknownScope scope =>
    "mpubsub.unknown scope " ++ quote scope ++
      " (want link-local/site-local/organization-local)"
  | hops n => "mpubsub.hops must be 1..255, got " ++ toString n
  | retransmitCount n =>
    "mpubsub.retransmit_count must be 1..255 or -1 (indefinite); got " ++ toString n
  | indefiniteDelay d =>
    "mpubsub.retransmit_count: -1 (indefinite) requires retransmit_delay >= 1s; got " ++
      duration d
  | noBridges => "at least one bridge entry is required"
  | noMqttTopic i => "bridges[" ++ toString i ++ "]: mqtt_topic is required"
  | noMpubsubTopic i =>
    "bridges[" ++ toString i ++ "]: mpubsub_topic is required for mpubsub_to_mqtt entries"
  | wildcards i topic =>
    "bridges[" ++ toString i ++ "]: mpubsub_topic " ++ quote topic ++
      " contains MQTT wildcards; the mpubsub protocol has no wildcard subscriptions"
  | unknownDirection i direction =>
    "bridges[" ++ toString i ++ "]: unknown direction " ++ quote direction ++ " (want " ++
      quote (Direction.name .DirMQTTToMPubsub) ++ " or " ++
      quote (Direction.name .DirMPubsubToMQTT) ++ ")"
  | requireDirection i direction =>
    "bridges[" ++ toString i ++ "]: require_encryption is only valid for mpubsub_to_mqtt " ++
      "entries (this one is " ++ str direction ++ ")"
  | requireWithoutKey i =>
    "bridges[" ++ toString i ++ "]: require_encryption needs mpubsub.encryption.key to be set"

/-! ## Loading -/

/-- `DeriveKey`. -/
def deriveKey (passphrase : Bytes) : Bytes := Sha256.hash passphrase

/-- `ParseScope`. -/
def parseScope (s : Bytes) : Option Scope :=
  if s = utf8 "link-local" ∨ s = [] then some .LINK_LOCAL
  else if s = utf8 "site-local" then some .SITE_LOCAL
  else if s = utf8 "organization-local" ∨ s = utf8 "org-local" then some .ORG_LOCAL
  else none

variable (std : Std)

/-- `applyDefaults`, for `retransmit_delay`. -/
def loadDelay (raw : Bytes) : Except ConfigError Int :=
  if raw = [] then .ok (100 * MILLISECOND)
  else
    match std.parseDuration raw with
    | .error err => .error (.retransmitDelay raw err)
    | .ok d => if d < 0 then .error (.negativeDelay d) else .ok d

/-- `applyDefaults`, for `replay_window`. -/
def loadWindow (key : Option Bytes) (raw : Bytes) : Except ConfigError UInt32 :=
  if raw = [] then .ok 0
  else
    match std.parseDuration raw with
    | .error err => .error (.replayWindow raw err)
    | .ok d =>
      if d < 0 then .error (.negativeWindow d)
      -- A window of 0s switches the protection off, and needs no key.
      else if d > 0 then
        if key = none then .error .windowWithoutKey else .ok (std.seconds d)
      else .ok 0

/-- `applyDefaults`, for `mpubsub`. -/
def loadMPubsub (m : MPubsubFile) : Except ConfigError MPubsubConfig := do
  let delay ← loadDelay std m.retransmitDelay
  let key := if m.key = [] then none else some (deriveKey m.key)
  let window ← loadWindow std key m.replayWindow
  return {
    port := if m.port = 0 then 18512 else m.port
    scope := if m.scope = [] then utf8 "link-local" else m.scope
    hops := if m.hops = 0 then 1 else m.hops
    retransmitCount := if m.retransmitCount = 0 then 1 else m.retransmitCount
    retransmitDelay := delay
    promoteQoS := m.promoteQoS
    encryptionKey := key
    replayWindowSeconds := window }

/-- The loop over the schemas, from schema `i` on, with `schemasByID` so far. -/
def loadSchemas (schemasByID : Dict Bytes Schema) (i : Nat) :
    List SchemaConfig → Except ConfigError (Dict Bytes Schema)
  | [] => .ok schemasByID
  | sc :: schemas =>
    match newSchema sc.id sc.fields with
    | .error err => .error (.schema i err)
    | .ok s =>
      if (schemasByID.get? sc.id).isSome then .error (.duplicateSchema i sc.id)
      else loadSchemas (schemasByID.set sc.id s) (i + 1) schemas

/-- The loop that resolves the schemas of the entries, from entry `i` on. -/
def resolveSchemas (schemasByID : Dict Bytes Schema) (i : Nat) :
    List EntryFile → Except ConfigError (List LoadedEntry)
  | [] => .ok []
  | b :: bridges =>
    if b.schema = [] then do
      let bridges ← resolveSchemas schemasByID (i + 1) bridges
      return { b with } :: bridges
    else
      match schemasByID.get? b.schema with
      | none => .error (.undefinedSchema i b.schema)
      | some s => do
        let bridges ← resolveSchemas schemasByID (i + 1) bridges
        return { b with schemaPtr := some s } :: bridges

/-- The loop that looks for schemas when the translation is off. -/
def rejectSchemas (i : Nat) : List EntryFile → Except ConfigError (List LoadedEntry)
  | [] => .ok []
  | b :: bridges =>
    if b.schema ≠ [] then .error (.schemaDisabled i b.schema)
    else do
      let bridges ← rejectSchemas (i + 1) bridges
      return { b with } :: bridges

/-- The end of `applyDefaults`. -/
def loadBridges (c : ConfigFile) : Except ConfigError (List LoadedEntry) :=
  if !c.jsonTranslation then
    if c.schemas ≠ [] then .error .schemasDisabled else rejectSchemas 0 c.bridges
  else do
    let schemasByID ← loadSchemas .empty 0 c.schemas
    resolveSchemas schemasByID 0 c.bridges

/-- `applyDefaults`. -/
def applyDefaults (c : ConfigFile) : Except ConfigError LoadedConfig := do
  let clientID := if c.mqtt.clientID = [] then utf8 "mpubsub-bridge" else c.mqtt.clientID
  let mpubsub ← loadMPubsub std c.mpubsub
  let bridges ← loadBridges c
  return { mqtt := { c.mqtt with clientID := clientID }, mpubsub := mpubsub, bridges := bridges }

/-- `strings.ContainsAny(topic, "+#")`. -/
def containsWildcards (topic : Bytes) : Bool := topic.any fun b => b == 43 || b == 35

/-- The `switch` of `validate` over the direction of entry `i`. -/
def validateDirection (i : Nat) (b : LoadedEntry) : Except ConfigError Unit :=
  if b.direction = Direction.name .DirMQTTToMPubsub then .ok ()
  else if b.direction = Direction.name .DirMPubsubToMQTT then
    if b.mpubsubTopic = [] then .error (.noMpubsubTopic i)
    else if containsWildcards b.mpubsubTopic then .error (.wildcards i b.mpubsubTopic)
    else .ok ()
  else .error (.unknownDirection i b.direction)

/-- `validate`, for entry `i`. -/
def validateEntry (key : Option Bytes) (i : Nat) (b : LoadedEntry) : Except ConfigError Unit :=
  if b.mqttTopic = [] then .error (.noMqttTopic i)
  else do
    validateDirection i b
    if b.requireEncryption then
      if b.direction ≠ Direction.name .DirMPubsubToMQTT then
        .error (.requireDirection i b.direction)
      else if key = none then .error (.requireWithoutKey i)
      else .ok ()
    else .ok ()

/-- The loop of `validate` over the entries, from entry `i` on. -/
def validateEntries (key : Option Bytes) (i : Nat) : List LoadedEntry → Except ConfigError Unit
  | [] => .ok ()
  | b :: bridges => do
    validateEntry key i b
    validateEntries key (i + 1) bridges

/-- `validate`. -/
def validate (c : LoadedConfig) : Except ConfigError Unit :=
  let m := c.mpubsub
  if c.mqtt.broker = [] then .error .noBroker
  else if parseScope m.scope = none then .error (.unknownScope m.scope)
  else if m.hops < 1 ∨ m.hops > 255 then .error (.hops m.hops)
  else if m.retransmitCount ≠ -1 ∧ (m.retransmitCount < 1 ∨ m.retransmitCount > 255) then
    .error (.retransmitCount m.retransmitCount)
  else if m.retransmitCount = -1 ∧ m.retransmitDelay < SECOND then
    .error (.indefiniteDelay m.retransmitDelay)
  else if c.bridges = [] then .error .noBridges
  else validateEntries m.encryptionKey 0 c.bridges

/-- `LoadConfig`, of a file that was read and parsed. -/
def loadConfig (file : ConfigFile) : Except ConfigError LoadedConfig := do
  let c ← applyDefaults std file
  validate c
  return c

/-! ## What the loader accepts -/

theorem length_deriveKey (passphrase : Bytes) : (deriveKey passphrase).length = 32 := by
  simp only [deriveKey, Sha256.hash, Sha256.finalize]
  rfl

/-- What the rest of the bridge can rely on in an entry. -/
structure LoadedEntry.Ok (key : Option Bytes) (b : LoadedEntry) : Prop where
  mqttTopic : b.mqttTopic ≠ []
  direction : ∃ d : Direction, b.direction = d.name
  mpubsubTopic : b.direction = Direction.name .DirMPubsubToMQTT → b.mpubsubTopic ≠ []
  required : b.requireEncryption = true →
    b.direction = Direction.name .DirMPubsubToMQTT ∧ key ≠ none

/-- And in the configuration. -/
structure LoadedConfig.Ok (c : LoadedConfig) : Prop where
  count : c.mpubsub.retransmitCount = -1 ∨
    1 ≤ c.mpubsub.retransmitCount ∧ c.mpubsub.retransmitCount ≤ 255
  indefinite : c.mpubsub.retransmitCount = -1 → SECOND ≤ c.mpubsub.retransmitDelay
  delay : 0 ≤ c.mpubsub.retransmitDelay
  key : ∀ k, c.mpubsub.encryptionKey = some k → k.length = 32
  entries : ∀ b ∈ c.bridges, b.Ok c.mpubsub.encryptionKey

variable {std : Std}

theorem nonneg_of_loadDelay {raw : Bytes} {d : Int} (h : loadDelay std raw = .ok d) : 0 ≤ d := by
  unfold loadDelay at h
  split at h
  · cases h
    decide
  split at h
  · cases h
  split at h
  · cases h
  · cases h
    omega

theorem ok_of_loadMPubsub {m : MPubsubFile} {c : MPubsubConfig}
    (h : loadMPubsub std m = .ok c) :
    0 ≤ c.retransmitDelay ∧ ∀ k, c.encryptionKey = some k → k.length = 32 := by
  unfold loadMPubsub at h
  obtain ⟨delay, hdelay, h⟩ := bind_eq_ok.mp h
  obtain ⟨window, -, h⟩ := bind_eq_ok.mp h
  cases h
  refine ⟨nonneg_of_loadDelay hdelay, ?_⟩
  intro k hk
  simp only at hk
  split at hk
  · cases hk
  · cases hk
    exact length_deriveKey _

theorem direction_of_validateDirection {i : Nat} {b : LoadedEntry}
    (h : validateDirection i b = .ok ()) :
    (∃ d : Direction, b.direction = d.name) ∧
      (b.direction = Direction.name .DirMPubsubToMQTT → b.mpubsubTopic ≠ []) := by
  unfold validateDirection at h
  split at h
  · rename_i hdirection
    refine ⟨⟨_, hdirection⟩, ?_⟩
    rw [hdirection]
    exact fun heq => absurd heq (by decide)
  split at h
  · rename_i hdirection
    split at h
    · cases h
    · rename_i htopic
      exact ⟨⟨_, hdirection⟩, fun _ => htopic⟩
  · cases h

theorem ok_of_validateEntry {key : Option Bytes} {i : Nat} {b : LoadedEntry}
    (h : validateEntry key i b = .ok ()) : b.Ok key := by
  unfold validateEntry at h
  split at h
  · cases h
  rename_i hmqtt
  obtain ⟨_, hdirection, h⟩ := bind_eq_ok.mp h
  obtain ⟨hknown, htopic⟩ := direction_of_validateDirection hdirection
  refine ⟨hmqtt, hknown, htopic, ?_⟩
  intro hrequired
  rw [if_pos hrequired] at h
  split at h
  · cases h
  rename_i hto
  split at h
  · cases h
  rename_i hkey
  exact ⟨not_not.mp hto, hkey⟩

theorem ok_of_validateEntries {key : Option Bytes} {i : Nat} {bridges : List LoadedEntry}
    (h : validateEntries key i bridges = .ok ()) : ∀ b ∈ bridges, b.Ok key := by
  induction bridges generalizing i with
  | nil => exact fun b hb => absurd hb List.not_mem_nil
  | cons b bridges ih =>
    obtain ⟨_, hb, h⟩ := bind_eq_ok.mp h
    exact List.forall_mem_cons.mpr ⟨ok_of_validateEntry hb, ih h⟩

theorem of_validate {c : LoadedConfig} (h : validate c = .ok ()) :
    (c.mpubsub.retransmitCount = -1 ∨
      1 ≤ c.mpubsub.retransmitCount ∧ c.mpubsub.retransmitCount ≤ 255) ∧
    (c.mpubsub.retransmitCount = -1 → SECOND ≤ c.mpubsub.retransmitDelay) ∧
    ∀ b ∈ c.bridges, b.Ok c.mpubsub.encryptionKey := by
  unfold validate at h
  simp only at h
  split at h
  · cases h
  split at h
  · cases h
  split at h
  · cases h
  split at h
  · cases h
  rename_i hcount
  split at h
  · cases h
  rename_i hindefinite
  split at h
  · cases h
  exact ⟨by omega, fun heq => by omega, ok_of_validateEntries h⟩

/-- What `LoadConfig` accepts. -/
theorem ok_of_loadConfig {file : ConfigFile} {c : LoadedConfig}
    (h : loadConfig std file = .ok c) : c.Ok := by
  unfold loadConfig at h
  obtain ⟨c', hdefaults, h⟩ := bind_eq_ok.mp h
  obtain ⟨_, hvalid, h⟩ := bind_eq_ok.mp h
  rw [pure_eq_ok] at h
  subst h
  obtain ⟨hcount, hindefinite, hentries⟩ := of_validate hvalid
  unfold applyDefaults at hdefaults
  obtain ⟨mpubsub, hmpubsub, hdefaults⟩ := bind_eq_ok.mp hdefaults
  obtain ⟨bridges, -, hdefaults⟩ := bind_eq_ok.mp hdefaults
  rw [pure_eq_ok] at hdefaults
  subst hdefaults
  obtain ⟨hdelay, hkey⟩ := ok_of_loadMPubsub hmpubsub
  exact ⟨hcount, hindefinite, hdelay, hkey, hentries⟩

/-! ## The entries -/

/-- The schema that the file defines under a name. -/
def ConfigFile.schema? (file : ConfigFile) (id : Bytes) : Option Schema :=
  (file.schemas.find? fun sc => sc.id = id).bind fun sc => (newSchema sc.id sc.fields).toOption

/-- An entry with the schema that it names. -/
def ConfigFile.resolve (file : ConfigFile) (b : EntryFile) : LoadedEntry :=
  { b with schemaPtr := if b.schema = [] then none else file.schema? b.schema }

theorem get?_of_loadSchemas {schemasByID result : Dict Bytes Schema} {i : Nat}
    {schemas : List SchemaConfig} (h : loadSchemas schemasByID i schemas = .ok result)
    (id : Bytes) :
    result.get? id = (schemasByID.get? id).or ((schemas.find? fun sc => sc.id = id).bind
      fun sc => (newSchema sc.id sc.fields).toOption) := by
  induction schemas generalizing schemasByID i with
  | nil =>
    cases h
    rw [List.find?_nil, Option.bind_none, Option.or_none]
  | cons sc schemas ih =>
    unfold loadSchemas at h
    split at h
    · cases h
    rename_i s hs
    split at h
    · cases h
    rename_i hnew
    rw [Option.not_isSome_iff_eq_none] at hnew
    rw [ih h, Dict.get?_set]
    by_cases hid : sc.id = id
    · rw [List.find?_cons_of_pos (by simpa using hid), ← hid, if_pos rfl, hnew, Option.bind_some,
        hs]
      rfl
    · rw [List.find?_cons_of_neg (by simpa using hid), if_neg fun heq => hid heq.symm]

theorem eq_map_of_resolveSchemas {schemasByID : Dict Bytes Schema} {i : Nat}
    {bridges : List EntryFile} {result : List LoadedEntry}
    (h : resolveSchemas schemasByID i bridges = .ok result) :
    result = bridges.map fun b =>
      { b with schemaPtr := if b.schema = [] then none else schemasByID.get? b.schema } := by
  induction bridges generalizing i result with
  | nil =>
    cases h
    rfl
  | cons b bridges ih =>
    unfold resolveSchemas at h
    split at h
    · rename_i hnone
      obtain ⟨rest, hrest, h⟩ := bind_eq_ok.mp h
      cases h
      rw [ih hrest, List.map_cons, if_pos hnone]
    · rename_i hsome
      split at h
      · cases h
      rename_i s hs
      obtain ⟨rest, hrest, h⟩ := bind_eq_ok.mp h
      cases h
      rw [ih hrest, List.map_cons, if_neg hsome, hs]

theorem eq_map_of_rejectSchemas {i : Nat} {bridges : List EntryFile} {result : List LoadedEntry}
    (h : rejectSchemas i bridges = .ok result) :
    (∀ b ∈ bridges, b.schema = []) ∧ result = bridges.map fun b => { b with } := by
  induction bridges generalizing i result with
  | nil =>
    cases h
    exact ⟨fun b hb => absurd hb List.not_mem_nil, rfl⟩
  | cons b bridges ih =>
    unfold rejectSchemas at h
    split at h
    · cases h
    rename_i hnone
    obtain ⟨rest, hrest, h⟩ := bind_eq_ok.mp h
    cases h
    obtain ⟨hall, rfl⟩ := ih hrest
    exact ⟨List.forall_mem_cons.mpr ⟨not_not.mp hnone, hall⟩, rfl⟩

/-- The entries of an accepted file are those of the file, with their schemas. -/
theorem bridges_of_loadConfig {file : ConfigFile} {c : LoadedConfig}
    (h : loadConfig std file = .ok c) : c.bridges = file.bridges.map file.resolve := by
  unfold loadConfig at h
  obtain ⟨c', hdefaults, h⟩ := bind_eq_ok.mp h
  obtain ⟨_, -, h⟩ := bind_eq_ok.mp h
  rw [pure_eq_ok] at h
  subst h
  unfold applyDefaults at hdefaults
  obtain ⟨mpubsub, -, hdefaults⟩ := bind_eq_ok.mp hdefaults
  obtain ⟨bridges, hbridges, hdefaults⟩ := bind_eq_ok.mp hdefaults
  rw [pure_eq_ok] at hdefaults
  subst hdefaults
  show bridges = file.bridges.map file.resolve
  unfold loadBridges at hbridges
  split at hbridges
  · split at hbridges
    · cases hbridges
    · obtain ⟨hnone, rfl⟩ := eq_map_of_rejectSchemas hbridges
      refine List.map_congr_left fun b hb => ?_
      rw [ConfigFile.resolve, if_pos (hnone b hb)]
  · obtain ⟨schemasByID, hschemas, hbridges⟩ := bind_eq_ok.mp hbridges
    rw [eq_map_of_resolveSchemas hbridges]
    refine List.map_congr_left fun b hb => ?_
    rw [ConfigFile.resolve, get?_of_loadSchemas hschemas, Dict.get?_empty, Option.none_or]
    rfl

/-- The schema of an entry is one that `NewSchema` has built. -/
theorem ConfigFile.valid_of_resolve {file : ConfigFile} {b : EntryFile} {s : Schema}
    (h : (file.resolve b).schemaPtr = some s) : s.Valid := by
  simp only [ConfigFile.resolve, ConfigFile.schema?] at h
  split at h
  · cases h
  obtain ⟨sc, -, hs⟩ := Option.bind_eq_some_iff.mp h
  cases hnew : newSchema sc.id sc.fields with
  | error e =>
    rw [hnew] at hs
    cases hs
  | ok s' =>
    rw [hnew] at hs
    cases hs
    exact (valid_of_newSchema hnew).2.2

/-! ## The two directions -/

/-- The entry, as the bridge runs with it. -/
def LoadedEntry.entry (b : LoadedEntry) : BridgeEntry Schema where
  direction :=
    if b.direction = Direction.name .DirMPubsubToMQTT then .DirMPubsubToMQTT
    else .DirMQTTToMPubsub
  mqttTopic := b.mqttTopic
  mpubsubTopic := b.mpubsubTopic
  requireEncryption := b.requireEncryption
  schemaPtr := b.schemaPtr

/-- What the receive loop reads. -/
def LoadedConfig.receiver (c : LoadedConfig) : Config Schema where
  qos := c.mqtt.qos
  retain := c.mqtt.retain
  encryptionKey := c.mpubsub.encryptionKey
  replayWindowSeconds := c.mpubsub.replayWindowSeconds
  bridges := c.bridges.map LoadedEntry.entry

/-- What the handler of MQTT messages reads. -/
def LoadedConfig.sender (c : LoadedConfig) : Resend.Settings where
  retransmitCount := c.mpubsub.retransmitCount
  promoteQoS := c.mpubsub.promoteQoS
  encryptionKey := c.mpubsub.encryptionKey

end Mpubsub.Bridge
