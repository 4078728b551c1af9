import Mpubsub.Lib.Except
import Mpubsub.Lib.Utf8
import Mpubsub.Proto.Emitter

/-!
# The configuration of the ESPHome component (`__init__.py`)

`CONFIG_SCHEMA` and `_final_validate`. What the YAML has is a `RawConfig`; behind the schema a
key with a default is always there, and an optional key without one is an `Option`. A schema of
voluptuous reports all errors; here the first one stands for them. Strings are classified by
Python's tables of characters (`Unicode`).
-/

namespace Mpubsub.Component

open Mpubsub.Lib Mpubsub.Proto Mpubsub.Wire

/-- `str.isalpha` and `str.isalnum` of a character, `str.lower`, and `str.upper` of a
character. -/
structure Unicode where
  isalpha : Char → Bool
  isalnum : Char → Bool
  lower : String → String
  upper : Char → String

def MAX_TOPIC_LEN : Nat := 200
def RETRANSMIT_INDEFINITE : Int := -1

/-- The keys of `TYPE_INFO` in order, as in the text of an error. -/
def VALID_TYPES : List String :=
  ["bool", "bytes", "float", "int32", "int64", "sint32", "sint64", "string", "uint32", "uint64"]

/-! ## Errors -/

/-- The `cv.Invalid`s of `_message_id_validator`. -/
inductive IdError where
  | empty
  | badStart (value : String)
  | badCharacter (value : String) (c : Char)
deriving DecidableEq

/-- A step of the path of an error. -/
inductive PathItem where
  | key (name : String)
  | index (i : Nat)
deriving DecidableEq

/-- `cv.Invalid`; `schema` is what ESPHome's own validators say about a key. -/
inductive Invalid where
  | schema (key : String)
  | messageId (error : IdError)
  | fieldName (error : NameError)
  | fieldType (value : String)
  | tagOutOfRange (value : Int)
  | tagReserved (value : Int)
  | emitter (error : ValidationError)
  | duplicateMessageId (id : String)
  | retransmitCount (value : Int)
  | topicNul
  | topicEmpty
  | topicTooLong (len : Nat)
  | messagesWithoutApi
  | indefiniteDelay
  | unknownMessage (i : Nat) (ref : String) (known : List String)
  | windowWithoutTime
  | encryptionWithoutKey (i : Nat)
deriving DecidableEq

/-- The text of an error of `_message_id_validator`; `repr` renders a string as a Python
literal. -/
def IdError.text (repr : String → String) : IdError → String
  | empty => "message id must be non-empty"
  | badStart value => "message id " ++ repr value ++ " must start with a letter or underscore"
  | badCharacter value c =>
    "message id " ++ repr value ++ ": invalid character " ++ repr (String.singleton c) ++
      " (allowed: alphanumeric, _, -)"

/-- A list of strings as Python prints it. -/
def reprList (repr : String → String) (l : List String) : String :=
  "[" ++ ", ".intercalate (l.map repr) ++ "]"

/-- The text of an error that the component raises. -/
def Invalid.text (repr : String → String) : Invalid → Option String
  | schema _ => none
  | messageId error => some (error.text repr)
  | fieldName error => some (error.text repr)
  | fieldType value =>
    some ("unknown field type " ++ repr value ++ ". Valid: " ++ reprList repr VALID_TYPES)
  | tagOutOfRange value => some ("field tag " ++ toString value ++ " out of range (1..536870911)")
  | tagReserved value =>
    some ("field tag " ++ toString value ++ " is in proto3's reserved range 19000..19999")
  | emitter error => some (error.text repr)
  | duplicateMessageId id => some ("duplicate message id: " ++ repr id)
  | retransmitCount value =>
    some ("retransmit_count must be 1..255 or -1 (indefinite); got " ++ toString value)
  | topicNul => some "topic must not contain NUL bytes"
  | topicEmpty => some "topic must not be empty"
  | topicTooLong len => some ("topic too long: " ++ toString len ++ " bytes (limit 200)")
  | messagesWithoutApi =>
    some ("mpubsub `messages:` requires the `api:` component to be configured (used for " ++
      "protobuf encoding primitives). Add an `api:` section to your YAML, or remove the " ++
      "`messages:` block to stick to raw payloads.")
  | indefiniteDelay => some "retransmit_count: -1 (indefinite) requires retransmit_delay >= 1s"
  | unknownMessage _ ref known =>
    some ("on_message references unknown message " ++ repr ref ++
      "; declare it under `messages:`. Known: " ++
      if known = [] then "(none)" else reprList repr known)
  | windowWithoutTime =>
    some ("encryption `replay_window` requires `time_id:` pointing at a `time:` component (the " ++
      "receiver measures packet freshness against the wall clock; without it every encrypted " ++
      "packet would be dropped).")
  | encryptionWithoutKey _ =>
    some ("on_message `require_encryption: true` needs an `encryption: key:` block on the " ++
      "parent mpubsub: component (otherwise the receiver has no key and every packet for this " ++
      "topic would be dropped).")

/-- The path that `_final_validate` gives an error. -/
def Invalid.path : Invalid → List PathItem
  | messagesWithoutApi => [.key "messages"]
  | indefiniteDelay => [.key "retransmit_delay"]
  | unknownMessage i _ _ => [.key "on_message", .index i, .key "message"]
  | windowWithoutTime => [.key "encryption", .key "replay_window"]
  | encryptionWithoutKey i => [.key "on_message", .index i, .key "require_encryption"]
  | _ => []

/-! ## The YAML -/

structure RawField where
  name : Option String := none
  type : Option String := none
  tag : Option Int := none
  repeated : Option Bool := none

structure RawMessage where
  id : Option String := none
  fields : Option (List RawField) := none

/-- The `encryption:` block; the window is a time period in seconds. -/
structure RawEncryption where
  key : Option String := none
  replayWindow : Option Int := none
  timeId : Option String := none

structure RawOnMessage where
  triggerId : Option String := none
  topic : Option String := none
  message : Option String := none
  requireEncryption : Option Bool := none

/-- An entry of `mpubsub:`; the delay is a time period in milliseconds. -/
structure RawConfig where
  id : Option String := none
  port : Option Int := none
  scope : Option String := none
  hops : Option Int := none
  retransmitCount : Option Int := none
  retransmitDelay : Option Int := none
  encryption : Option RawEncryption := none
  messages : Option (List RawMessage) := none
  onMessage : Option (List RawOnMessage) := none

/-! ## The validated configuration -/

structure Encryption where
  key : String
  replayWindow : Option Nat
  timeId : Option String
deriving DecidableEq

structure OnMessage where
  triggerId : String
  topic : String
  message : Option String
  requireEncryption : Bool
deriving DecidableEq

structure Config where
  id : String
  port : Nat
  scope : Scope
  hops : Nat
  retransmitCount : Int
  retransmitDelay : Nat
  encryption : Option Encryption
  messages : List Message
  onMessage : Option (List OnMessage)
deriving DecidableEq

/-! ## Validators -/

section

variable (u : Unicode)

/-- `cv.Required`. -/
def required {α : Type} (key : String) : Option α → Except Invalid α
  | none => .error (.schema key)
  | some value => .ok value

/-- `cv.Length(min=1)`. -/
def lengthMin1 {α : Type} (key : String) : List α → Except Invalid (List α)
  | [] => .error (.schema key)
  | a :: l => .ok (a :: l)

/-- `cv.int_range`. -/
def intRange (key : String) (min max value : Int) : Except Invalid Nat :=
  if value < min ∨ max < value then .error (.schema key) else .ok value.toNat

/-- `cv.positive_time_period_seconds` and `cv.positive_time_period_milliseconds`. -/
def positiveTimePeriod (key : String) (value : Int) : Except Invalid Nat :=
  if value < 0 then .error (.schema key) else .ok value.toNat

/-- `cv.enum(SCOPES, lower=True)`. -/
def scopeEnum (value : String) : Except Invalid Scope :=
  let value := u.lower value
  if value = "link-local" then .ok .LINK_LOCAL
  else if value = "site-local" then .ok .SITE_LOCAL
  else if value = "organization-local" then .ok .ORG_LOCAL
  else .error (.schema "scope")

/-- `_message_id_validator`. -/
def messageIdValidator (value : String) : Except Invalid String :=
  match value.toList with
  | [] => .error (.messageId .empty)
  | c :: _ =>
    if !(u.isalpha c || c == '_') then .error (.messageId (.badStart value))
    else
      match value.toList.find? fun c => !(u.isalnum c || c == '_' || c == '-') with
      | some c => .error (.messageId (.badCharacter value c))
      | none => .ok value

/-- `_field_type_validator`. -/
def fieldTypeValidator (value : String) : Except Invalid String :=
  if FieldType.ofName value = none then .error (.fieldType value) else .ok value

/-- `_field_tag_validator`. -/
def fieldTagValidator (value : Int) : Except Invalid Int :=
  if value < 0 then .error (.schema "tag")
  else if ¬(1 ≤ value ∧ value ≤ 536870911) then .error (.tagOutOfRange value)
  else if 19000 ≤ value ∧ value ≤ 19999 then .error (.tagReserved value)
  else .ok value

/-- `FIELD_SCHEMA`. -/
def fieldSchema (raw : RawField) : Except Invalid Field := do
  let name ← required "name" raw.name
  let name ← (fieldNameValidator u.isalpha u.isalnum name).mapError .fieldName
  let type ← required "type" raw.type
  let type ← fieldTypeValidator type
  let tag ← required "tag" raw.tag
  let tag ← fieldTagValidator tag
  return { name := name, type := type, tag := tag, repeated := raw.repeated.getD false }

/-- `_message_validator`. -/
def messageValidator (raw : RawMessage) : Except Invalid Message := do
  let id ← required "id" raw.id
  let id ← messageIdValidator u id
  let fields ← required "fields" raw.fields
  let fields ← fields.mapM (fieldSchema u)
  let fields ← lengthMin1 "fields" fields
  let msg : Message := { id := id, fields := fields }
  (validate msg).mapError .emitter
  return msg

/-- The loop of `_messages_validator`. -/
def uniqueIds (seenIds : List String) : List Message → Except Invalid Unit
  | [] => .ok ()
  | msg :: msgs =>
    if msg.id ∈ seenIds then .error (.duplicateMessageId msg.id)
    else uniqueIds (msg.id :: seenIds) msgs

/-- `_messages_validator`. -/
def messagesValidator (raw : List RawMessage) : Except Invalid (List Message) := do
  let msgs ← raw.mapM (messageValidator u)
  uniqueIds [] msgs
  return msgs

/-- `_retransmit_count_validator`. -/
def retransmitCountValidator (value : Int) : Except Invalid Int :=
  if value = RETRANSMIT_INDEFINITE then .ok value
  else if value < 1 ∨ value > 255 then .error (.retransmitCount value)
  else .ok value

/-- `_topic_validator`. -/
def topicValidator (value : String) : Except Invalid String :=
  if '\x00' ∈ value.toList then .error .topicNul
  else if (utf8 value).length = 0 then .error .topicEmpty
  else if (utf8 value).length > MAX_TOPIC_LEN then .error (.topicTooLong (utf8 value).length)
  else .ok value

/-- The schema of the `encryption:` block. -/
def encryptionSchema (raw : RawEncryption) : Except Invalid Encryption := do
  let key ← required "key" raw.key
  let replayWindow ← raw.replayWindow.mapM (positiveTimePeriod "replay_window")
  return { key := key, replayWindow := replayWindow, timeId := raw.timeId }

/-- An entry behind `_on_message_validator`; `generateId` is the id that ESPHome makes for a
trigger without one. -/
def onMessageSchema (generateId : String) (raw : RawOnMessage) : Except Invalid OnMessage := do
  let topic ← required "topic" raw.topic
  let topic ← topicValidator topic
  let message ← raw.message.mapM (messageIdValidator u)
  pure
    { triggerId := raw.triggerId.getD generateId
      topic := topic
      message := message
      requireEncryption := raw.requireEncryption.getD false }

/-- `_on_message_validator`. -/
def onMessageValidator (generateId : Nat → String) (raw : List RawOnMessage) :
    Except Invalid (List OnMessage) :=
  raw.zipIdx.mapM fun (entry, i) => onMessageSchema u (generateId i) entry

/-- `CONFIG_SCHEMA`; `ids` are the ids that ESPHome makes, for the component and for the
triggers. -/
def configSchema (ids : String × (Nat → String)) (raw : RawConfig) : Except Invalid Config := do
  let port ← intRange "port" 1 65535 (raw.port.getD 18512)
  let scope ← scopeEnum u (raw.scope.getD "link-local")
  let hops ← intRange "hops" 1 255 (raw.hops.getD 1)
  let retransmitCount ← retransmitCountValidator (raw.retransmitCount.getD 1)
  let retransmitDelay ← positiveTimePeriod "retransmit_delay" (raw.retransmitDelay.getD 100)
  let encryption ← raw.encryption.mapM encryptionSchema
  let messages ← messagesValidator u (raw.messages.getD [])
  let onMessage ← raw.onMessage.mapM (onMessageValidator u ids.2)
  pure
    { id := raw.id.getD ids.1
      port := port
      scope := scope
      hops := hops
      retransmitCount := retransmitCount
      retransmitDelay := retransmitDelay
      encryption := encryption
      messages := messages
      onMessage := onMessage }

end

/-! ## `_final_validate` -/

/-- Every reference of an `on_message` entry is declared. -/
def checkReferences (declared : List String) : List (OnMessage × Nat) → Except Invalid Unit
  | [] => .ok ()
  | (trig, i) :: rest =>
    match trig.message with
    | none => checkReferences declared rest
    | some ref =>
      if ref ∉ declared then
        .error (.unknownMessage i ref (declared.mergeSort fun a b => a ≤ b))
      else checkReferences declared rest

/-- A window that is not zero comes with a `time_id`. -/
def checkWindow : Option Encryption → Except Invalid Unit
  | some ⟨_, some window, none⟩ => if window > 0 then .error .windowWithoutTime else .ok ()
  | _ => .ok ()

/-- Without encryption, no `on_message` entry requires it. -/
def checkRequireEncryption : Option Encryption → List (OnMessage × Nat) → Except Invalid Unit
  | some _, _ => .ok ()
  | none, [] => .ok ()
  | none, (trig, i) :: rest =>
    if trig.requireEncryption then .error (.encryptionWithoutKey i)
    else checkRequireEncryption none rest

/-- `_final_validate`; `full` are the keys of the full configuration. -/
def finalValidate (full : List String) (config : Config) : Except Invalid Config :=
  if config.messages ≠ [] ∧ "api" ∉ full then .error .messagesWithoutApi
  else if config.retransmitCount = -1 ∧ config.retransmitDelay < 1000 then .error .indefiniteDelay
  else do
    checkReferences (config.messages.map Message.id) (config.onMessage.getD []).zipIdx
    checkWindow config.encryption
    checkRequireEncryption config.encryption (config.onMessage.getD []).zipIdx
    return config

/-! ## The paths of its errors -/

theorem checkReferences_error {declared : List String} {l : List (OnMessage × Nat)} {e : Invalid}
    (h : checkReferences declared l = .error e) :
    ∃ trig i ref known, (trig, i) ∈ l ∧ e = .unknownMessage i ref known := by
  induction l with
  | nil => cases h
  | cons p l ih =>
    have hrest (h : checkReferences declared l = .error e) :
        ∃ trig i ref known, (trig, i) ∈ p :: l ∧ e = .unknownMessage i ref known := by
      obtain ⟨trig, i, ref, known, hmem, he⟩ := ih h
      exact ⟨trig, i, ref, known, List.mem_cons_of_mem _ hmem, he⟩
    unfold checkReferences at h
    split at h
    · exact hrest h
    split at h
    · cases h
      exact ⟨_, _, _, _, List.mem_cons_self, rfl⟩
    · exact hrest h

theorem checkWindow_error {encryption : Option Encryption} {e : Invalid}
    (h : checkWindow encryption = .error e) : e = .windowWithoutTime := by
  unfold checkWindow at h
  split at h
  · split at h
    · cases h
      rfl
    · cases h
  · cases h

theorem checkRequireEncryption_error {encryption : Option Encryption}
    {l : List (OnMessage × Nat)} {e : Invalid}
    (h : checkRequireEncryption encryption l = .error e) :
    ∃ trig i, (trig, i) ∈ l ∧ e = .encryptionWithoutKey i := by
  cases encryption with
  | some enc =>
    rw [checkRequireEncryption] at h
    cases h
  | none =>
    induction l with
    | nil => cases h
    | cons p l ih =>
      unfold checkRequireEncryption at h
      split at h
      · cases h
        exact ⟨_, _, List.mem_cons_self, rfl⟩
      · obtain ⟨trig, i, hmem, he⟩ := ih h
        exact ⟨trig, i, List.mem_cons_of_mem _ hmem, he⟩

/-- An error of `_final_validate` names a key, and an index in its path is that of an entry. -/
theorem path_of_finalValidate_error {full : List String} {config : Config} {e : Invalid}
    (h : finalValidate full config = .error e) :
    (∃ name rest, e.path = .key name :: rest) ∧
      ∀ i, .index i ∈ e.path → i < (config.onMessage.getD []).length := by
  have hlt {trig : OnMessage} {i : Nat}
      (hmem : (trig, i) ∈ (config.onMessage.getD []).zipIdx) :
      i < (config.onMessage.getD []).length :=
    (List.getElem?_eq_some_iff.mp (List.mem_zipIdx_iff_getElem?.mp hmem)).1
  unfold finalValidate at h
  split at h
  · cases h
    exact ⟨⟨_, _, rfl⟩, fun i hi => by simp [Invalid.path] at hi⟩
  split at h
  · cases h
    exact ⟨⟨_, _, rfl⟩, fun i hi => by simp [Invalid.path] at hi⟩
  rcases bind_eq_error.mp h with hreferences | ⟨⟨⟩, -, h⟩
  · obtain ⟨trig, i, ref, known, hmem, rfl⟩ := checkReferences_error hreferences
    refine ⟨⟨_, _, rfl⟩, ?_⟩
    intro j hj
    obtain rfl : j = i := by simpa [Invalid.path] using hj
    exact hlt hmem
  rcases bind_eq_error.mp h with hwindow | ⟨⟨⟩, -, h⟩
  · rw [checkWindow_error hwindow]
    exact ⟨⟨_, _, rfl⟩, fun i hi => by simp [Invalid.path] at hi⟩
  rcases bind_eq_error.mp h with hrequire | ⟨⟨⟩, -, h⟩
  · obtain ⟨trig, i, hmem, rfl⟩ := checkRequireEncryption_error hrequire
    refine ⟨⟨_, _, rfl⟩, ?_⟩
    intro j hj
    obtain rfl : j = i := by simpa [Invalid.path] using hj
    exact hlt hmem
  · cases h

end Mpubsub.Component
