import Mpubsub.Component.Codegen

/-!
# Configurations that generate code (`__init__.py`)

A configuration that `CONFIG_SCHEMA` and `_final_validate` accept goes through `to_code`, with
one exception: a window of zero seconds needs no `time_id` for `_final_validate`, while `to_code`
looks the `time_id` up whenever there is a window (`generates_iff`).
-/

namespace Mpubsub.Theorems

open Mpubsub.Lib Mpubsub.Proto Mpubsub.Component

/-! ## The property -/

/-- `to_code` completes, and the trigger of an entry with a message is that of a declared message,
whose struct is generated. -/
def Generates (u : Unicode) (mqtt : Bool) (config : Config) : Prop :=
  ∃ code, toCode u mqtt config = .ok code ∧
    ∀ conf ∈ config.onMessage.getD [], ∀ ref, conf.message = some ref →
      ∃ msg ∈ config.messages, msg.id = ref ∧
        ∃ struct, emitStruct u msg = .ok struct ∧ .global struct ∈ code ∧
          .trigger conf.triggerId struct.triggerClass (some struct.structName) conf.topic
            conf.requireEncryption ∈ code

/-- A configuration is accepted as `config`. -/
def Validates (u : Unicode) (ids : String × (Nat → String)) (full : List String)
    (raw : RawConfig) (config : Config) : Prop :=
  (configSchema u ids raw >>= finalValidate full) = .ok config

/-- The configuration has a window of zero seconds and no `time_id`. -/
def ZeroWindowWithoutTime (raw : RawConfig) : Prop :=
  ∃ enc, raw.encryption = some enc ∧ enc.replayWindow = some 0 ∧ enc.timeId = none

section

variable {u : Unicode} {ids : String × (Nat → String)} {full : List String} {raw : RawConfig}
  {config config' : Config}

/-! ## What is accepted -/

theorem of_checkReferences {declared : List String} {l : List (OnMessage × Nat)}
    (h : checkReferences declared l = .ok ()) :
    ∀ p ∈ l, ∀ ref, p.1.message = some ref → ref ∈ declared := by
  induction l with
  | nil => exact List.forall_mem_nil _
  | cons p l ih =>
    obtain ⟨trig, i⟩ := p
    unfold checkReferences at h
    cases hmessage : trig.message with
    | none =>
      simp only [hmessage] at h
      refine List.forall_mem_cons.mpr ⟨?_, ih h⟩
      intro ref hsome
      cases hmessage.symm.trans hsome
    | some ref =>
      simp only [hmessage] at h
      split at h
      · cases h
      · rename_i hdeclared
        refine List.forall_mem_cons.mpr ⟨?_, ih h⟩
        intro ref' hsome
        cases hmessage.symm.trans hsome
        exact not_not.mp hdeclared

/-- What `_final_validate` accepts, as far as `to_code` relies on it. -/
theorem of_finalValidate (h : finalValidate full config = .ok config') :
    config' = config ∧
      (∀ conf ∈ config.onMessage.getD [], ∀ ref, conf.message = some ref →
        ∃ msg ∈ config.messages, msg.id = ref) ∧
      ∀ enc ∈ config.encryption, ∀ window ∈ enc.replayWindow, enc.timeId = none → window = 0 := by
  unfold finalValidate at h
  split at h
  · cases h
  split at h
  · cases h
  obtain ⟨⟨⟩, hreferences, h⟩ := bind_eq_ok.mp h
  obtain ⟨⟨⟩, hwindow, h⟩ := bind_eq_ok.mp h
  obtain ⟨⟨⟩, -, h⟩ := bind_eq_ok.mp h
  refine ⟨(pure_eq_ok.mp h).symm, ?_, ?_⟩
  · intro conf hconf ref href
    obtain ⟨i, hi⟩ := List.mem_iff_getElem?.mp hconf
    have hin : (conf, i) ∈ (config.onMessage.getD []).zipIdx :=
      List.mem_zipIdx_iff_getElem?.mpr hi
    exact List.mem_map.mp (of_checkReferences hreferences _ hin ref href)
  · intro enc henc window hsome hnone
    obtain ⟨key, replayWindow, timeId⟩ := enc
    cases hsome
    cases hnone
    rw [Option.mem_def.mp henc, checkWindow] at hwindow
    split at hwindow
    · cases hwindow
    · rename_i hpos
      exact Nat.eq_zero_of_not_pos hpos

/-- The messages behind the schema are valid for the emitter. -/
theorem validate_of_messageValidator {rawMessage : RawMessage} {msg : Message}
    (h : messageValidator u rawMessage = .ok msg) : validate msg = .ok () := by
  unfold messageValidator at h
  obtain ⟨id, -, h⟩ := bind_eq_ok.mp h
  obtain ⟨id, -, h⟩ := bind_eq_ok.mp h
  obtain ⟨fields, -, h⟩ := bind_eq_ok.mp h
  obtain ⟨fields, -, h⟩ := bind_eq_ok.mp h
  obtain ⟨fields, -, h⟩ := bind_eq_ok.mp h
  obtain ⟨⟨⟩, hvalid, h⟩ := bind_eq_ok.mp h
  cases pure_eq_ok.mp h
  cases hvalidate : validate { id := id, fields := fields } with
  | error e =>
    rw [hvalidate] at hvalid
    cases hvalid
  | ok => rfl

/-- What `CONFIG_SCHEMA` accepts, as far as `to_code` relies on it. -/
theorem of_configSchema (h : configSchema u ids raw = .ok config) :
    (∀ msg ∈ config.messages, validate msg = .ok ()) ∧
      (raw.encryption = none ∧ config.encryption = none ∨
        ∃ rawEnc enc, raw.encryption = some rawEnc ∧ config.encryption = some enc ∧
          encryptionSchema rawEnc = .ok enc) := by
  unfold configSchema at h
  obtain ⟨port, -, h⟩ := bind_eq_ok.mp h
  obtain ⟨scope, -, h⟩ := bind_eq_ok.mp h
  obtain ⟨hops, -, h⟩ := bind_eq_ok.mp h
  obtain ⟨count, -, h⟩ := bind_eq_ok.mp h
  obtain ⟨delay, -, h⟩ := bind_eq_ok.mp h
  obtain ⟨encryption, hencryption, h⟩ := bind_eq_ok.mp h
  obtain ⟨messages, hmessages, h⟩ := bind_eq_ok.mp h
  obtain ⟨onMessage, -, h⟩ := bind_eq_ok.mp h
  cases pure_eq_ok.mp h
  constructor
  · unfold messagesValidator at hmessages
    obtain ⟨msgs, hmsgs, hmessages⟩ := bind_eq_ok.mp hmessages
    obtain ⟨⟨⟩, -, hmessages⟩ := bind_eq_ok.mp hmessages
    cases pure_eq_ok.mp hmessages
    intro msg hmsg
    obtain ⟨rawMessage, -, hrel⟩ := exists_of_mem_mapM hmsgs msg hmsg
    exact validate_of_messageValidator hrel
  · cases hraw : raw.encryption with
    | none =>
      rw [hraw] at hencryption
      cases hencryption
      exact .inl ⟨rfl, rfl⟩
    | some rawEnc =>
      rw [hraw] at hencryption
      obtain ⟨enc, henc, hsome⟩ := bind_eq_ok.mp hencryption
      cases hsome
      exact .inr ⟨rawEnc, enc, rfl, rfl, henc⟩

/-! ## What `to_code` does with it -/

theorem exists_emitStruct {msg : Message} (h : validate msg = .ok ()) :
    ∃ struct, emitStruct u msg = .ok struct ∧ struct.structName = pascalCase u msg.id ∧
      struct.triggerClass = triggerClassOf (pascalCase u msg.id) := by
  obtain ⟨calls, hcalls⟩ := emitEncodeCalls_of_validate h
  refine ⟨⟨pascalCase u msg.id, triggerClassOf (pascalCase u msg.id), schemaId msg, calls⟩,
    ?_, rfl, rfl⟩
  unfold emitStruct
  rw [h, hcalls]
  rfl

/-- The block goes through if a window that is there has its `time_id`. -/
theorem exists_encryptionCode_iff {encryption : Option Encryption} :
    (∃ code, encryptionCode encryption = .ok code) ↔
      ∀ enc ∈ encryption, enc.timeId = none → enc.replayWindow = none := by
  cases encryption with
  | none => exact ⟨fun _ _ henc => (Option.not_mem_none _ henc).elim, fun _ => ⟨_, rfl⟩⟩
  | some enc =>
    obtain ⟨key, replayWindow, timeId⟩ := enc
    cases replayWindow with
    | none =>
      refine ⟨fun _ enc henc _ => ?_, fun _ => ⟨_, rfl⟩⟩
      cases henc
      rfl
    | some window =>
      cases timeId with
      | none =>
        constructor
        · rintro ⟨code, hcode⟩
          cases hcode
        · intro h
          cases h _ rfl rfl
      | some timeId =>
        refine ⟨fun _ enc henc hnone => ?_, fun _ => ⟨_, rfl⟩⟩
        cases henc
        cases hnone

/-- `to_code` completes if the statements for the encryption do. -/
theorem generates_iff_encryptionCode (hmessages : ∀ msg ∈ config.messages, validate msg = .ok ())
    (hreferences : ∀ conf ∈ config.onMessage.getD [], ∀ ref, conf.message = some ref →
      ∃ msg ∈ config.messages, msg.id = ref) {mqtt : Bool} :
    Generates u mqtt config ↔ ∃ code, encryptionCode config.encryption = .ok code := by
  constructor
  · rintro ⟨code, hcode, -⟩
    obtain ⟨structs, -, hcode⟩ := bind_eq_ok.mp hcode
    obtain ⟨encryption, hencryption, -⟩ := bind_eq_ok.mp hcode
    exact ⟨encryption, hencryption⟩
  · rintro ⟨encryption, hencryption⟩
    obtain ⟨structs, hstructs, hmem⟩ := exists_mapM_of_forall_mem fun msg hmsg =>
      (exists_emitStruct (u := u) (hmessages msg hmsg)).imp fun struct hstruct => hstruct.1
    refine ⟨_, bind_eq_ok.mpr ⟨structs, hstructs, bind_eq_ok.mpr ⟨encryption, hencryption, rfl⟩⟩,
      ?_⟩
    intro conf hconf ref href
    obtain ⟨msg, hmsg, hid⟩ := hreferences conf hconf ref href
    obtain ⟨struct, hstruct, hok⟩ := hmem msg hmsg
    obtain ⟨struct', hok', hname, hclass⟩ := exists_emitStruct (u := u) (hmessages msg hmsg)
    cases hok.symm.trans hok'
    have htrigger : triggerCode u conf = .trigger conf.triggerId struct.triggerClass
        (some struct.structName) conf.topic conf.requireEncryption := by
      rw [triggerCode, href, hname, hclass, hid]
    refine ⟨msg, hmsg, hid, struct, hok, ?_, ?_⟩
    · simp [hstruct]
    · rw [← htrigger]
      exact List.mem_append_right _ (List.mem_map_of_mem hconf)

/-! ## The exception -/

/-- The `encryption:` block as the schema leaves it. -/
theorem of_encryptionSchema {rawEnc : RawEncryption} {enc : Encryption}
    (h : encryptionSchema rawEnc = .ok enc) :
    enc.timeId = rawEnc.timeId ∧
      (rawEnc.replayWindow = none ∧ enc.replayWindow = none ∨
        ∃ window : Nat, rawEnc.replayWindow = some (window : Int) ∧
          enc.replayWindow = some window) := by
  unfold encryptionSchema at h
  obtain ⟨key, -, h⟩ := bind_eq_ok.mp h
  obtain ⟨replayWindow, hwindow, h⟩ := bind_eq_ok.mp h
  cases pure_eq_ok.mp h
  refine ⟨rfl, ?_⟩
  cases hraw : rawEnc.replayWindow with
  | none =>
    rw [hraw] at hwindow
    cases hwindow
    exact .inl ⟨rfl, rfl⟩
  | some value =>
    rw [hraw] at hwindow
    obtain ⟨window, hperiod, hsome⟩ := bind_eq_ok.mp hwindow
    cases hsome
    unfold positiveTimePeriod at hperiod
    split at hperiod
    · cases hperiod
    · rename_i hpos
      cases hperiod
      exact .inr ⟨value.toNat, congrArg some (Int.toNat_of_nonneg (not_lt.mp hpos)).symm, rfl⟩

/-- A configuration that is accepted generates code if and only if it has no window of zero
seconds without a `time_id`. -/
theorem generates_iff (mqtt : Bool) (h : Validates u ids full raw config) :
    Generates u mqtt config ↔ ¬ZeroWindowWithoutTime raw := by
  obtain ⟨config', hschema, hfinal⟩ := bind_eq_ok.mp h
  obtain ⟨heq, hreferences, hwindow⟩ := of_finalValidate hfinal
  subst heq
  obtain ⟨hmessages, hencryption⟩ := of_configSchema hschema
  rw [generates_iff_encryptionCode hmessages hreferences, exists_encryptionCode_iff]
  obtain ⟨hraw, hconfig⟩ | ⟨rawEnc, enc, hraw, hconfig, henc⟩ := hencryption
  · refine ⟨?_, fun _ enc henc => ?_⟩
    · rintro - ⟨rawEnc, hsome, -⟩
      cases hraw.symm.trans hsome
    · cases hconfig.symm.trans henc
  · obtain ⟨htime, ⟨hrawNone, hnone⟩ | ⟨window, hrawSome, hsome⟩⟩ := of_encryptionSchema henc
    · refine ⟨?_, fun _ enc' henc' _ => ?_⟩
      · rintro - ⟨rawEnc', hraw', hzero, -⟩
        cases hraw.symm.trans hraw'
        cases hrawNone.symm.trans hzero
      · cases hconfig.symm.trans henc'
        exact hnone
    · constructor
      · rintro hnone ⟨rawEnc', hraw', -, htimeId⟩
        cases hraw.symm.trans hraw'
        cases hsome.symm.trans (hnone enc hconfig (htime.trans htimeId))
      · intro hzero enc' henc' htimeId
        cases hconfig.symm.trans henc'
        -- `_final_validate` lets a window without a clock through at zero only.
        have hwindow0 : window = 0 := hwindow enc hconfig window hsome htimeId
        refine absurd ⟨rawEnc, hraw, ?_, htime.symm.trans htimeId⟩ hzero
        rw [hrawSome, hwindow0]
        rfl

end

/-- The tables as they are for characters below 128. -/
def asciiTables : Unicode where
  isalpha := Char.isAlpha
  isalnum := Char.isAlphanum
  lower value := String.ofList (value.toList.map Char.toLower)
  upper c := String.singleton c.toUpper

/-- A message, an `on_message` entry for it, and a window with its clock. -/
def typedReceiver : RawConfig where
  encryption := some { key := some "passphrase", replayWindow := some 30, timeId := some "sntp" }
  messages := some
    [{ id := some "air-quality"
       fields := some [{ name := some "pm25", type := some "float", tag := some 1 }] }]
  onMessage := some
    [{ topic := some "home/air", message := some "air-quality", requireEncryption := some true }]

/-- `typedReceiver` behind the schema. -/
def typedReceiverConfig : Config where
  id := "mpubsub"
  port := 18512
  scope := .LINK_LOCAL
  hops := 1
  retransmitCount := 1
  retransmitDelay := 100
  encryption := some { key := "passphrase", replayWindow := some 30, timeId := some "sntp" }
  messages := [{ id := "air-quality", fields := [{ name := "pm25", type := "float", tag := 1 }] }]
  onMessage := some
    [{ triggerId := "trigger0", topic := "home/air", message := some "air-quality"
       requireEncryption := true }]

theorem generates_iff_typedReceiver : Generates asciiTables false typedReceiverConfig := by
  have hvalid : Validates asciiTables ("mpubsub", fun i => "trigger" ++ toString i) ["api"]
      typedReceiver typedReceiverConfig := rfl
  refine (generates_iff false hvalid).mpr ?_
  rintro ⟨enc, henc, hzero, -⟩
  cases henc
  cases hzero

/-- A window of zero seconds without a clock is accepted, and the lookup of the clock fails. -/
theorem zero_window_raises :
    ∃ config, Validates asciiTables ("mpubsub", fun i => "trigger" ++ toString i) []
        { encryption := some { key := some "passphrase", replayWindow := some 0 } } config ∧
      toCode asciiTables false config = .error (.keyError "time_id") ∧
      ¬Generates asciiTables false config := by
  refine ⟨{ id := "mpubsub", port := 18512, scope := .LINK_LOCAL, hops := 1, retransmitCount := 1
            retransmitDelay := 100, messages := [], onMessage := none
            encryption := some { key := "passphrase", replayWindow := some 0, timeId := none } },
    rfl, rfl, ?_⟩
  rintro ⟨code, hcode, -⟩
  cases hcode

end Mpubsub.Theorems
