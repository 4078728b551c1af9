import Mpubsub.Bridge.Duration
import Mpubsub.HomeAssistant.Options

/-!
# Replay windows that are dropped

A window that is asked for is to be on. Both the bridge's loader and the Home Assistant flow look
at the window before they cut it to whole seconds, and so take one of less than a second for a
window of zero.
-/

namespace Mpubsub.Theorems

open Mpubsub.Lib Mpubsub.Bridge Mpubsub.HomeAssistant

section

variable {parse : Bytes → Except String Int} {file : ConfigFile} {d : Int}

theorem loadWindow_of_ok {seconds : Int → UInt32} {key : Option Bytes} {raw : Bytes}
    {window : UInt32} (hparse : parse raw = .ok d) (hraw : raw ≠ []) (hd : 0 < d)
    (h : loadWindow ⟨parse, seconds⟩ key raw = .ok window) :
    window = seconds d ∧ ∀ seconds', loadWindow ⟨parse, seconds'⟩ key raw = .ok (seconds' d) := by
  have hload (seconds : Int → UInt32) : loadWindow ⟨parse, seconds⟩ key raw =
      if key = none then .error .windowWithoutKey else .ok (seconds d) := by
    rw [loadWindow, if_neg hraw]
    simp only [hparse]
    rw [if_neg (by omega), if_pos hd]
  rw [hload] at h
  split at h
  · cases h
  · rename_i hkey
    cases h
    exact ⟨rfl, fun seconds' => by rw [hload, if_neg hkey]⟩

/-- What is made of the seconds does not decide whether the file is accepted. -/
theorem loadConfig_window {seconds : Int → UInt32} {c : LoadedConfig}
    (hparse : parse file.mpubsub.replayWindow = .ok d) (hraw : file.mpubsub.replayWindow ≠ [])
    (hd : 0 < d) (h : loadConfig ⟨parse, seconds⟩ file = .ok c) :
    c.mpubsub.replayWindowSeconds = seconds d ∧
      ∀ seconds', ∃ c', loadConfig ⟨parse, seconds'⟩ file = .ok c' := by
  obtain ⟨c₁, hdefaults, h⟩ := bind_eq_ok.mp h
  obtain ⟨_, hvalidate, h⟩ := bind_eq_ok.mp h
  cases h
  obtain ⟨m, hm, h⟩ := bind_eq_ok.mp hdefaults
  obtain ⟨bridges, hbridges, h⟩ := bind_eq_ok.mp h
  cases h
  obtain ⟨delay, hdelay, h⟩ := bind_eq_ok.mp hm
  obtain ⟨window, hwindow, h⟩ := bind_eq_ok.mp h
  cases h
  obtain ⟨hsame, hload⟩ := loadWindow_of_ok hparse hraw hd hwindow
  refine ⟨hsame, fun seconds' => ⟨_, bind_eq_ok.mpr ⟨_, bind_eq_ok.mpr ⟨_, bind_eq_ok.mpr
    ⟨delay, hdelay, bind_eq_ok.mpr ⟨_, hload seconds', rfl⟩⟩, bind_eq_ok.mpr
      ⟨bridges, hbridges, rfl⟩⟩, bind_eq_ok.mpr ⟨(), hvalidate, rfl⟩⟩⟩⟩

theorem kept_loaded_iff (hparse : parse file.mpubsub.replayWindow = .ok d)
    (hraw : file.mpubsub.replayWindow ≠ []) (hd : 0 < d) (hbits : d < 2 ^ 63)
    {seconds₀ : Int → UInt32} {c₀ : LoadedConfig}
    (hload : loadConfig ⟨parse, seconds₀⟩ file = .ok c₀) :
    (∀ conv c, loadConfig ⟨parse, uint32Seconds conv⟩ file = .ok c →
        Kept d c.mpubsub.replayWindowSeconds) ↔ SECOND ≤ d ∧ seconds d < 2 ^ 32 := by
  rw [← kept_iff (Int.le_of_lt hd) hbits]
  constructor
  · intro hkept conv
    obtain ⟨c, hc⟩ := (loadConfig_window hparse hraw hd hload).2 (uint32Seconds conv)
    rw [← (loadConfig_window hparse hraw hd hc).1]
    exact hkept conv c hc
  · intro hkept conv c hc
    rw [(loadConfig_window hparse hraw hd hc).1]
    exact hkept conv

end

/-! ## Half a second -/

/-- A file with a key and a window. -/
def windowFile (raw : Bytes) : ConfigFile where
  mqtt := { broker := [98] }
  mpubsub := { key := [107], replayWindow := raw }
  bridges := [{ direction := Direction.name .DirMQTTToMPubsub, mqttTopic := [116] }]

/-- What the loader makes of it. -/
def windowConfig (window : UInt32) : LoadedConfig where
  mqtt := { broker := [98], clientID := utf8 "mpubsub-bridge" }
  mpubsub :=
    { port := 18512, scope := utf8 "link-local", hops := 1, retransmitCount := 1
      retransmitDelay := 100000000, promoteQoS := false
      encryptionKey := some (Bridge.deriveKey [107]), replayWindowSeconds := window }
  bridges := [{ direction := Direction.name .DirMQTTToMPubsub, mqttTopic := [116] }]

/-- The durations of two texts. -/
def parseTwo (raw : Bytes) : Except String Int :=
  if raw = utf8 "500ms" then .ok 500000000
  else if raw = utf8 "2s" then .ok 2000000000
  else .error "time: invalid duration"

theorem loadConfig_windowFile {parse : Bytes → Except String Int} {raw : Bytes} {d : Int}
    (hparse : parse raw = .ok d) (hraw : raw ≠ []) (hd : 0 < d) (seconds : Int → UInt32) :
    loadConfig ⟨parse, seconds⟩ (windowFile raw) = .ok (windowConfig (seconds d)) := by
  have hwindow : loadWindow ⟨parse, seconds⟩ (some (Bridge.deriveKey [107])) raw =
      .ok (seconds d) := by
    rw [loadWindow, if_neg hraw]
    simp only [hparse]
    rw [if_neg (by omega), if_pos hd, if_neg (Option.some_ne_none _)]
  have hmpubsub : loadMPubsub ⟨parse, seconds⟩ (windowFile raw).mpubsub =
      .ok (windowConfig (seconds d)).mpubsub :=
    bind_eq_ok.mpr ⟨100 * MILLISECOND, rfl, bind_eq_ok.mpr ⟨_, hwindow, rfl⟩⟩
  exact bind_eq_ok.mpr ⟨_, bind_eq_ok.mpr ⟨_, hmpubsub, bind_eq_ok.mpr ⟨_, rfl, rfl⟩⟩,
    bind_eq_ok.mpr ⟨(), rfl, rfl⟩⟩

/-- A window of 500 ms, and one of 0.5 s, are accepted and stored as zero. -/
theorem half_second_dropped :
    (parseTwo (utf8 "500ms") = .ok 500000000 ∧
      loadConfig ⟨parseTwo, uint32Seconds fun _ => 0⟩ (windowFile (utf8 "500ms")) =
        .ok (windowConfig 0) ∧
      ¬Kept 500000000 0) ∧
    asyncStepInit true {} { replayWindow := some (1 / 2) } = .createEntry {} := by
  have hparse : parseTwo (utf8 "500ms") = .ok 500000000 := if_pos rfl
  have hload := loadConfig_windowFile hparse (by decide +kernel) (by decide)
    (uint32Seconds fun _ => 0)
  rw [uint32Seconds_of_lt (by decide) (by decide)] at hload
  exact ⟨⟨hparse, hload, fun hkept => absurd hkept.positive (by decide)⟩, by decide +kernel⟩

/-- **A window that is asked for is on, and as long as was asked, if and only if** it has a second
and its seconds fit into 32 bits, in the bridge; and if and only if it is at least 1, in the
integration. -/
theorem window_kept_iff {parse : Bytes → Except String Int} {file : ConfigFile} {d : Int}
    (hparse : parse file.mpubsub.replayWindow = .ok d) (hraw : file.mpubsub.replayWindow ≠ [])
    (hd : 0 < d) (hbits : d < 2 ^ 63) {seconds₀ : Int → UInt32} {c₀ : LoadedConfig}
    (hload : loadConfig ⟨parse, seconds₀⟩ file = .ok c₀) {hasKey : Bool} {current : Options}
    {input : UserInput} {options : Options}
    (hentry : asyncStepInit hasKey current input = .createEntry options)
    (hwindow : 0 < input.window current) :
    ((∀ conv c, loadConfig ⟨parse, uint32Seconds conv⟩ file = .ok c →
        Kept d c.mpubsub.replayWindowSeconds) ↔ SECOND ≤ d ∧ seconds d < 2 ^ 32) ∧
    (0 < options.replayWindow ↔ 1 ≤ input.window current) := by
  refine ⟨kept_loaded_iff hparse hraw hd hbits hload, ?_⟩
  rw [replayWindow_of_createEntry hentry]
  exact int_pos_iff hwindow.le

/-- Windows of two seconds. -/
theorem window_kept_iff_two :
    (∃ c, loadConfig ⟨parseTwo, uint32Seconds fun _ => 0⟩ (windowFile (utf8 "2s")) = .ok c ∧
      Kept 2000000000 c.mpubsub.replayWindowSeconds) ∧
    asyncStepInit true {} { replayWindow := some 2 } = .createEntry { replayWindow := 2 } ∧
    0 < ({ replayWindow := 2 } : Options).replayWindow := by
  have hne : utf8 "2s" ≠ utf8 "500ms" := by decide +kernel
  have hparse : parseTwo (utf8 "2s") = .ok 2000000000 := by
    rw [parseTwo, if_neg hne, if_pos rfl]
  have hload := loadConfig_windowFile hparse (by decide +kernel) (by decide)
    (uint32Seconds fun _ => 0)
  have hentry : asyncStepInit true {} { replayWindow := some 2 } =
      .createEntry { replayWindow := 2 } := by decide +kernel
  have hwindow : UserInput.window { replayWindow := some 2 } {} = 2 := rfl
  have hkept := @window_kept_iff parseTwo (windowFile (utf8 "2s")) _ hparse (by decide +kernel)
    (by decide) (by decide) _ _ hload _ _ _ _ hentry (by rw [hwindow]; norm_num)
  obtain ⟨-, hhigh⟩ := seconds_bounds (show 0 ≤ (2000000000 : Int) by decide) (by decide)
  have hfits : seconds 2000000000 < 2 ^ 32 := hhigh.trans_lt (by norm_num [SECOND])
  exact ⟨⟨_, hload, hkept.1.mpr ⟨by decide, hfits⟩ _ _ hload⟩, hentry,
    hkept.2.mpr (by rw [hwindow]; norm_num)⟩

end Mpubsub.Theorems
