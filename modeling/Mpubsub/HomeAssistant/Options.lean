import Mathlib.Data.Rat.Floor
import Mathlib.Tactic.Linarith

/-!
# The options of the Home Assistant integration (`config_flow.py`)

`MpubsubOptionsFlow.async_step_init`: the form's schema fills in defaults and checks the bounds of
the selectors, `_validate_options` checks the rest, and the entry keeps the values as integers where
it wants integers. A number of a form is a finite float, so a rational.
-/

namespace Mpubsub.HomeAssistant

def RETRANSMIT_INDEFINITE : Int := -1
def MIN_INDEFINITE_DELAY : ℚ := 1

/-- `0.1` as a float. -/
def DEFAULT_RETRANSMIT_DELAY : ℚ := 3602879701896397 / 36028797018963968

/-- The options of an entry, with their defaults. -/
structure Options where
  hops : Int := 1
  retransmitCount : Int := 1
  retransmitDelay : ℚ := DEFAULT_RETRANSMIT_DELAY
  promoteQos : Bool := false
  replayWindow : Int := 0
deriving DecidableEq

/-- What the user submits: a field may be left out. -/
structure UserInput where
  hops : Option ℚ := none
  retransmitCount : Option ℚ := none
  retransmitDelay : Option ℚ := none
  promoteQos : Option Bool := none
  replayWindow : Option ℚ := none

/-- The form behind its schema. -/
structure OptionsForm where
  hops : ℚ
  retransmitCount : ℚ
  retransmitDelay : ℚ
  promoteQos : Bool
  replayWindow : ℚ

/-- A `NumberSelector`, which checks the bounds and not the step. -/
def numberSelector (min max x : ℚ) : Option ℚ := if x < min ∨ max < x then none else some x

/-- The window that the user asks for. -/
def UserInput.window (input : UserInput) (current : Options) : ℚ :=
  input.replayWindow.getD current.replayWindow

/-- `_options_schema`. -/
def optionsSchema (current : Options) (input : UserInput) : Option OptionsForm := do
  let hops ← numberSelector 1 255 (input.hops.getD current.hops)
  let count ← numberSelector (-1) 255 (input.retransmitCount.getD current.retransmitCount)
  let delay ← numberSelector 0 3600 (input.retransmitDelay.getD current.retransmitDelay)
  let window ← numberSelector 0 86400 (input.window current)
  return {
    hops := hops
    retransmitCount := count
    retransmitDelay := delay
    promoteQos := input.promoteQos.getD current.promoteQos
    replayWindow := window }

/-- `int(x)`. -/
def int (x : ℚ) : Int := if 0 ≤ x then ⌊x⌋ else ⌈x⌉

/-- The errors of `_validate_options`. -/
inductive OptionsError where
  | invalidRetransmitCount
  | indefiniteNeedsDelay
  | replayWindowNeedsKey
deriving DecidableEq

/-- The field of an error, and its key. -/
def OptionsError.entry : OptionsError → String × String
  | invalidRetransmitCount => ("retransmit_count", "invalid_retransmit_count")
  | indefiniteNeedsDelay => ("retransmit_delay", "indefinite_needs_delay")
  | replayWindowNeedsKey => ("replay_window", "replay_window_needs_key")

/-- `_validate_options`. -/
def validateOptions (form : OptionsForm) (hasKey : Bool) : List OptionsError :=
  let count := int form.retransmitCount
  let errors :=
    if count = 0 then [OptionsError.invalidRetransmitCount]
    else if count = RETRANSMIT_INDEFINITE ∧ form.retransmitDelay < MIN_INDEFINITE_DELAY then
      [OptionsError.indefiniteNeedsDelay]
    else []
  if form.replayWindow > 0 ∧ !hasKey then errors ++ [.replayWindowNeedsKey] else errors

/-- What a step of the flow comes to. -/
inductive FlowResult where
  | invalid
  | showForm (errors : List OptionsError)
  | createEntry (options : Options)
deriving DecidableEq

/-- `async_step_init`, of submitted input. -/
def asyncStepInit (hasKey : Bool) (current : Options) (input : UserInput) : FlowResult :=
  match optionsSchema current input with
  | none => .invalid
  | some form =>
    let errors := validateOptions form hasKey
    if errors ≠ [] then .showForm errors
    else .createEntry {
      hops := int form.hops
      retransmitCount := int form.retransmitCount
      retransmitDelay := form.retransmitDelay
      promoteQos := form.promoteQos
      replayWindow := int form.replayWindow }

/-! ## What an entry has -/

theorem int_pos_iff {x : ℚ} (h : 0 ≤ x) : 0 < int x ↔ 1 ≤ x := by
  rw [int, if_pos h]
  exact Int.floor_pos

theorem replayWindow_of_optionsSchema {current : Options} {input : UserInput} {form : OptionsForm}
    (h : optionsSchema current input = some form) : form.replayWindow = input.window current := by
  obtain ⟨hops, -, h⟩ := Option.bind_eq_some_iff.mp h
  obtain ⟨count, -, h⟩ := Option.bind_eq_some_iff.mp h
  obtain ⟨delay, -, h⟩ := Option.bind_eq_some_iff.mp h
  obtain ⟨window, hwindow, h⟩ := Option.bind_eq_some_iff.mp h
  cases h
  unfold numberSelector at hwindow
  split at hwindow
  · cases hwindow
  · cases hwindow
    rfl

/-- The window is stored without its fraction. -/
theorem replayWindow_of_createEntry {hasKey : Bool} {current : Options} {input : UserInput}
    {options : Options} (h : asyncStepInit hasKey current input = .createEntry options) :
    options.replayWindow = int (input.window current) := by
  unfold asyncStepInit at h
  cases hform : optionsSchema current input with
  | none =>
    rw [hform] at h
    cases h
  | some form =>
    rw [hform] at h
    simp only at h
    split at h
    · cases h
    · cases h
      rw [replayWindow_of_optionsSchema hform]

end Mpubsub.HomeAssistant
