import Mpubsub.Client.Publish

/-!
# The constructor of the asyncio client (`aio.py`)

`MpubsubClient.__init__` checks its arguments and sets the attributes. The delay is a
Python float, which may be infinite or not a number; on the loop's clock it is a rational
(`Attributes.settings`).
-/

namespace Mpubsub.Client

open Mpubsub.Lib Mpubsub.Wire

/-- A float of seconds. -/
inductive Seconds where
  | finite (s : Rat)
  | inf
  | negInf
  | nan
deriving DecidableEq

namespace Seconds

/-- `s < bound`. -/
def lt : Seconds → Rat → Bool
  | finite s, bound => s < bound
  | inf, _ => false
  | negInf, _ => true
  | nan, _ => false

/-- `s >= bound`. -/
def ge : Seconds → Rat → Bool
  | finite s, bound => bound ≤ s
  | inf, _ => true
  | negInf, _ => false
  | nan, _ => false

/-- The loop takes the delay as `delay`; of one that is not finite, this is left open. -/
def TakenAs : Seconds → Rat → Prop
  | finite s, delay => delay = s
  | _, _ => True

theorem exists_takenAs (s : Seconds) : ∃ delay, s.TakenAs delay := by
  cases s with
  | finite s => exact ⟨s, rfl⟩
  | inf => exact ⟨0, trivial⟩
  | negInf => exact ⟨0, trivial⟩
  | nan => exact ⟨0, trivial⟩

/-- Not to be below a bound is to be at least that, or not a number. -/
theorem lt_eq_false_iff {s : Seconds} {bound : Rat} :
    s.lt bound = false ↔ s.ge bound = true ∨ s = nan := by
  cases s with
  | finite s => simp [lt, ge]
  | inf => simp [lt, ge]
  | negInf => simp [lt, ge]
  | nan => simp [lt]

end Seconds

/-- The arguments `scope` and `key`. -/
inductive ScopeArg where
  | nibble (scope : Int)
  | name (scope : String)
deriving DecidableEq

inductive KeyArg where
  | none
  | str (passphrase : String)
  | bytes (key : Bytes)
deriving DecidableEq

/-- The arguments of `__init__`. -/
structure InitArgs where
  port : Nat := 18512
  scope : ScopeArg := .name "link-local"
  interface : Option String := none
  key : KeyArg := .none
  hops : Int := 1
  replayWindow : Int := 0
  retransmitCount : Int := 1
  retransmitDelay : Seconds := .finite (1 / 10)
  promoteQos : Bool := false

/-- The attributes that it sets from them. -/
structure Attributes where
  port : Nat
  scope : Scope
  interface : Option String
  hops : Int
  key : Option Bytes
  replayWindow : Int
  retransmitCount : Int
  retransmitDelay : Seconds
  promoteQos : Bool

/-- What it raises. -/
inductive InitError where
  | invalidNibble (scope : Int)
  | unknownScope (scope : String)
  | indefiniteDelay
  | retransmitCount
  | windowWithoutKey
deriving DecidableEq

/-- The text of an error; `repr` is the format `%r`, `hex` is `%#x`. -/
def InitError.text (repr : String → String) (hex : Int → String) : InitError → String
  | invalidNibble scope => "invalid scope nibble " ++ hex scope
  | unknownScope scope =>
    "unknown scope " ++ repr scope ++ "; use one of link-local, organization-local, site-local"
  | indefiniteDelay => "retransmit_count=-1 (indefinite) requires retransmit_delay >= 1s"
  | retransmitCount => "retransmit_count must be 1..255 or -1 (indefinite)"
  | windowWithoutKey =>
    "replay_window requires a key: replay protection only applies to encrypted packets"

/-- `resolve_scope`. -/
def resolveScope : ScopeArg → Except InitError Scope
  | .nibble scope =>
    if scope = 0x2 then .ok .LINK_LOCAL
    else if scope = 0x5 then .ok .SITE_LOCAL
    else if scope = 0x8 then .ok .ORG_LOCAL
    else .error (.invalidNibble scope)
  | .name scope =>
    if scope = "link-local" then .ok .LINK_LOCAL
    else if scope = "site-local" then .ok .SITE_LOCAL
    else if scope = "organization-local" then .ok .ORG_LOCAL
    else .error (.unknownScope scope)

/-- `derive_key`. -/
def deriveKey (passphrase : String) : Bytes := Sha256.hash (utf8 passphrase)

/-- `self.key`. -/
def keyOf : KeyArg → Option Bytes
  | .none => none
  | .str passphrase => if passphrase = "" then none else some (deriveKey passphrase)
  | .bytes key => some key

def MIN_INDEFINITE_DELAY : Rat := 1

/-- `__init__`. -/
def init (args : InitArgs) : Except InitError Attributes :=
  match resolveScope args.scope with
  | .error e => .error e
  | .ok scope =>
    let key := keyOf args.key
    if args.retransmitCount = RETRANSMIT_INDEFINITE ∧
        args.retransmitDelay.lt MIN_INDEFINITE_DELAY then .error .indefiniteDelay
    else if args.retransmitCount = 0 ∨ args.retransmitCount < RETRANSMIT_INDEFINITE then
      .error .retransmitCount
    else if args.replayWindow ≠ 0 ∧ key.getD [] = [] then .error .windowWithoutKey
    else
      .ok
        { port := args.port, scope := scope, interface := args.interface, hops := args.hops
          key := key, replayWindow := args.replayWindow
          retransmitCount := args.retransmitCount, retransmitDelay := args.retransmitDelay
          promoteQos := args.promoteQos }

/-- The attributes that publishing reads, where the loop takes the delay as `delay`. -/
def Attributes.settings (a : Attributes) (delay : Rat) : Settings where
  port := a.port
  scope := a.scope
  interface := a.interface
  key := a.key
  retransmitCount := a.retransmitCount
  retransmitDelay := delay
  promoteQos := a.promoteQos

/-- What the constructor accepts. -/
theorem of_init {args : InitArgs} {a : Attributes} (h : init args = .ok a) :
    (a.retransmitCount = RETRANSMIT_INDEFINITE →
      a.retransmitDelay.ge MIN_INDEFINITE_DELAY = true ∨ a.retransmitDelay = .nan) ∧
    (a.retransmitCount = RETRANSMIT_INDEFINITE ∨ 1 ≤ a.retransmitCount) := by
  unfold init at h
  split at h
  · cases h
  simp only at h
  split at h
  · cases h
  rename_i hdelay
  split at h
  · cases h
  rename_i hcount
  split at h
  · cases h
  cases h
  simp only [RETRANSMIT_INDEFINITE] at hdelay hcount ⊢
  refine ⟨?_, by omega⟩
  intro hindefinite
  rw [← Seconds.lt_eq_false_iff, ← Bool.not_eq_true]
  exact fun hlt => hdelay ⟨hindefinite, hlt⟩

end Mpubsub.Client
