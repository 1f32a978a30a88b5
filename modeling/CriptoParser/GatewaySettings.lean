import CriptoParser.PythonFloats
import Mathlib.Logic.Function.Basic

/-!
The settings: a value of `PUT /settings` is stored as it is, and read back as text by the scanner,
again and again, and by the executor, at its start. The text may spell any float.
-/

set_option autoImplicit false

namespace CriptoParser

/-- The text of a JSONB value as the database gives it back; `none` for a value it refuses.
The reading of a float; `none` for text that spells none. -/
class SettingText where
  jsonb : Json → Option String
  float : String → Option PyFloat

abbrev Settings := String → Option String

def seedSettings : List (String × String) := [
  ("min_spread_pct", "0.30"),
  ("max_position_pct", "10.00"),
  ("slippage_tolerance_pct", "0.20"),
  ("execution_timeout_sec", "2"),
  ("kill_switch", "false"),
  ("notification_spread_threshold", "0.50"),
  ("notification_trade_min_pnl", "5.00"),
  ("daily_loss_limit_pct", "5.00"),
  ("estimated_trade_notional", "1000.00"),
  ("rebalance_threshold_usd", "100.00")]

def stripQuotes (s : String) : String :=
  String.ofList (((s.toList.dropWhile (· = '"')).reverse.dropWhile (· = '"')).reverse)

structure HeldSettings where
  minSpread : PyFloat
  notional : PyFloat
  deriving DecidableEq, Repr

section
variable [SettingText]

/-- One `UPDATE` of the loop of `update_settings`: a row that is not there stays absent. -/
def updateSetting (key : String) (value : Json) (t : Settings) : Except PyExc Settings :=
  match SettingText.jsonb value with
  | none => .error (.callFailed false)
  | some text => .ok (if (t key).isSome then Function.update t key (some text) else t)

def readSetting (raw : String) : Except PyExc PyFloat :=
  match SettingText.float (stripQuotes raw) with
  | some x => .ok x
  | none => .error .valueError

/-- `float(str(raw).strip('"')) if raw else default`. -/
def engineSetting (raw : Option String) (default : ℚ) : Except PyExc PyFloat :=
  match raw with
  | none => .ok (.finite default)
  | some s => if s = "" then .ok (.finite default) else readSetting s

/-- `max_position_pct` and `rebalance_threshold` of the engine, in the `lifespan` of the
executor. -/
def engineSettings (t : Settings) : Except PyExc (PyFloat × PyFloat) := do
  let maxPosition ← engineSetting (t "max_position_pct") 10
  let rebalanceThreshold ← engineSetting (t "rebalance_threshold_usd") 100
  .ok (maxPosition, rebalanceThreshold)

def refreshMinSpread (raw : Option String) (held : HeldSettings) : Except PyExc HeldSettings :=
  match raw with
  | none => .ok held
  | some s => do
    let x ← readSetting s
    .ok { held with minSpread := x }

def refreshNotional (raw : Option String) (held : HeldSettings) : Except PyExc HeldSettings :=
  match raw with
  | none => .ok held
  | some s => do
    let x ← readSetting s
    .ok { held with notional := x }

/-- The table, what the scanner holds, and whether its refresher is at its second query. -/
structure SettingsState where
  table : Settings
  held : HeldSettings
  second : Bool

/-- The state after the database has been set up and the scanner has started. -/
def seededSettings : SettingsState where
  table := fun key => seedSettings.lookup key
  held := ⟨FloatRounding.round (3 / 10), .finite 1000⟩
  second := false

inductive SettingsStep where
  | update (key : String) (value : Json)
  /-- The refresher makes its next query and takes the answer over. -/
  | refresh
  | queryFails

/-- The handlers of the refresher log what is raised; the next query is the first again. -/
def SettingsState.step (s : SettingsState) : SettingsStep → SettingsState
  | .update key value =>
    match updateSetting key value s.table with
    | .ok t => { s with table := t }
    | .error _ => s
  | .refresh =>
    if s.second then
      match refreshNotional (s.table "estimated_trade_notional") s.held with
      | .ok held => { s with held := held, second := false }
      | .error _ => { s with second := false }
    else
      match refreshMinSpread (s.table "min_spread_pct") s.held with
      | .ok held => { s with held := held, second := true }
      | .error _ => s
  | .queryFails => { s with second := false }

def SettingsState.run (s : SettingsState) (steps : List SettingsStep) : SettingsState :=
  steps.foldl SettingsState.step s

end

end CriptoParser
