import CilProbes.Coverage.Probe
import CilProbes.Fault
import CilProbes.Text.Blank
import CilProbes.Text.Natural

/-! # Settings

The settings of a session come from named values, such as environment variables. A value that is
missing or empty leaves its setting alone.

* `Settings.ofLookup`: the settings that named values ask for.
* `ProbeMode.ofText?`, `ProbeMode.text`: the names of the probe modes.
-/

namespace CilProbes

/-- The settings of a session. -/
structure Settings where
  /-- How many visits of a number are reported; zero stands for all of them. -/
  cap : UInt32
  /-- How probes reach the recorder. -/
  mode : ProbeMode
  /-- Whether every visit is handed on at once. -/
  safeMode : Bool
  /-- Whether every instrumented method is logged with its listings. -/
  diagnostics : Bool
deriving DecidableEq, Repr

/-- The mode with a given name. -/
def ProbeMode.ofText? : String → Option ProbeMode
  | "direct" | "oldSchool" => some direct
  | "cuckoo" => some cuckoo
  | _ => none

/-- The name of a mode; of two names the longer one. -/
def ProbeMode.text : ProbeMode → String
  | direct => "oldSchool"
  | cuckoo => "cuckoo"

theorem ProbeMode.ofText?_text (m : ProbeMode) : ofText? m.text = some m := by
  cases m <;> rfl

namespace Settings

/-- The name of the value for the cap. -/
def capKey : String := "OpenCover_Profiler_Threshold"

/-- The name of the value for the probe mode. -/
def modeKey : String := "OpenCover_Profiler_Instrumentation"

/-- The name of the value that asks for listings. -/
def diagnosticsKey : String := "OpenCover_Profiler_Diagnostics"

/-- The name of the value that asks for safe mode. -/
def safeModeKey : String := "OpenCover_Profiler_SafeMode"

/-- The name of the value that asks for tracking by test, which takes safe mode. -/
def byTestKey : String := "OpenCover_Profiler_TraceByTest"

/-- The settings when no value is given. -/
def default : Settings := ⟨0, .cuckoo, false, false⟩

instance : Inhabited Settings := ⟨default⟩

/-- The settings for indirect calls. -/
def direct : Settings := { default with mode := .direct }

/-- The settings for the study of a run. -/
def diagnostic : Settings := { default with safeMode := true, diagnostics := true }

/-- The cap that a value states, apart from blanks around it. -/
def capOf (value : String) : Except Fault UInt32 :=
  match Numeral.parse UInt32.size (Blank.trim value.toList) with
  | .ok n => .ok (UInt32.ofNat n)
  | .error fault => .error (.config capKey (.notANumber value fault.message))

/-- The mode that a value names. -/
def modeOf (value : String) : Except Fault ProbeMode :=
  match ProbeMode.ofText? value with
  | some mode => .ok mode
  | none => .error (.config modeKey (.unknownMode value))

/-- **The settings that named values ask for.** The cap is looked at before the mode. Safe mode is
asked for by any value, listings by the word `true` alone. -/
def ofLookup (lookup : String → Option String) : Except Fault Settings := do
  let value key := (lookup key).filter (· ≠ "")
  let cap ← (value capKey).elim (.ok default.cap) capOf
  let mode ← (value modeKey).elim (.ok default.mode) modeOf
  pure
    { cap, mode
      safeMode := (value safeModeKey).isSome || (value byTestKey).isSome
      diagnostics := value diagnosticsKey == some "true" }

end Settings

end CilProbes
