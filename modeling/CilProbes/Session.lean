import CilProbes.Assembly.Registry
import CilProbes.Session.Nest
import CilProbes.Session.Resolver
import CilProbes.Settings
import CilProbes.Visit.Recorder

/-! # Sessions

A session instruments the methods of one process while they are compiled. It keeps what it has
learned: the assemblies met, the helper pair, the probe targets and the visit counters.

* `Session.new`: a session before the first module.
* `Session.recorder`: the recorder that the probes of the session call.
* `Session.moduleLoaded`: what a session does with a module, whatever part of it fails.
-/

namespace CilProbes

/-- The native functions that probes reach. -/
structure RecorderAddresses where
  /-- The recorder that takes a number. -/
  visit : UInt64
  /-- The recorder that takes a number and a correlation id. -/
  visitWithContext : UInt64
  width : PointerWidth
deriving DecidableEq, Repr

/-- What a session has learned. -/
structure Session where
  settings : Settings
  resolver : Resolver
  nest : Nest
  registry : Registry
  counters : VisitCounters
deriving DecidableEq, Repr

/-- Enters the assembly of a module and those it refers to. -/
def Registry.recordModule (r : Registry) (module : ModuleId) : Talk Registry := do
  let assemblies ← Talk.demand (.request (.moduleAssemblies module))
  pure (r.recordAll assemblies)

namespace Session

def routeOf (a : RecorderAddresses) : ProbeMode → Route
  | .direct => .direct a.visit a.width
  | .cuckoo => .trampoline

/-- A session before the first module. -/
def new (settings : Settings) (a : RecorderAddresses) : Session where
  settings := settings
  resolver := .new (routeOf a settings.mode)
  nest := .new a.visitWithContext a.width
  registry := .empty
  counters := .new settings.cap

variable (s : Session)

/-- The recorder that the probes of the session call. -/
def recorder : Recorder := ⟨s.settings.safeMode⟩

/-- The nest after a look at a module, in which it is planted if that is a system assembly. -/
def plantIn (module : ModuleId) : Talk Nest := do
  let name ← Talk.demand (.request (.assemblyName module))
  if isSystemAssembly name then
    let (_, nest) ← s.nest.plant module
    pure nest
  else
    pure s.nest

/-- Plants the nest if the module is a place for it. A fault is noted and changes nothing. -/
def considerNest (module : ModuleId) : Dialogue Session := do
  if s.settings.mode = .cuckoo then
    match ← (s.plantIn module).run with
    | .ok nest => pure { s with nest }
    | .error fault =>
      Dialogue.tell (.nestRefused module fault)
      pure s
  else
    pure s

/-- Records the assemblies of a module. A fault is noted and changes nothing. -/
def recordAssemblies (module : ModuleId) : Dialogue Session := do
  match ← (s.registry.recordModule module).run with
  | .ok registry => pure { s with registry }
  | .error fault =>
    Dialogue.tell (.assembliesRefused module fault)
    pure s

/-- Has injected types declared in a module, and their bodies emitted where that worked. -/
def injectTypes (module : ModuleId) : Dialogue Unit := do
  if (← Dialogue.request (.registerType module)) = .registered then
    let injection ← Dialogue.request (.injectType module)
    Dialogue.tell (.typeInjected module injection)

/-- **What a session does with a module.** Each of the three steps is tried, whatever became of the
others. -/
def moduleLoaded (module : ModuleId) : Dialogue Session := do
  let s ← s.considerNest module
  let s ← s.recordAssemblies module
  injectTypes module
  pure s

end Session

end CilProbes
