import CilProbes.Session.Dialogue
import CilProbes.Table

/-! # Scripted collaborators

A script is a small process to try a session on: a few modules with their metadata, a few methods
with bodies and points, and a host that can be told to refuse. It answers every request from its
tables; only the body of a method ever changes.

* `Script.answer`: the answer to a request.
* `Script.world`: the script as a world.
-/

namespace CilProbes

/-- The metadata of a module. -/
structure ScriptedModule where
  assembly : Option String
  /-- Its assembly. -/
  record : Option AssemblyRecord
  references : List AssemblyRecord
  /-- What becomes of an injected type. -/
  registration : Registration
  /-- What becomes of the bodies of an injected type. -/
  injection : Injection
  safeToken : Option Token
  correlation : Option CorrelationContext
  helpers : Option HelperTokens
  signatures : Table ProbeArity Token
deriving DecidableEq, Repr

/-- The module about which nothing is known. -/
def ScriptedModule.blank : ScriptedModule :=
  ⟨none, none, [], .notApplicable, .illegal, none, none, none, .empty⟩

/-- What a host is told to refuse. -/
structure HostSwitches where
  refuseRoom : Bool := false
  /-- By how much the room differs from what is asked for. -/
  roomDelta : Int := 0
  refuseBody : Bool := false
  refuseMap : Bool := false
deriving DecidableEq, Repr

/-- Collaborators that answer from tables. -/
structure Script where
  modules : Table ModuleId ScriptedModule
  /-- The points of methods, or why there are none; the first entry of a method counts. -/
  points : List (MethodKey × Except String Points)
  /-- The bodies of methods, as far as they have one. -/
  bodies : Table MethodKey (Option Bytes)
  switches : HostSwitches

def ProbeArity.text : ProbeArity → String
  | id => "Id"
  | idWithContext => "IdWithContext"

namespace Script

/-- The byte that fills fresh room. -/
def filler : UInt8 := 0xCC

/-- The value, or a refusal where there is none. -/
def orRefuse {α : Type} (text : String) (value : Option α) : Except String α :=
  value.elim (.error text) .ok

variable (s : Script)

/-- A module; an unknown one is blank. -/
def moduleOf (m : ModuleId) : ScriptedModule := (s.modules.find? m).getD .blank

def room (size : Nat) : Except String Bytes :=
  if s.switches.refuseRoom then .error "Alloc"
  else .ok (List.replicate (size + s.switches.roomDelta).toNat filler)

def assembliesOf (m : ModuleId) : Except String ModuleAssemblies :=
  (orRefuse "no assembly metadata" (s.moduleOf m).record).map fun own =>
    ⟨own, (s.moduleOf m).references⟩

/-- The points of a method; an unknown one has none. -/
def pointsOf (key : MethodKey) : Except String Points := (s.points.lookup key).getD (.ok .none)

/-- The script with a body put in place. -/
def withBody (key : MethodKey) (body : Option Bytes) : Script :=
  { s with bodies := s.bodies.insert key body }

def bodyOf (key : MethodKey) : Option Bytes := (s.bodies.find? key).join

/-- **The answer to a request**, and the script behind it. -/
def answer (r : Request) (s : Script) : r.Answer × Script :=
  match r with
  | .methodBody key => (orRefuse "GetILFunctionBody" (s.bodyOf key), s)
  | .allocateBody _ size => (s.room size, s)
  | .setMethodBody key body =>
    if s.switches.refuseBody then (.error "SetILFunctionBody", s)
    else (.ok (), s.withBody key (some body))
  | .setOffsetMap _ _ =>
    (if s.switches.refuseMap then .error "SetILInstrumentedCodeMap" else .ok (), s)
  | .assemblyName m => (orRefuse "unknown module" (s.moduleOf m).assembly, s)
  | .moduleAssemblies m => (s.assembliesOf m, s)
  | .points key => (s.pointsOf key, s)
  | .registerType m => ((s.moduleOf m).registration, s)
  | .injectType m => ((s.moduleOf m).injection, s)
  | .safeProbeToken m => (orRefuse "DefineMemberRef" (s.moduleOf m).safeToken, s)
  | .correlationContext m => ((s.moduleOf m).correlation, s)
  | .defineHelpers m => (orRefuse "type not found" (s.moduleOf m).helpers, s)
  | .probeSignature m arity =>
    (orRefuse ("no signature for " ++ arity.text) ((s.moduleOf m).signatures.find? arity), s)

/-- **The script as a world.** -/
def world : World Script := ⟨answer⟩

end Script

end CilProbes
