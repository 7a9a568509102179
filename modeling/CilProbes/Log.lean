import CilProbes.Coverage.Probe
import CilProbes.Fault

/-! # Log events

What a session tells about its work, by cause, with one function for the text of each.

* `LogEvent.level`, `LogEvent.text`: how an event is written.
* `Logged`: a computation that may fail and that notes events on its way.
-/

namespace CilProbes

/-- How much an event matters. -/
inductive LogLevel where
  | trace
  | debug
  | info
  | warn
deriving DecidableEq, Repr

/-- The helper methods of the nest. -/
inductive Helper where
  /-- The helper that calls the native recorder. -/
  | critical
  | safe
deriving DecidableEq, Repr

/-- What became of the bodies of an injected type. -/
inductive Injection where
  | injected
  /-- The module never registered the type. -/
  | illegal
  | failed
deriving DecidableEq, Repr

/-- The number by which the host knows a module. -/
abbrev ModuleId := UInt64

/-- What happened. -/
inductive LogEvent where
  /-- A sequence point names no instruction. -/
  | sequencePointUnknown (id : ProbeId) (offset : Nat)
  /-- A branch point names no instruction. -/
  | branchPointUnknown (offset : Nat)
  /-- A branch point names an instruction without edges. -/
  | branchPointWithoutEdges (offset : Nat) (mnemonic : String)
  /-- A branch point names the last instruction. -/
  | branchPointAtEnd (offset : Nat)
  | nestDefined (module : ModuleId) (safe critical : Token)
  /-- The helper pair could not be defined in a module. -/
  | nestRefused (module : ModuleId) (fault : Fault)
  /-- The assemblies of a module could not be recorded. -/
  | assembliesRefused (module : ModuleId) (fault : Fault)
  | typeInjected (module : ModuleId) (outcome : Injection)
  | leftUninstrumented (module : ModuleId) (method : Token) (fault : Fault)
  | noSequencePoints (method : Token)
  | alreadyInstrumented (method : Token)
  /-- The host refused the offset map of a method that has its new body. -/
  | offsetMapRefused (method : Token) (fault : Fault)
  | helperInstalled (helper : Helper) (method : Token)
  | sequencePointsOf (method : Token)
  | sequencePoint (point : SequencePoint)
  | branchPointsOf (method : Token)
  | branchPoint (point : BranchPoint)
  /-- The listing of a method before its instrumentation. -/
  | listingBefore (method : Token) (listing : String)
  /-- The listing of a method after its instrumentation. -/
  | listingAfter (method : Token) (listing : String)
deriving DecidableEq, Repr

/-- The name of a helper in the system library. -/
def Helper.method : Helper → String
  | critical => "VisitedCritical"
  | safe => "SafeVisited"

def Helper.text : Helper → String
  | critical => "Critical"
  | safe => "Safe"

/-- The outcome of an injection in a word. -/
def Injection.text : Injection → String
  | injected => "Injected"
  | illegal => "Illegal"
  | failed => "Failed"

def ModuleId.text (m : ModuleId) : String := "module 0x" ++ Hex.lower 1 m.toNat

namespace LogEvent

/-- How much an event matters. -/
def level : LogEvent → LogLevel
  | nestDefined .. | helperInstalled .. => .info
  | nestRefused .. | assembliesRefused .. | leftUninstrumented .. | offsetMapRefused .. => .warn
  | sequencePointsOf .. | sequencePoint .. | branchPointsOf .. | branchPoint ..
  | listingBefore .. | listingAfter .. => .trace
  | _ => .debug

/-- The name of an offset with upper-case digits, as the dump of points has it. -/
private def upperLabel (offset : Nat) : String := "IL_" ++ Hex.upper 4 offset

def text : LogEvent → String
  | sequencePointUnknown id offset =>
    "Sequence point " ++ toString id.toNat ++ " at " ++ Hex.label offset
      ++ " does not start an instruction, skipped"
  | branchPointUnknown offset =>
    "Branch point at " ++ Hex.label offset ++ " does not start an instruction, skipped"
  | branchPointWithoutEdges offset mnemonic =>
    "Branch point at " ++ Hex.label offset ++ " names " ++ mnemonic
      ++ ", which has no edges to cover"
  | branchPointAtEnd offset =>
    "Branch at " ++ Hex.label offset ++ " has no fall-through instruction, skipped"
  | nestDefined module safe critical =>
    "Cuckoo helpers defined in " ++ ModuleId.text module ++ ": " ++ Helper.safe.method ++ " "
      ++ safe.text ++ ", " ++ Helper.critical.method ++ " " ++ critical.text
  | nestRefused module fault => ModuleId.text module ++ ": " ++ fault.display
  | assembliesRefused module fault =>
    ModuleId.text module ++ ": recording assembly metadata failed: " ++ fault.display
  | typeInjected module outcome =>
    ModuleId.text module ++ ": injected type implementation " ++ outcome.text
  | leftUninstrumented module method fault =>
    "method " ++ method.text ++ " in " ++ ModuleId.text module ++ " left uninstrumented: "
      ++ fault.display
  | noSequencePoints method => "method " ++ method.text ++ " has no sequence points"
  | alreadyInstrumented method => "method " ++ method.text ++ " already instrumented"
  | offsetMapRefused method fault =>
    "method " ++ method.text ++ ": offset map rejected: " ++ fault.display
  | helperInstalled helper method =>
    helper.text ++ " cuckoo body installed for " ++ method.text
  | sequencePointsOf method => method.text ++ " sequence points:"
  | sequencePoint p => upperLabel p.offset ++ " " ++ toString p.id.toNat
  | branchPointsOf method => method.text ++ " branch points:"
  | branchPoint p =>
    upperLabel p.offset ++ " (" ++ toString p.path ++ ") " ++ toString p.id.toNat
  | listingBefore method listing => method.text ++ " before instrumentation:\n" ++ listing
  | listingAfter method listing => method.text ++ " after instrumentation:\n" ++ listing

end LogEvent

/-- A computation that may fail and that notes events on its way. -/
abbrev Logged (α : Type) : Type := ExceptT Fault (StateM (List LogEvent)) α

namespace Logged

/-- Notes an event behind those noted before. -/
def note (e : LogEvent) : Logged Unit := modify (· ++ [e])

/-- The outcome of a computation and the events it noted. -/
def runOn {α : Type} (l : Logged α) : Except Fault α × List LogEvent := l.run.run []

end Logged

end CilProbes
