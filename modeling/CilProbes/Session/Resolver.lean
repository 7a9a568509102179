import CilProbes.Session.Dialogue
import CilProbes.Table

/-! # Probe targets

A probe calls through a token of the module it stands in: the signature of an indirect call, or a
reference to the safe helper. The token is asked for until it is first given and kept from then
on; a refusal is not kept.

* `Resolver.tokenOf`: the question for one module.
* `Resolver.dispatchFor`: how probes of a module reach the recorder.
-/

namespace CilProbes

/-- How the probes of a session reach the recorder. -/
inductive Route where
  /-- By indirect calls of the function at an address. -/
  | direct (function : UInt64) (width : PointerWidth)
  /-- By calls of the safe helper. -/
  | trampoline
deriving DecidableEq, Repr

/-- The probe targets found so far. -/
structure Resolver where
  /-- How probes reach the recorder. -/
  route : Route
  /-- The token of every module that has one. -/
  tokens : Table ModuleId Token
deriving DecidableEq, Repr

namespace Route

/-- The question for the token of a module. -/
def tokenOf (r : Route) (module : ModuleId) : Talk Token :=
  match r with
  | direct _ _ => Talk.demand (.request (.probeSignature module .id))
  | trampoline => Talk.demand (.request (.safeProbeToken module))

/-- The dispatch that calls through a token. -/
def dispatch (r : Route) (token : Token) : ProbeDispatch :=
  match r with
  | direct function width => .direct function token width
  | trampoline => .trampoline token

end Route

namespace Resolver

def new (route : Route) : Resolver := ⟨route, .empty⟩

/-- **How probes of a module reach the recorder**, and the resolver that knows it. -/
def dispatchFor (r : Resolver) (module : ModuleId) :
    Dialogue (Except Fault ProbeDispatch × Resolver) :=
  match r.tokens.find? module with
  | some token => .done (.ok (r.route.dispatch token), r)
  | none =>
    (r.route.tokenOf module).run.bind fun
      | .ok token =>
        .done (.ok (r.route.dispatch token), { r with tokens := r.tokens.insert module token })
      | .error fault => .done (.error fault, r)

end Resolver

end CilProbes
