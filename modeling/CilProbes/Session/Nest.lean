import CilProbes.Session.Dialogue

/-! # The nest

Code that must not call native functions reaches the recorder through a pair of helper methods.
They are planted once, in the system library, on a type of its own. Instrumented code calls the
safe helper with a number; that one adds the correlation id, or zeros, and calls the critical
helper, which calls the recorder.

* `Nest.plant`: defines the pair, unless it is there.
* `Nest.helper?`: which helper a method is.
* `Nest.criticalMethod`, `Nest.safeMethod`: the bodies of the pair.
-/

namespace CilProbes

/-- The helper pair where it was planted. -/
structure Planted where
  module : ModuleId
  helpers : HelperTokens
  /-- The signature with which the recorder is called. -/
  signature : Token
deriving DecidableEq, Repr

/-- The helper pair of a session. -/
structure Nest where
  /-- The address of the recorder that takes a correlation id. -/
  recorder : UInt64
  width : PointerWidth
  /-- The pair, once it is planted. -/
  planted : Option Planted
deriving DecidableEq, Repr

/-- The names of the assemblies that may hold the pair. -/
def systemAssemblies : List String := ["mscorlib", "System.Private.CoreLib"]

/-- Whether an assembly may hold the pair. -/
def isSystemAssembly (name : String) : Bool := systemAssemblies.contains name

namespace Nest

/-- The type that holds the pair. -/
def holder : String := "System.CannotUnloadAppDomainException"

/-- The nest of a session before the pair is planted. -/
def new (recorder : UInt64) (width : PointerWidth) : Nest := ⟨recorder, width, none⟩

/-- A step of the planting; its refusal is the reason why the step failed. -/
def step {α : Type} (name : String) (d : Dialogue (Except String α)) : Talk α :=
  ExceptT.adapt (.trampolineStep name) (Talk.demand d)

variable (n : Nest)

/-- **Plants the pair in a module**, unless it is planted already. The answer tells whether it
was. -/
def plant (module : ModuleId) : Talk (Bool × Nest) := do
  if n.planted.isSome then return (false, n)
  let helpers ← step (holder ++ " helpers") (.request (.defineHelpers module))
  let signature ← step (Helper.critical.method ++ " signature")
    (.request (.probeSignature module .idWithContext))
  Talk.tell (.nestDefined module helpers.safe helpers.critical)
  pure (true, { n with planted := some ⟨module, helpers, signature⟩ })

/-- **Which helper a method is**, if it is one. -/
def helper? (key : MethodKey) : Option Helper :=
  n.planted.bind fun p =>
    if key.module ≠ p.module then none
    else if key.token = p.helpers.critical then some .critical
    else if key.token = p.helpers.safe then some .safe
    else none

def pair : Except Fault Planted :=
  match n.planted with
  | some p => .ok p
  | none => .error .nestUndefined

/-- **The body of the critical helper.** It passes its three arguments on to the recorder. -/
def criticalMethod : Except Fault Method :=
  n.pair.map fun p =>
    .ofInstructions
      [.simple .ldarg0, .simple .ldarg1, .simple .ldarg2, loadPointer n.recorder n.width,
        .withToken .calli p.signature, .simple .ret]
      none 0

/-- Code that loads the two halves of the correlation id behind the number; zeros without a way to
get at it. -/
def loadArguments : Option CorrelationContext → List Instruction
  | none =>
    [.simple .ldarg0, .simple .ldcI4Zero, .simple .convU8, .simple .ldcI4Zero, .simple .convU8]
  | some c =>
    [.withToken .call c.current, .simple .stloc0, .simple .ldarg0, .simple .ldloc0,
      .withToken .ldfld c.high, .simple .ldloc0, .withToken .ldfld c.low]

/-- **The body of the safe helper.** -/
def safeMethod (context : Option CorrelationContext) : Except Fault Method :=
  n.pair.map fun p =>
    .ofInstructions
      (loadArguments context ++ [.withToken .call p.helpers.critical, .simple .ret])
      (context.map (·.locals)) 0

end Nest

end CilProbes
