import CilProbes.Assembly.Reference
import CilProbes.Log
import CilProbes.Method

/-! # Requests

A session never touches the outside world itself. It asks collaborators: the host that owns the
method bodies, the supplier of points, the layer that defines metadata and the layer that injects
types. A request states what it asks, and its type of answers follows from it.

* `Request`: everything that a session asks for.
* `Request.Answer`: the answers to a request; a refusal is a text.
-/

namespace CilProbes

/-- The number by which the host knows an instance of a function. -/
abbrev FunctionId := UInt64

/-- A method of a module. -/
structure MethodKey where
  module : ModuleId
  /-- The definition in the module. -/
  token : Token
deriving DecidableEq, Repr

/-- What became of the request to declare an injected type. -/
inductive Registration where
  | registered
  /-- The type does not concern the module. -/
  | notApplicable
  | failed
deriving DecidableEq, Repr

/-- The definitions of the helper pair. -/
structure HelperTokens where
  /-- The helper that calls the native recorder. -/
  critical : Token
  safe : Token
deriving DecidableEq, Repr

/-- How to get at the ambient correlation id. -/
structure CorrelationContext where
  /-- The method that returns the current context. -/
  current : Token
  /-- The field with the high half. -/
  high : Token
  /-- The field with the low half. -/
  low : Token
  /-- The signature of locals with one context. -/
  locals : Token
deriving DecidableEq, Repr

/-- What a session asks of its collaborators. -/
inductive Request where
  | methodBody (key : MethodKey)
  | allocateBody (module : ModuleId) (size : Nat)
  | setMethodBody (key : MethodKey) (body : Bytes)
  /-- That the host take note of where instructions went. -/
  | setOffsetMap (function : FunctionId) (map : List OffsetPair)
  | assemblyName (module : ModuleId)
  | moduleAssemblies (module : ModuleId)
  | points (key : MethodKey)
  /-- That injected types be declared in a module. -/
  | registerType (module : ModuleId)
  /-- That the bodies of injected types be emitted. -/
  | injectType (module : ModuleId)
  | safeProbeToken (module : ModuleId)
  /-- How a module gets at the correlation id. -/
  | correlationContext (module : ModuleId)
  /-- That the helper pair be defined in a module. -/
  | defineHelpers (module : ModuleId)
  /-- The signature of a probe in a module. -/
  | probeSignature (module : ModuleId) (arity : ProbeArity)
deriving DecidableEq, Repr

/-- The answers to a request. -/
@[reducible] def Request.Answer : Request → Type
  | methodBody _ => Except String Bytes
  | allocateBody _ _ => Except String Bytes
  | setMethodBody _ _ => Except String Unit
  | setOffsetMap _ _ => Except String Unit
  | assemblyName _ => Except String String
  | moduleAssemblies _ => Except String ModuleAssemblies
  | points _ => Except String Points
  | registerType _ => Registration
  | injectType _ => Injection
  | safeProbeToken _ => Except String Token
  | correlationContext _ => Option CorrelationContext
  | defineHelpers _ => Except String HelperTokens
  | probeSignature _ _ => Except String Token

end CilProbes
