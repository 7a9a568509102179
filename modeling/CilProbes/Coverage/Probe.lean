import CilProbes.Coverage.Points
import CilProbes.Instruction

/-! # Probes

A probe is a short run of instructions that reports a number and leaves the evaluation stack as
it found it. It reaches the recorder either by an indirect call of a native function, or by an
ordinary call of a helper method.

* `ProbeDispatch.probe`: the instructions of a probe.
* `ProbeDispatch.stackDepth`: the stack slots a probe needs while it runs.
-/

namespace CilProbes

/-- The width of native pointers in the instrumented process. -/
inductive PointerWidth where
  | bits32
  | bits64
deriving DecidableEq, Repr

/-- What a probe passes on. -/
inductive ProbeArity where
  | id
  /-- The number and both halves of a correlation id. -/
  | idWithContext
deriving DecidableEq, Repr

/-- How a session reaches its recorder. -/
inductive ProbeMode where
  /-- By indirect calls of the native recorder. -/
  | direct
  /-- By calls of a helper planted in the system library. -/
  | cuckoo
deriving DecidableEq, Repr

/-- How a probe reaches the recorder from one module. -/
inductive ProbeDispatch where
  /-- An indirect call of the function at an address, with a signature of the module. -/
  | direct (function : UInt64) (signature : Token) (width : PointerWidth)
  /-- A call of the safe helper through a member reference of the module. -/
  | trampoline (safe : Token)
deriving DecidableEq, Repr

/-- Loads a native pointer as a constant of its width. -/
def loadPointer (address : UInt64) : PointerWidth → Instruction
  | .bits64 => .loadInt64 address.toInt64
  | .bits32 => .loadInt32 address.toUInt32.toInt32

namespace ProbeDispatch

/-- Everything a probe does after loading its number. -/
def callSequence : ProbeDispatch → List Instruction
  | direct function signature width =>
    [loadPointer function width, .withToken .calli signature]
  | trampoline safe => [.withToken .call safe]

/-- **The instructions of a probe.** What they push the call consumes. -/
def probe (d : ProbeDispatch) (id : ProbeId) : List Instruction :=
  .loadInt32 id.toInt32 :: d.callSequence

/-- The stack slots that a probe needs. -/
def stackDepth : ProbeDispatch → UInt16
  | direct _ _ _ => 2
  | trampoline _ => 1

end ProbeDispatch

end CilProbes
