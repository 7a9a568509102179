import CilProbes.Binary
import CilProbes.OpCode
import CilProbes.Token

/-! # Instructions

An instruction is an opcode with an operand. In an editable method a branch holds the ids of
its targets, so it keeps its meaning while code is inserted around it; on its way to or from a
body it holds displacements. `Operand` is therefore a type in its targets.

* `Operand.targets`, `Operand.map`: the targets in operand order, and their replacement.
* `Instruction.size`: the bytes the instruction takes with its current opcode.
* `Instruction.sameAs`: equal opcode and operand, with constants compared as numbers.
-/

namespace CilProbes

/-- The handle of an instruction within its method: its place in the order of allocation. -/
abbrev InstrId := Nat

def InstrId.text (id : InstrId) : String := "#" ++ toString id

/-- An operand whose targets are of type `τ`. -/
inductive Operand (τ : Type) where
  | none
  | int8 (value : Int8)
  | uint8 (value : UInt8)
  | uint16 (value : UInt16)
  | int32 (value : Int32)
  | int64 (value : Int64)
  | float32 (value : Binary32)
  | float64 (value : Binary64)
  | token (value : Token)
  | target (dest : τ)
  | switch (dests : List τ)
deriving DecidableEq, Repr, Inhabited

namespace Operand

variable {τ σ : Type}

def map (f : τ → σ) : Operand τ → Operand σ
  | none => none
  | int8 v => int8 v
  | uint8 v => uint8 v
  | uint16 v => uint16 v
  | int32 v => int32 v
  | int64 v => int64 v
  | float32 v => float32 v
  | float64 v => float64 v
  | token v => token v
  | target t => target (f t)
  | switch ts => switch (ts.map f)

/-- Replaces every target by one that may not exist; the first fault in operand order wins. -/
def mapM {ε : Type} (f : τ → Except ε σ) : Operand τ → Except ε (Operand σ)
  | none => .ok none
  | int8 v => .ok (int8 v)
  | uint8 v => .ok (uint8 v)
  | uint16 v => .ok (uint16 v)
  | int32 v => .ok (int32 v)
  | int64 v => .ok (int64 v)
  | float32 v => .ok (float32 v)
  | float64 v => .ok (float64 v)
  | token v => .ok (token v)
  | target t => (f t).map target
  | switch ts => (ts.mapM f).map switch

/-- The targets, in operand order. -/
def targets : Operand τ → List τ
  | target t => [t]
  | switch ts => ts
  | _ => []

/-- Whether the operand holds targets, be it an empty table of them. -/
def isBranch : Operand τ → Bool
  | target _ | switch _ => true
  | _ => false

/-- The bytes of an operand; a single target takes one byte or four. -/
def size (short : Bool) : Operand τ → Nat
  | none => 0
  | int8 _ | uint8 _ => 1
  | uint16 _ => 2
  | int32 _ | float32 _ | token _ => 4
  | int64 _ | float64 _ => 8
  | target _ => if short then 1 else 4
  | switch ts => 4 + 4 * ts.length

/-- Equality with floating-point constants compared as numbers. -/
def sameAs [DecidableEq τ] : Operand τ → Operand τ → Bool
  | float32 a, float32 b => a.same b
  | float64 a, float64 b => a.same b
  | a, b => a == b

@[simp] theorem targets_map (f : τ → σ) (o : Operand τ) : (o.map f).targets = o.targets.map f := by
  cases o <;> rfl

@[simp] theorem size_map (f : τ → σ) (short : Bool) (o : Operand τ) :
    (o.map f).size short = o.size short := by
  cases o <;> simp [map, size]

end Operand

/-- An instruction of an editable method. -/
structure Instruction where
  /-- The opcode; encoding picks the form of a branch anew. -/
  opcode : OpCode
  operand : Operand InstrId
  /-- The offset in the body the instruction was decoded from; none for inserted code. -/
  origin : Option Nat
  /-- The offset that the last encoding gave it. -/
  offset : Nat
deriving DecidableEq, Repr, Inhabited

namespace Instruction

/-- Code that stood in no body yet. -/
def fresh (opcode : OpCode) (operand : Operand InstrId) : Instruction :=
  ⟨opcode, operand, none, 0⟩

/-- An instruction without operand. -/
def simple (opcode : OpCode) : Instruction := fresh opcode .none

def branch (opcode : OpCode) (dest : InstrId) : Instruction := fresh opcode (.target dest)

def withToken (opcode : OpCode) (token : Token) : Instruction := fresh opcode (.token token)

def loadInt32 (value : Int32) : Instruction := fresh .ldcI4 (.int32 value)

def loadInt64 (value : Int64) : Instruction := fresh .ldcI8 (.int64 value)

variable (i : Instruction)

def mnemonic : String := i.opcode.mnemonic

def flow : Flow := i.opcode.flow

/-- Whether the operand holds targets. -/
def isBranch : Bool := i.operand.isBranch

/-- The instructions this one may jump to. -/
def targets : List InstrId := i.operand.targets

/-- The bytes the instruction takes with an opcode put in place of its own. -/
def sizeWith (opcode : OpCode) : Nat := opcode.size + i.operand.size opcode.isShortBranch

def size : Nat := i.sizeWith i.opcode

/-- Equal opcode and operand; offsets do not count. -/
def sameAs (j : Instruction) : Bool := i.opcode == j.opcode && i.operand.sameAs j.operand

def mapTargets (f : InstrId → InstrId) : Instruction := { i with operand := i.operand.map f }

/-- Replaces the target `old` by `new`. -/
def retarget (old new : InstrId) : Instruction :=
  i.mapTargets fun t => if t = old then new else t

end Instruction

end CilProbes
