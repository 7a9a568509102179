/-! # Operand encodings and control flow

The two classifications by which the opcode table describes an opcode.

* `OperandKind`: what follows the opcode in the body.
* `Flow`: where control goes; `Flow.isTerminal` when it never falls through.
-/

namespace CilProbes

/-- The encoding of the operand behind an opcode. -/
inductive OperandKind where
  | none
  | int8
  | uint8
  | uint16
  | int32
  | int64
  | float32
  | float64
  | token
  | shortBranch
  | branch
  /-- A count and that many displacements of four bytes. -/
  | switch
deriving DecidableEq, Repr

/-- The effect of an instruction on control flow. -/
inductive Flow where
  | sequential
  /-- Jumps to its target or goes on. -/
  | conditional
  /-- Jumps to its target. -/
  | unconditional
  | call
  | ret
  /-- Jumps to one of several targets or goes on. -/
  | switch
  | throw
  | endFinally
  | endFilter
  /-- Leaves a protected region for its target. -/
  | leave
  /-- Modifies the instruction behind it. -/
  | modifier
deriving DecidableEq, Repr

/-- Whether control never falls through to the next instruction. -/
def Flow.isTerminal : Flow → Bool
  | unconditional | ret | throw | endFinally | endFilter | leave => true
  | sequential | conditional | call | switch | modifier => false

end CilProbes
