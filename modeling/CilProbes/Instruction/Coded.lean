import CilProbes.Bytes.Reader

/-! # Coded instructions

In a body an instruction is a run of bytes, and a branch states how far its target lies from the
end of the instruction. This module reads and writes that form.

* `Coded.bytes`: opcode and operand, one after the other.
* `Coded.read`: the instruction ahead; the opcode table says how its operand is encoded.
* `length_operandBytes`: an operand takes as many bytes as its size says.
-/

namespace CilProbes

/-- An instruction as a body holds it: its targets are displacements. -/
structure Coded where
  opcode : OpCode
  /-- The operand, with displacements from the end of the instruction. -/
  operand : Operand Int
deriving DecidableEq, Repr

/-- A coded instruction and where it stands. -/
structure Placed where
  /-- The offset of its first byte. -/
  offset : Nat
  /-- The offset behind its last byte. -/
  next : Nat
  coded : Coded
deriving DecidableEq, Repr

namespace Coded

def operandBytes (short : Bool) : Operand Int → Bytes
  | .none => []
  | .int8 v => FixedWidth.toBytes v
  | .uint8 v => FixedWidth.toBytes v
  | .uint16 v => FixedWidth.toBytes v
  | .int32 v => FixedWidth.toBytes v
  | .int64 v => FixedWidth.toBytes v
  | .float32 v => FixedWidth.toBytes v
  | .float64 v => FixedWidth.toBytes v
  | .token v => FixedWidth.toBytes v
  | .target d =>
    if short then FixedWidth.toBytes (Int8.ofInt d) else FixedWidth.toBytes (Int32.ofInt d)
  | .switch ds =>
    FixedWidth.toBytes (UInt32.ofNat ds.length)
      ++ ds.flatMap fun d => FixedWidth.toBytes (Int32.ofInt d)

def bytes (c : Coded) : Bytes := c.opcode.bytes ++ operandBytes c.opcode.isShortBranch c.operand

/-- **An operand takes as many bytes as its size says.** -/
theorem length_operandBytes (short : Bool) (o : Operand Int) :
    (operandBytes short o).length = o.size short := by
  cases o with
  | target d => cases short <;> simp [operandBytes, Operand.size] <;> rfl
  | switch ds =>
    have h : ∀ ds : List Int,
        (ds.flatMap fun d => FixedWidth.toBytes (Int32.ofInt d)).length = 4 * ds.length := by
      intro ds
      induction ds with
      | nil => rfl
      | cons d ds ih =>
        simp only [List.flatMap_cons, List.length_append, ih, FixedWidth.length_toBytes,
          List.length_cons]
        simp only [FixedWidth.width]
        omega
    simp only [operandBytes, Operand.size, List.length_append, h, FixedWidth.length_toBytes]
    simp only [FixedWidth.width]
  | _ => simp [operandBytes, Operand.size] <;> rfl

theorem length_bytes (c : Coded) :
    c.bytes.length = c.opcode.size + c.operand.size c.opcode.isShortBranch := by
  rw [bytes, List.length_append, OpCode.length_bytes, length_operandBytes]

def readOperand (fault : Fault) : OperandKind → Reader (Operand Int)
  | .none => pure .none
  | .int8 => .int8 <$> Reader.field Int8 fault
  | .uint8 => .uint8 <$> Reader.field UInt8 fault
  | .uint16 => .uint16 <$> Reader.field UInt16 fault
  | .int32 => .int32 <$> Reader.field Int32 fault
  | .int64 => .int64 <$> Reader.field Int64 fault
  | .float32 => .float32 <$> Reader.field Binary32 fault
  | .float64 => .float64 <$> Reader.field Binary64 fault
  | .token => .token <$> Reader.field Token fault
  | .shortBranch => (fun d => .target d.toInt) <$> Reader.field Int8 fault
  | .branch => (fun d => .target d.toInt) <$> Reader.field Int32 fault
  | .switch => do
    let count ← Reader.field UInt32 fault
    if (← Reader.look Cursor.remaining) < count.toNat * 4 then throw fault
    let table ← Reader.fields Int32 fault count.toNat
    pure (.switch (table.map Int32.toInt))

/-- Reads an opcode, of which the escape byte announces a second byte. -/
def readOpCode (offset : Nat) : Reader OpCode := do
  let first ← Reader.field UInt8 .outOfBounds
  if first = OpCode.escape then
    .extended <$> Reader.field UInt8 (.decode (.truncatedOpCode offset))
  else
    pure (.single first)

def read : Reader Placed := do
  let offset ← Reader.look Cursor.pos
  let op ← readOpCode offset
  match op.info? with
  | none => throw (.decode (.unassignedOpCode op offset))
  | some info =>
    let operand ← readOperand (.decode (.truncatedOperand op offset)) info.operand
    pure ⟨offset, ← Reader.look Cursor.pos, ⟨op, operand⟩⟩

end Coded

end CilProbes
