import CilProbes.Layout.Relax
import CilProbes.Method.Validity

/-! # Layouts

A layout gives every instruction of a method its place in the code to be written: the opcode, in
the form that its displacement needs, and the offset.

* `Method.layout`: the layout of a valid method.
* `Layout.offsetOf?`, `Layout.endOf?`: the offset of an instruction, and that of the end of a
  region.
-/

namespace CilProbes

/-- An instruction with its final opcode and offset. -/
structure Layout.Row where
  id : InstrId
  /-- The instruction, with the opcode it came with. -/
  instruction : Instruction
  /-- The opcode to write. -/
  opcode : OpCode
  offset : Nat
deriving DecidableEq, Repr

/-- The places of the instructions of a method. -/
structure Layout where
  /-- The instructions in the order of the code. -/
  rows : List Layout.Row
  codeSize : Nat
  places : Locator
  offsets : Array Nat

namespace Layout

/-- The offset behind a row. -/
def Row.next (r : Row) : Nat := r.offset + r.instruction.sizeWith r.opcode

def offsetOf? (l : Layout) (id : InstrId) : Option Nat :=
  (l.places.find? id).bind fun place => l.offsets[place]?

/-- The offset of the end of a region; without an instruction there, the end of the code. -/
def endOf? (l : Layout) (stop : Option InstrId) : Option Nat :=
  match stop with
  | some id => l.offsetOf? id
  | none => some l.codeSize

/-- How relaxation sees an instruction: a branch opcode with a target may be short or long, and
everything else has its size. -/
def pieceOf (places : Locator) (i : Instruction) : Relax.Piece :=
  match i.operand with
  | .target t =>
    if i.opcode.isShortBranch || i.opcode.isLongBranch
    then .branch ((places.find? t).getD 0) else .fixed i.size
  | _ => .fixed i.size

/-- The opcode of an instruction in the form of its slot. -/
def opcodeOf (i : Instruction) (s : Relax.Slot) : OpCode :=
  match s.piece with
  | .fixed _ => i.opcode
  | .branch _ => if s.long then i.opcode.longForm else i.opcode.shortForm

end Layout

/-- **The layout of a method.** The method must be valid, and its code must not exceed what a
branch can span. -/
def Method.layout (m : Method) : Except Fault Layout := do
  m.validate
  let places := m.places
  let sequence := m.sequence
  match Relax.solve (sequence.map fun (_, i) => Layout.pieceOf places i) with
  | .error size => throw (.encode (.codeSize size))
  | .ok slots =>
    let (offsets, codeSize) := Relax.place slots
    let rows := (sequence.zip (slots.zip offsets.toList)).map fun ((id, i), s, offset) =>
      ⟨id, i, Layout.opcodeOf i s, offset⟩
    pure { rows, codeSize, places, offsets }

end CilProbes
