import CilProbes.Exception.Clause
import CilProbes.Header

/-! # Methods

An editable method is a stock of instructions together with the order in which they run.
Branches and handlers name instructions by their place in the stock, which never changes, so code
can be inserted anywhere without a reference going stale.

* `push`: appends an instruction.
* `position?`, `next?`, `findOrigin?`, `sequenceFrom`: look-ups in the order.
* `ofInstructions`: a body written by hand.
* `offsetMap`: where the instructions of the decoded body went.
-/

namespace CilProbes

/-- An editable method. -/
structure Method where
  stock : Array Instruction
  /-- The ids in the order in which the instructions run. -/
  order : List InstrId
  maxStack : UInt16
  /-- The signature of the locals, if there are any. -/
  locals : Option Token
  /-- Whether the locals are zeroed on entry. -/
  zeroLocals : Bool
  /-- The exception clauses, innermost first. -/
  handlers : List Handler
deriving DecidableEq, Repr

/-- The offsets of one instruction before and after new code went in. -/
structure OffsetPair where
  /-- The offset in the decoded body. -/
  before : Nat
  /-- The offset in the encoded body. -/
  after : Nat
deriving DecidableEq, Repr

namespace Method

/-- The method without instructions, with the stack depth of a tiny header. -/
def empty : Method := ⟨#[], [], Header.tinyMaxStack, none, false, []⟩

instance : Inhabited Method := ⟨empty⟩

variable (m : Method)

def push (i : Instruction) : Method :=
  { m with stock := m.stock.push i, order := m.order ++ [m.stock.size] }

/-- The id that the next new instruction gets. -/
def nextId : InstrId := m.stock.size

/-- A body written by hand. The nil token counts as no locals, and locals are zeroed. -/
def ofInstructions (code : List Instruction) (locals : Option Token) (minStack : UInt16) :
    Method :=
  let locals := locals.bind Token.nonNull?
  { stock := code.toArray
    order := List.range code.length
    maxStack := max minStack Header.tinyMaxStack
    locals
    zeroLocals := locals.isSome
    handlers := [] }

/-- The number of instructions in the order. -/
def size : Nat := m.order.length

/-- Whether there is none. -/
def isEmpty : Bool := m.order.isEmpty

def instruction? (id : InstrId) : Option Instruction := m.stock[id]?

/-- Puts an instruction in place of the one with an id, if there is one. -/
def setInstruction (id : InstrId) (i : Instruction) : Method :=
  { m with stock := m.stock.setIfInBounds id i }

/-- The instructions in the order in which they run, with their ids. -/
def sequence : List (InstrId × Instruction) :=
  m.order.filterMap fun id => (m.stock[id]?).map fun i => (id, i)

/-- The place of an instruction in the order. -/
def position? (id : InstrId) : Option Nat := m.order.idxOf? id

/-- The instruction at a place in the order. -/
def idAt? (position : Nat) : Option InstrId := m.order[position]?

/-- The first instruction. -/
def first? : Option InstrId := m.order.head?

/-- The instruction that runs after another one when that falls through. -/
def next? (id : InstrId) : Option InstrId := (m.position? id).bind fun p => m.idAt? (p + 1)

/-- The first instruction that was decoded at an offset. Inserted code has no such offset. -/
def findOrigin? (offset : Nat) : Option InstrId :=
  m.order.find? fun id => (m.stock[id]?).any fun i => i.origin == some offset

/-- The instructions from one on; none from an unknown one. -/
def sequenceFrom (id : InstrId) : List Instruction :=
  ((m.order.dropWhile (· != id)).filterMap fun j => m.stock[j]?)

/-- Raises the declared stack depth, which ends at what sixteen bits hold. -/
def increaseMaxStack (depth : UInt16) : Method :=
  { m with maxStack := UInt16.ofNat (min (m.maxStack.toNat + depth.toNat) 0xFFFF) }

/-- Replaces a boundary of every handler. -/
def retargetHandlers (old new : InstrId) : Method :=
  { m with handlers := m.handlers.map (·.retarget old new) }

/-- The offset of an instruction; zero for an unknown one. -/
def offsetOf (id : InstrId) : Nat := (m.stock[id]?.map (·.offset)).getD 0

/-- **Where the instructions of the decoded body went.** -/
def offsetMap : List OffsetPair :=
  m.sequence.filterMap fun (_, i) => i.origin.map fun origin => ⟨origin, i.offset⟩

end Method

end CilProbes
