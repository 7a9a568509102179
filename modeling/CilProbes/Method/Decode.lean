import CilProbes.Exception.Section
import CilProbes.Instruction.Coded
import CilProbes.Locator
import CilProbes.Method

/-! # Decoding

Decoding turns a body into a method. The code is cut into instructions first; then every
displacement is resolved to the instruction it leads to, and every clause to the instructions at
its boundaries. Of several faults the one met first on this way is reported.

* `Method.resolve`: an instruction with its targets looked up.
* `Method.handlerOf`: a clause with its boundaries looked up.
* `Method.decode`: the whole body.
-/

namespace CilProbes.Method

/-- The instruction that a branch at `offset` leads to. -/
def resolveTarget (places : Locator) (offset : Nat) (dest : Int) : Except Fault InstrId :=
  match if dest < 0 then none else places.find? dest.toNat with
  | some id => .ok id
  | none => .error (.decode (.branchTarget offset dest))

/-- An instruction with its targets looked up. -/
def resolve (places : Locator) (p : Placed) : Except Fault Instruction := do
  let operand ← p.coded.operand.mapM fun d => resolveTarget places p.offset (p.next + d)
  pure ⟨p.coded.opcode, operand, some p.offset, p.offset⟩

/-- The instruction at the start of a region. -/
def boundaryAt (places : Locator) (offset : Nat) : Except Fault InstrId :=
  match places.find? offset with
  | some id => .ok id
  | none => .error (.decode (.clauseBoundary offset))

/-- The instruction at the end of a region, if the region ends before the code does. -/
def boundaryAfter (places : Locator) (codeSize offset length : Nat) :
    Except Fault (Option InstrId) :=
  if UInt32.size ≤ offset + length then .error (.decode (.clauseOverflow offset length))
  else if offset + length = codeSize then .ok none
  else (boundaryAt places (offset + length)).map some

/-- A clause with its boundaries looked up. -/
def handlerOf (places : Locator) (codeSize : Nat) (c : Clause) : Except Fault Handler := do
  let tryStart ← boundaryAt places c.tryOffset.toNat
  let tryEnd ← boundaryAfter places codeSize c.tryOffset.toNat c.tryLength.toNat
  let handlerStart ← boundaryAt places c.handlerOffset.toNat
  let handlerEnd ← boundaryAfter places codeSize c.handlerOffset.toNat c.handlerLength.toNat
  if c.flags.isFilter then
    let filterStart ← boundaryAt places c.filterOrType.toNat
    pure ⟨c.flags, tryStart, tryEnd, handlerStart, handlerEnd, some filterStart, .null⟩
  else
    pure ⟨c.flags, tryStart, tryEnd, handlerStart, handlerEnd, none, ⟨c.filterOrType⟩⟩

/-- The clauses behind the code of a body. -/
def clausesOf (header : Header) (body : Bytes) : Except Fault (List Clause) :=
  if header.hasSections then
    Reader.runOn
      (do
        Reader.move (·.seek? (header.size + header.codeSize.toNat)) .outOfBounds
        Section.readChain)
      body
  else .ok []

/-- **Decodes a body.** -/
def decode (body : Bytes) : Except Fault Method := do
  let header ← Header.read body
  let codeSize := header.codeSize.toNat
  if body.length < header.size + codeSize then
    throw (.decode (.codeOverrun codeSize (body.length - header.size)))
  let placed ← (Reader.whileMore Coded.read).runOn ((body.drop header.size).take codeSize)
  let places := Locator.ofKeys codeSize (placed.map (·.offset))
  let code ← placed.mapM (resolve places)
  let clauses ← clausesOf header body
  let handlers ← clauses.mapM (handlerOf places codeSize)
  pure
    { stock := code.toArray
      order := List.range code.length
      maxStack := header.maxStack
      locals := header.locals.nonNull?
      zeroLocals := header.zeroesLocals
      handlers }

end CilProbes.Method
