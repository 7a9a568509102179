import CilProbes.Bytes.Buffer
import CilProbes.Bytes.Reader

/-! # Exception sections

Behind the code of a body stands a chain of sections, each on a multiple of four bytes and each
announcing whether another follows. Exception sections hold clauses in one of two formats; other
sections are skipped.

* `Section.readChain`: the clauses of every section of a chain, in order.
* `Section.fields`: the fields of a section that holds a list of clauses.
* `Section.write`: writes them, up to the first that does not fit.
-/

namespace CilProbes.Section

def alignment : Nat := 4

/-- The kind bit of exception sections. -/
def exceptionBit : UInt8 := 0x01

/-- The kind bit of sections in the wide format. -/
def fatBit : UInt8 := 0x40

/-- The kind bit that announces another section. -/
def moreBit : UInt8 := 0x80

/-! ## Reading -/

def readClause (format : ClauseFormat) : Reader Clause := do
  let fault := Fault.decode (.truncatedClause format)
  match format with
  | .small =>
    let flags ← Reader.field UInt16 fault
    let tryOffset ← Reader.field UInt16 fault
    let tryLength ← Reader.field UInt8 fault
    let handlerOffset ← Reader.field UInt16 fault
    let handlerLength ← Reader.field UInt8 fault
    let filterOrType ← Reader.field UInt32 fault
    pure
      { flags := ClauseFlags.masked ⟨flags⟩
        tryOffset := tryOffset.toUInt32
        tryLength := tryLength.toUInt32
        handlerOffset := handlerOffset.toUInt32
        handlerLength := handlerLength.toUInt32
        filterOrType }
  | .fat =>
    let flags ← Reader.field UInt32 fault
    let tryOffset ← Reader.field UInt32 fault
    let tryLength ← Reader.field UInt32 fault
    let handlerOffset ← Reader.field UInt32 fault
    let handlerLength ← Reader.field UInt32 fault
    let filterOrType ← Reader.field UInt32 fault
    pure
      { flags := ClauseFlags.masked ⟨flags.toUInt16⟩
        tryOffset, tryLength, handlerOffset, handlerLength, filterOrType }

/-- Reads `count` clauses in front of those already read, which stand in reverse. -/
def readClauses (format : ClauseFormat) : (count : Nat) → (done : List Clause) →
    Reader (List Clause)
  | 0, done => pure done
  | count + 1, done => do
    let clause ← readClause format
    readClauses format count (clause :: done)

/-- Reads the size that a section header states: three bytes in the wide format, otherwise one
byte and two reserved ones. -/
def readSize (format : ClauseFormat) : Reader Nat := do
  match format with
  | .fat =>
    let bytes ← Reader.fields UInt8 (.decode .sectionHeader) 3
    pure (LittleEndian.decode bytes)
  | .small =>
    let size ← Reader.field UInt8 (.decode .sectionHeader)
    Reader.move (·.advance? 2) (.decode .smallSectionHeader)
    pure size.toNat

/-- Reads a section: the clauses so far, in reverse, and whether another section follows. -/
def readOne (done : List Clause) : Reader (List Clause × Bool) := do
  Reader.move (·.align? alignment) (.decode .sectionAlignment)
  let kind ← Reader.field UInt8 (.decode .sectionMissing)
  let format := if kind &&& fatBit = 0 then ClauseFormat.small else .fat
  let size ← readSize format
  if size < ClauseFormat.headerSize then throw (.decode (.sectionTooSmall size))
  let payload := size - ClauseFormat.headerSize
  let remaining ← Reader.look Cursor.remaining
  if remaining < payload then
    throw (.decode (.sectionOverrun size (remaining + ClauseFormat.headerSize)))
  let more := kind &&& moreBit != 0
  if kind &&& exceptionBit = 0 then
    Reader.move (·.advance? payload) .outOfBounds
    pure (done, more)
  else if payload % format.clauseSize = 0 then
    pure (← readClauses format (payload / format.clauseSize) done, more)
  else
    throw (.decode (.sectionPayload format payload))

/-- Reads section after section. Each takes four bytes or more, so a chain that is tried once
for every byte has run out of them. -/
def readUpTo : (tries : Nat) → (done : List Clause) → Reader (List Clause)
  | 0, _ => throw (.decode .sectionMissing)
  | tries + 1, done => do
    let (done, more) ← readOne done
    if more then readUpTo tries done else pure done.reverse

/-- **The clauses of the chain of sections ahead**, in order. -/
def readChain : Reader (List Clause) := do
  readUpTo ((← Reader.look Cursor.remaining) + 1) []

/-! ## Writing -/

def clauseFields (format : ClauseFormat) (c : Clause) : List Bytes :=
  match format with
  | .small =>
    [FixedWidth.toBytes c.flags.bits, FixedWidth.toBytes c.tryOffset.toUInt16,
      FixedWidth.toBytes c.tryLength.toUInt8, FixedWidth.toBytes c.handlerOffset.toUInt16,
      FixedWidth.toBytes c.handlerLength.toUInt8, FixedWidth.toBytes c.filterOrType]
  | .fat =>
    [FixedWidth.toBytes c.flags.bits.toUInt32, FixedWidth.toBytes c.tryOffset,
      FixedWidth.toBytes c.tryLength, FixedWidth.toBytes c.handlerOffset,
      FixedWidth.toBytes c.handlerLength, FixedWidth.toBytes c.filterOrType]

/-- The fields of a section header. The wide size is written byte by byte. -/
def headerFields (format : ClauseFormat) (size : Nat) : List Bytes :=
  match format with
  | .small => [[exceptionBit], [UInt8.ofNat size], [0, 0]]
  | .fat => [exceptionBit ||| fatBit] :: (LittleEndian.encode 3 size).map fun b => [b]

def fields (format : ClauseFormat) (clauses : List Clause) : List Bytes :=
  headerFields format (format.dataSize clauses.length) ++ clauses.flatMap (clauseFields format)

def bytes (format : ClauseFormat) (clauses : List Clause) : Bytes := (fields format clauses).flatten

/-- Whether a format can hold a clause. -/
def holds (format : ClauseFormat) (c : Clause) : Bool := format == .fat || c.fitsSmall

/-- Whether the header can state the size of the section. -/
def sizeFault? (format : ClauseFormat) (clauses : List Clause) : Option Fault :=
  if format.limit < format.dataSize clauses.length
  then some (.encode (.sectionTooLarge clauses.length format)) else none

/-- **Writes a section.** The fields before a fault stay behind: those of the clauses before one
that is too wide, or those before the end of the buffer. -/
def write (format : ClauseFormat) (clauses : List Clause) (b : Buffer) :
    Except Fault Unit × Buffer :=
  match sizeFault? format clauses with
  | some fault => (.error fault, b)
  | none =>
    let (fit, rest) := clauses.span (holds format)
    let (b', all) := b.putAll
      (headerFields format (format.dataSize clauses.length) ++ fit.flatMap (clauseFields format))
    if all then
      match rest with
      | [] => (.ok (), b')
      | c :: _ => (.error (.encode (.clauseTooWide c)), b')
    else (.error .outOfBounds, b')

end CilProbes.Section
