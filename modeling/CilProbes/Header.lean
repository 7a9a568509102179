import CilProbes.Bytes.Buffer
import CilProbes.Fault

/-! # Method headers

A body starts with a header that states the size of the code. The tiny header is one byte and
implies a stack of eight slots and nothing else; the fat header has twelve bytes for stack depth,
code size, locals signature and flags.

* `Header.read`: the header at the start of a body.
* `Header.forBody`: the tiny header wherever it loses nothing.
* `Header.fields`, `Header.write`: the fields in order, and their writing into a buffer.
-/

namespace CilProbes

/-- The header of a body. -/
structure Header where
  flags : UInt16
  maxStack : UInt16
  codeSize : UInt32
  /-- The signature of the locals, or the nil token. -/
  locals : Token
  size : Nat
deriving DecidableEq, Repr

namespace Header

/-- The flags of a tiny header. -/
def tinyFormat : UInt16 := 2

def fatFormat : UInt16 := 3

/-- Sections follow the code. -/
def moreSections : UInt16 := 8

/-- The locals are zeroed on entry. -/
def initLocals : UInt16 := 0x10

/-- The flag bits with a meaning. -/
def knownFlags : UInt16 := 0x1B

/-- The stack depth that a tiny header implies. -/
def tinyMaxStack : UInt16 := 8

/-- The greatest code size of a tiny header. -/
def tinyCodeSize : UInt32 := 0x3F

def fatSize : Nat := 12

/-- Whether this is the header of one byte. -/
def isTiny (h : Header) : Bool := h.size == 1

/-- Whether the header announces sections behind the code. -/
def hasSections (h : Header) : Bool := h.flags &&& moreSections != 0

/-- Whether the header asks for zeroed locals. -/
def zeroesLocals (h : Header) : Bool := h.flags &&& initLocals != 0

/-- A tiny header. -/
def tiny (codeSize : UInt32) (maxStack : UInt16) : Header :=
  ⟨tinyFormat, maxStack, codeSize, .null, 1⟩

/-- The fat header made of twelve bytes: three words of two, two and four bytes and a token. -/
def ofFatBytes (bs : Bytes) : Except Fault Header :=
  let lead : UInt16 := FixedWidth.ofBytes (bs.take 2)
  let dwords := (lead >>> 12).toNat
  if dwords < 3 then .error (.decode (.fatHeaderSize dwords))
  else .ok
    { flags := lead &&& knownFlags
      maxStack := FixedWidth.ofBytes ((bs.drop 2).take 2)
      codeSize := FixedWidth.ofBytes ((bs.drop 4).take 4)
      locals := FixedWidth.ofBytes ((bs.drop 8).take 4)
      size := dwords * 4 }

/-- **The header at the start of a body.** The low two bits of the first byte tell the formats
apart. -/
def read : Bytes → Except Fault Header
  | [] => .error (.decode .emptyBody)
  | first :: rest =>
    if first &&& 3 = 2 then .ok (tiny (first >>> 2).toUInt32 tinyMaxStack)
    else if first &&& 3 = 3 then
      let bs := (first :: rest).take fatSize
      if bs.length < fatSize then .error (.decode .shortFatHeader) else ofFatBytes bs
    else .error (.decode (.unknownHeader first))

/-- **The header for a body**: tiny when there is nothing that only a fat one can state. A locals
signature asks for zeroed locals. -/
def forBody (maxStack : UInt16) (codeSize : UInt32) (locals : Option Token)
    (zeroLocals sections : Bool) : Header :=
  let zeroLocals := zeroLocals || locals.isSome
  if !zeroLocals && !sections && maxStack == tinyMaxStack && codeSize ≤ tinyCodeSize then
    tiny codeSize maxStack
  else
    { flags := fatFormat ||| (if sections then moreSections else 0)
        ||| (if zeroLocals then initLocals else 0)
      maxStack, codeSize
      locals := locals.getD .null
      size := fatSize }

/-- The fields of a header, in order; a tiny one has a single field. -/
def fields (h : Header) : List Bytes :=
  if h.isTiny then [FixedWidth.toBytes ((h.codeSize.toUInt8 <<< 2) ||| 2)]
  else
    [FixedWidth.toBytes ((0x3000 : UInt16) ||| (h.flags &&& 0x0FFF)),
      FixedWidth.toBytes h.maxStack, FixedWidth.toBytes h.codeSize, FixedWidth.toBytes h.locals]

/-- The fields, unless the code is too long for a tiny header. -/
def checkedFields (h : Header) : Except Fault (List Bytes) :=
  if h.isTiny && h.codeSize > tinyCodeSize
  then .error (.encode (.tinyCodeSize h.codeSize.toNat)) else .ok h.fields

/-- Writes the header; the leading fields stay behind when the buffer ends among them. -/
def write (h : Header) (b : Buffer) : Except Fault Unit × Buffer :=
  match h.checkedFields with
  | .error fault => (.error fault, b)
  | .ok fields =>
    let (b', all) := b.putAll fields
    (if all then .ok () else .error .outOfBounds, b')

end Header

end CilProbes
