import CilProbes.Bytes.LittleEndian
import CilProbes.Token
import CilProbes.Instruction

/-! # Exception clauses

A clause protects a region of code by a handler. A body stores it as offsets and lengths
(`Clause`), in one of two formats; an editable method names the instructions at the
boundaries (`Handler`), so that inserted code does not move them.

* `ClauseFlags.text`: the flags by name, unknown bits last.
* `ClauseFormat.select`: the narrow format where it is allowed and every field fits.
* `Handler.boundaries`, `Handler.retarget`: every boundary a handler names, and its replacement.
-/

namespace CilProbes

/-- The kind of a clause. -/
structure ClauseFlags where
  /-- The bits; no bit stands for a typed clause. -/
  bits : UInt16
deriving DecidableEq, Repr, Inhabited

namespace ClauseFlags

/-- The bit of a clause whose handler a filter block selects. -/
def filterBit : UInt16 := 1

/-- The bit of a handler that always runs. -/
def finallyBit : UInt16 := 2

/-- The bit of a handler that runs only when an exception passes. -/
def faultBit : UInt16 := 4

/-- The bits with a meaning. -/
def knownBits : UInt16 := 7

/-- Drops the bits without a meaning. -/
def masked (f : ClauseFlags) : ClauseFlags := ⟨f.bits &&& knownBits⟩

/-- Whether this is a filter clause. -/
def isFilter (f : ClauseFlags) : Bool := f.bits &&& filterBit != 0

/-- The names of the bits that are set, then the unknown rest in hexadecimal. -/
def names (f : ClauseFlags) : List String :=
  let named := [(filterBit, "FILTER"), (finallyBit, "FINALLY"), (faultBit, "FAULT")].filterMap
    fun (bit, name) => if f.bits &&& bit = 0 then none else some name
  let rest := f.bits &&& ~~~knownBits
  if rest = 0 then named else named ++ ["0x" ++ Hex.lower 1 rest.toNat]

def text (f : ClauseFlags) : String :=
  let inner := if f.names.isEmpty then "0x0" else " | ".intercalate f.names
  "ExceptionHandlerFlags(" ++ inner ++ ")"

end ClauseFlags

/-- A clause as a body stores it. -/
structure Clause where
  flags : ClauseFlags
  /-- Where the protected region starts. -/
  tryOffset : UInt32
  tryLength : UInt32
  /-- Where the handler starts. -/
  handlerOffset : UInt32
  handlerLength : UInt32
  /-- Where the filter block starts, or the token of the type that is caught. -/
  filterOrType : UInt32
deriving DecidableEq, Repr

namespace Clause

/-- Whether the narrow format can hold the clause. -/
def fitsSmall (c : Clause) : Bool :=
  c.tryOffset ≤ 0xFFFF && c.tryLength ≤ 0xFF && c.handlerOffset ≤ 0xFFFF && c.handlerLength ≤ 0xFF

def text (c : Clause) : String :=
  "RawClause \x7b flags: " ++ c.flags.text
    ++ ", try_offset: " ++ toString c.tryOffset.toNat
    ++ ", try_length: " ++ toString c.tryLength.toNat
    ++ ", handler_offset: " ++ toString c.handlerOffset.toNat
    ++ ", handler_length: " ++ toString c.handlerLength.toNat
    ++ ", class_token_or_filter: " ++ toString c.filterOrType.toNat ++ " \x7d"

end Clause

/-- The two encodings of a clause. -/
inductive ClauseFormat where
  /-- Twelve bytes, with 16-bit offsets and 8-bit lengths. -/
  | small
  /-- Twenty-four bytes, with 32-bit fields. -/
  | fat
deriving DecidableEq, Repr

namespace ClauseFormat

/-- The size of a section header in bytes. -/
def headerSize : Nat := 4

def text : ClauseFormat → String
  | small => "Small"
  | fat => "Fat"

def clauseSize : ClauseFormat → Nat
  | small => 12
  | fat => 24

/-- The greatest section size that the header can state. -/
def limit : ClauseFormat → Nat
  | small => 0xFF
  | fat => 0xFFFFFF

/-- The size of a section of `count` clauses, its header included. -/
def dataSize (format : ClauseFormat) (count : Nat) : Nat := headerSize + count * format.clauseSize

/-- **The narrow format** when it is allowed, every clause fits it and so does the section. -/
def select (clauses : List Clause) (compact : Bool) : ClauseFormat :=
  if compact && clauses.all (·.fitsSmall) && small.dataSize clauses.length ≤ small.limit
  then small else fat

end ClauseFormat

/-- A clause of an editable method. An end is the first instruction behind the region;
without one the region runs to the end of the code. -/
structure Handler where
  flags : ClauseFlags
  /-- The first protected instruction. -/
  tryStart : InstrId
  tryEnd : Option InstrId
  /-- The first instruction of the handler. -/
  handlerStart : InstrId
  handlerEnd : Option InstrId
  /-- The first instruction of the filter block of a filter clause. -/
  filterStart : Option InstrId
  /-- The type that a typed clause catches. -/
  classToken : Token
deriving DecidableEq, Repr

namespace Handler

variable (h : Handler)

/-- Whether this is a filter clause. -/
def isFilter : Bool := h.flags.isFilter

/-- Every instruction that the handler names. -/
def boundaries : List InstrId :=
  [some h.tryStart, h.tryEnd, some h.handlerStart, h.handlerEnd, h.filterStart].filterMap id

def mapBoundaries (f : InstrId → InstrId) : Handler :=
  { h with
    tryStart := f h.tryStart
    tryEnd := h.tryEnd.map f
    handlerStart := f h.handlerStart
    handlerEnd := h.handlerEnd.map f
    filterStart := h.filterStart.map f }

/-- Replaces the boundary `old` by `new`. -/
def retarget (old new : InstrId) : Handler :=
  h.mapBoundaries fun b => if b = old then new else b

end Handler

end CilProbes
