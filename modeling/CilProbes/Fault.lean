import CilProbes.Exception.Clause

/-! # Faults

Everything that can go wrong, by cause. None of it is fatal to a session: a method that meets a
fault keeps its body.

* `Fault.kind`: the family of a fault.
* `Fault.message`: its text, without the family.
* `Fault.display`: family and text.
-/

namespace CilProbes

/-- Why a body cannot be decoded. -/
inductive DecodeFault where
  /-- There is no byte at all. -/
  | emptyBody
  /-- A fat header is cut off. -/
  | shortFatHeader
  /-- A fat header states a size below its own. -/
  | fatHeaderSize (dwords : Nat)
  /-- The first byte starts no header. -/
  | unknownHeader (byte : UInt8)
  /-- The header states more code than there is. -/
  | codeOverrun (declared available : Nat)
  /-- The code ends after the first byte of a longer opcode. -/
  | truncatedOpCode (offset : Nat)
  /-- The opcode is not assigned. -/
  | unassignedOpCode (op : OpCode) (offset : Nat)
  | truncatedOperand (op : OpCode) (offset : Nat)
  /-- A branch leads to no instruction. -/
  | branchTarget (offset : Nat) (dest : Int)
  /-- A clause starts or ends at no instruction. -/
  | clauseBoundary (offset : Nat)
  /-- A clause ends beyond 32 bits. -/
  | clauseOverflow (offset length : Nat)
  /-- The padding before a section is cut off. -/
  | sectionAlignment
  /-- An announced section is missing. -/
  | sectionMissing
  /-- The size in a section header is cut off. -/
  | sectionHeader
  /-- The reserved bytes of a small section header are cut off. -/
  | smallSectionHeader
  /-- A section states a size below that of its header. -/
  | sectionTooSmall (size : Nat)
  /-- A section states more bytes than there are. -/
  | sectionOverrun (size available : Nat)
  /-- The clauses of a section do not come out even. -/
  | sectionPayload (format : ClauseFormat) (payload : Nat)
  /-- A clause is cut off. -/
  | truncatedClause (format : ClauseFormat)
deriving DecidableEq, Repr

/-- Why a method cannot be encoded. -/
inductive EncodeFault where
  | codeSize (size : Nat)
  | bufferTooShort (size room : Nat)
  /-- The code is too long for a tiny header. -/
  | tinyCodeSize (size : Nat)
  /-- The clauses need more bytes than a section header can state. -/
  | sectionTooLarge (count : Nat) (format : ClauseFormat)
  | clauseTooWide (clause : Clause)
  /-- A branch does not reach its target. -/
  | displacement (value : Int)
deriving DecidableEq, Repr

/-- Which reference of a method leads nowhere. -/
inductive RelocationFault where
  /-- Code cannot be inserted next to an unknown instruction. -/
  | unknownAnchor (anchor : InstrId)
  | danglingTarget (mnemonic : String) (id dest : InstrId)
  | danglingBoundary (clause : Nat) (boundary : InstrId)
  /-- A region ends where it starts, or before. -/
  | emptyRegion (clause : Nat)
  /-- A filter clause has no filter block. -/
  | missingFilter (clause : Nat)
  /-- A branch names an instruction without an offset. -/
  | targetNotPlaced (dest : InstrId)
  /-- A region has no extent in bytes. -/
  | regionNotPlaced (start : InstrId)
  /-- A filter block has no offset. -/
  | filterNotPlaced (start : InstrId)
deriving DecidableEq, Repr

/-- Why a setting is refused. -/
inductive SettingFault where
  /-- The value is not a number. -/
  | notANumber (value reason : String)
  /-- There is no such probe mode. -/
  | unknownMode (value : String)
deriving DecidableEq, Repr

/-- The families of faults. -/
inductive FaultKind where
  | decode
  | encode
  | relocation
  | trampoline
  | hostApi
  | config
  | outOfBounds
deriving DecidableEq, Repr

/-- A failure. -/
inductive Fault where
  | decode (cause : DecodeFault)
  /-- A method does not fit the body format. -/
  | encode (cause : EncodeFault)
  /-- A method refers to instructions that it does not hold. -/
  | relocation (cause : RelocationFault)
  /-- The helper pair could not be defined: what was attempted, and why it failed. -/
  | trampolineStep (step : String) (reason : Fault)
  /-- The helper pair was used before it was defined. -/
  | nestUndefined
  /-- A collaborator refused. -/
  | hostApi (text : String)
  | config (key : String) (cause : SettingFault)
  /-- A field lies past the end of its byte string. -/
  | outOfBounds
deriving DecidableEq, Repr

def DecodeFault.message : DecodeFault → String
  | emptyBody => "Provided data for body parsing is empty"
  | shortFatHeader => "Fat header needs 12 bytes"
  | fatHeaderSize dwords =>
    "Fat header declares " ++ toString dwords ++ " dwords, at least 3 are required"
  | unknownHeader byte => "MethodHeader is neither FAT nor TINY - " ++ toString byte.toNat
  | codeOverrun declared available =>
    "Declared code size " ++ toString declared ++ " exceeds the " ++ toString available
      ++ " bytes of the body"
  | truncatedOpCode offset => "Truncated two-byte opcode at " ++ Hex.label offset
  | unassignedOpCode op offset => "Invalid opcode " ++ op.text ++ " at " ++ Hex.label offset
  | truncatedOperand op offset =>
    "Operand of " ++ op.mnemonic ++ " at " ++ Hex.label offset ++ " runs past the end of the code"
  | branchTarget offset dest =>
    "Branch at " ++ Hex.label offset ++ " targets " ++ toString dest
      ++ ", which is not an instruction boundary"
  | clauseBoundary offset =>
    "Exception clause boundary " ++ toString offset ++ " is not an instruction boundary"
  | clauseOverflow offset length =>
    "Exception clause region " ++ toString offset ++ "+" ++ toString length ++ " overflows"
  | sectionAlignment => "Extra data section alignment runs past the body"
  | sectionMissing => "Missing extra data section header"
  | sectionHeader => "Truncated extra data section header"
  | smallSectionHeader => "Truncated small section header"
  | sectionTooSmall size =>
    "Extra data section size " ++ toString size ++ " is smaller than its header"
  | sectionOverrun size available =>
    "Extra data section of " ++ toString size ++ " bytes exceeds the " ++ toString available
      ++ " remaining bytes"
  | sectionPayload format payload =>
    format.text ++ " EH section payload of " ++ toString payload
      ++ " bytes is not a whole number of clauses"
  | truncatedClause format => "Truncated " ++ format.text ++ " exception clause"

def EncodeFault.message : EncodeFault → String
  | codeSize size =>
    "Code size " ++ toString size ++ " exceeds the branch displacement range"
  | bufferTooShort size room =>
    "Body of " ++ toString size ++ " bytes does not fit the " ++ toString room ++ " byte buffer"
  | tinyCodeSize size => "Code size " ++ toString size ++ " does not fit a tiny header"
  | sectionTooLarge count format =>
    toString count ++ " clauses need an EH section of " ++ toString (format.dataSize count)
      ++ " bytes, above the " ++ format.text ++ " limit of " ++ toString format.limit
  | clauseTooWide clause => "Clause " ++ clause.text ++ " does not fit the small format"
  | displacement value => "Branch displacement " ++ toString value

def RelocationFault.message : RelocationFault → String
  | unknownAnchor anchor =>
    "Insertion anchor " ++ InstrId.text anchor ++ " is not part of the method"
  | danglingTarget mnemonic id dest =>
    mnemonic ++ " at " ++ InstrId.text id ++ " targets " ++ InstrId.text dest
      ++ ", which is not part of the method"
  | danglingBoundary clause boundary =>
    "Exception clause " ++ toString clause ++ " references " ++ InstrId.text boundary
      ++ ", which is not part of the method"
  | emptyRegion clause =>
    "Exception clause " ++ toString clause ++ " has an empty or inverted region"
  | missingFilter clause => "Filter clause " ++ toString clause ++ " has no filter block"
  | targetNotPlaced dest => "Branch target " ++ InstrId.text dest ++ " is not laid out"
  | regionNotPlaced start =>
    "Exception region starting at " ++ InstrId.text start ++ " has no valid extent"
  | filterNotPlaced start => "Filter block " ++ InstrId.text start ++ " is not laid out"

def SettingFault.message : SettingFault → String
  | notANumber value reason => "'" ++ value ++ "' is not a number: " ++ reason
  | unknownMode value => "unknown probe mode '" ++ value ++ "'"

def FaultKind.text : FaultKind → String
  | decode => "Decode"
  | encode => "Encode"
  | relocation => "Relocation"
  | trampoline => "Trampoline"
  | hostApi => "HostApi"
  | config => "Config"
  | outOfBounds => "OutOfBounds"

namespace Fault

def kind : Fault → FaultKind
  | decode _ => .decode
  | encode _ => .encode
  | relocation _ => .relocation
  | trampolineStep _ _ | nestUndefined => .trampoline
  | hostApi _ => .hostApi
  | config _ _ => .config
  | outOfBounds => .outOfBounds

/-- What stands before the text of a fault: its family, except that the refusal to leave a byte
string has none. -/
def family : Fault → String
  | outOfBounds => ""
  | f => f.kind.text ++ " - "

/-- The text of a fault without its family. A failed step names its reason in full. -/
def message : Fault → String
  | decode cause => cause.message
  | encode cause => cause.message
  | relocation cause => cause.message
  | trampolineStep step reason =>
    "defining " ++ step ++ ": " ++ reason.family ++ reason.message
  | nestUndefined => "cuckoo helpers are not defined"
  | hostApi text => text
  | config key cause => key ++ ": " ++ cause.message
  | outOfBounds => "Out of Bound read would have occurred!"

def display (f : Fault) : String := f.family ++ f.message

end Fault

end CilProbes
