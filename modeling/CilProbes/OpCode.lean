import CilProbes.Bytes.LittleEndian
import CilProbes.OpCode.Table
import CilProbes.Text.Hex

/-! # Opcodes

An opcode is one byte, or the byte `FE` and a second one. Branches come in pairs: a short form
with a displacement of one byte and a long form with one of four.

* `info?`: the entry of the opcode table.
* `shortForm`, `longForm`: the two forms of a branch; other opcodes are their own forms.
* `length_bytes`: an opcode takes one byte or two.
-/

namespace CilProbes

/-- An opcode of one or two bytes. -/
inductive OpCode where
  | single (code : UInt8)
  /-- The byte `FE` and a second one. -/
  | extended (code : UInt8)
deriving DecidableEq, Repr, Inhabited

namespace OpCode

/-- The first byte of every opcode of two bytes. -/
def escape : UInt8 := 0xFE

/-- The byte that tells the opcodes of one length apart. -/
def code : OpCode → UInt8
  | single c | extended c => c

def bytes : OpCode → Bytes
  | single c => [c]
  | extended c => [escape, c]

def size : OpCode → Nat
  | single _ => 1
  | extended _ => 2

/-- The opcode with a lead byte, where zero stands for none. -/
def ofLead? (lead code : UInt8) : Option OpCode :=
  if lead = 0 then some (single code)
  else if lead = escape then some (extended code)
  else none

/-- What the table knows of the opcode; `none` when it is unassigned. -/
def info? : OpCode → Option OpCodeInfo
  | single c => OpCodeInfo.singleTable[c.toNat]?.join
  | extended c => OpCodeInfo.extendedTable[c.toNat]?.join

/-- The mnemonic, with a stand-in for unassigned opcodes. -/
def mnemonic (op : OpCode) : String := (op.info?.map (·.mnemonic)).getD "???"

/-- The control flow; unassigned opcodes count as sequential. -/
def flow (op : OpCode) : Flow := (op.info?.map (·.flow)).getD .sequential

/-- Upper-case hexadecimal bytes, a colon between two of them. -/
def text : OpCode → String
  | single c => Hex.upper 2 c.toNat
  | extended c => Hex.upper 2 escape.toNat ++ ":" ++ Hex.upper 2 c.toNat

@[simp] theorem length_bytes (op : OpCode) : op.bytes.length = op.size := by
  cases op <;> rfl

theorem size_pos (op : OpCode) : 0 < op.size := by
  cases op <;> simp [size]

/-! ## The two forms of a branch -/

/-- The branches with a displacement of one byte. -/
def isShortBranch : OpCode → Bool
  | single c => (0x2B ≤ c && c ≤ 0x37) || c == 0xDE
  | extended _ => false

/-- The branches with a displacement of four bytes; a switch is not among them. -/
def isLongBranch : OpCode → Bool
  | single c => (0x38 ≤ c && c ≤ 0x44) || c == 0xDD
  | extended _ => false

/-- The form with a displacement of one byte. The two leave opcodes stand in the opposite order
of the other branches. -/
def shortForm (op : OpCode) : OpCode :=
  if op.isLongBranch then
    if op.code = 0xDD then single 0xDE else single (op.code - 0x0D)
  else op

/-- The form with a displacement of four bytes. -/
def longForm (op : OpCode) : OpCode :=
  if op.isShortBranch then
    if op.code = 0xDE then single 0xDD else single (op.code + 0x0D)
  else op

/-! ## Opcodes with a name -/

def nop : OpCode := single 0x00
def ldarg0 : OpCode := single 0x02
def ldarg1 : OpCode := single 0x03
def ldarg2 : OpCode := single 0x04
def ldloc0 : OpCode := single 0x06
def stloc0 : OpCode := single 0x0A
def ldcI4Zero : OpCode := single 0x16
def ldcI4 : OpCode := single 0x20
def ldcI8 : OpCode := single 0x21
def call : OpCode := single 0x28
def calli : OpCode := single 0x29
def ret : OpCode := single 0x2A
def br : OpCode := single 0x38
def convU8 : OpCode := single 0x6E
def ldfld : OpCode := single 0x7B

end OpCode

end CilProbes
