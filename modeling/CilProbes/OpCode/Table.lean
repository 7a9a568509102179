import CilProbes.OpCode.Kinds

/-! # The opcode table

For every assigned opcode its mnemonic, the encoding of its operand and its effect on control
flow. Codes that stand in neither table are unassigned.

* `singleTable`: the opcodes of one byte, by that byte.
* `extendedTable`: the opcodes of two bytes, by the second.
-/

namespace CilProbes

/-- What is known of an assigned opcode. -/
structure OpCodeInfo where
  mnemonic : String
  /-- How the operand is encoded. -/
  operand : OperandKind
  /-- How the instruction affects control flow. -/
  flow : Flow
deriving DecidableEq, Repr

namespace OpCodeInfo

private def entry (mnemonic : String) (operand : OperandKind) (flow : Flow) : Option OpCodeInfo :=
  some ⟨mnemonic, operand, flow⟩

private def plain (mnemonic : String) : Option OpCodeInfo := entry mnemonic .none .sequential

private def withToken (mnemonic : String) : Option OpCodeInfo := entry mnemonic .token .sequential

def singleTable : Array (Option OpCodeInfo) :=
  #[
    -- 0x00
    plain "nop", plain "break", plain "ldarg.0", plain "ldarg.1", plain "ldarg.2",
    plain "ldarg.3", plain "ldloc.0", plain "ldloc.1", plain "ldloc.2", plain "ldloc.3",
    plain "stloc.0", plain "stloc.1", plain "stloc.2", plain "stloc.3",
    entry "ldarg.s" .uint8 .sequential, entry "ldarga.s" .uint8 .sequential,
    -- 0x10
    entry "starg.s" .uint8 .sequential, entry "ldloc.s" .uint8 .sequential,
    entry "ldloca.s" .uint8 .sequential, entry "stloc.s" .uint8 .sequential, plain "ldnull",
    plain "ldc.i4.m1", plain "ldc.i4.0", plain "ldc.i4.1", plain "ldc.i4.2", plain "ldc.i4.3",
    plain "ldc.i4.4", plain "ldc.i4.5", plain "ldc.i4.6", plain "ldc.i4.7", plain "ldc.i4.8",
    entry "ldc.i4.s" .int8 .sequential,
    -- 0x20
    entry "ldc.i4" .int32 .sequential, entry "ldc.i8" .int64 .sequential,
    entry "ldc.r4" .float32 .sequential, entry "ldc.r8" .float64 .sequential, none, plain "dup",
    plain "pop", entry "jmp" .token .ret, entry "call" .token .call, entry "calli" .token .call,
    entry "ret" .none .ret, entry "br.s" .shortBranch .unconditional,
    entry "brfalse.s" .shortBranch .conditional, entry "brtrue.s" .shortBranch .conditional,
    entry "beq.s" .shortBranch .conditional, entry "bge.s" .shortBranch .conditional,
    -- 0x30
    entry "bgt.s" .shortBranch .conditional, entry "ble.s" .shortBranch .conditional,
    entry "blt.s" .shortBranch .conditional, entry "bne.un.s" .shortBranch .conditional,
    entry "bge.un.s" .shortBranch .conditional, entry "bgt.un.s" .shortBranch .conditional,
    entry "ble.un.s" .shortBranch .conditional, entry "blt.un.s" .shortBranch .conditional,
    entry "br" .branch .unconditional, entry "brfalse" .branch .conditional,
    entry "brtrue" .branch .conditional, entry "beq" .branch .conditional,
    entry "bge" .branch .conditional, entry "bgt" .branch .conditional,
    entry "ble" .branch .conditional, entry "blt" .branch .conditional,
    -- 0x40
    entry "bne.un" .branch .conditional, entry "bge.un" .branch .conditional,
    entry "bgt.un" .branch .conditional, entry "ble.un" .branch .conditional,
    entry "blt.un" .branch .conditional, entry "switch" .switch .switch, plain "ldind.i1",
    plain "ldind.u1", plain "ldind.i2", plain "ldind.u2", plain "ldind.i4", plain "ldind.u4",
    plain "ldind.i8", plain "ldind.i", plain "ldind.r4", plain "ldind.r8",
    -- 0x50
    plain "ldind.ref", plain "stind.ref", plain "stind.i1", plain "stind.i2", plain "stind.i4",
    plain "stind.i8", plain "stind.r4", plain "stind.r8", plain "add", plain "sub", plain "mul",
    plain "div", plain "div.un", plain "rem", plain "rem.un", plain "and",
    -- 0x60
    plain "or", plain "xor", plain "shl", plain "shr", plain "shr.un", plain "neg", plain "not",
    plain "conv.i1", plain "conv.i2", plain "conv.i4", plain "conv.i8", plain "conv.r4",
    plain "conv.r8", plain "conv.u4", plain "conv.u8", entry "callvirt" .token .call,
    -- 0x70
    withToken "cpobj", withToken "ldobj", withToken "ldstr", entry "newobj" .token .call,
    withToken "castclass", withToken "isinst", plain "conv.r.un", none, none, withToken "unbox",
    entry "throw" .none .throw, withToken "ldfld", withToken "ldflda", withToken "stfld",
    withToken "ldsfld", withToken "ldsflda",
    -- 0x80
    withToken "stsfld", withToken "stobj", plain "conv.ovf.i1.un", plain "conv.ovf.i2.un",
    plain "conv.ovf.i4.un", plain "conv.ovf.i8.un", plain "conv.ovf.u1.un",
    plain "conv.ovf.u2.un", plain "conv.ovf.u4.un", plain "conv.ovf.u8.un", plain "conv.ovf.i.un",
    plain "conv.ovf.u.un", withToken "box", withToken "newarr", plain "ldlen",
    withToken "ldelema",
    -- 0x90
    plain "ldelem.i1", plain "ldelem.u1", plain "ldelem.i2", plain "ldelem.u2", plain "ldelem.i4",
    plain "ldelem.u4", plain "ldelem.i8", plain "ldelem.i", plain "ldelem.r4", plain "ldelem.r8",
    plain "ldelem.ref", plain "stelem.i", plain "stelem.i1", plain "stelem.i2", plain "stelem.i4",
    plain "stelem.i8",
    -- 0xA0
    plain "stelem.r4", plain "stelem.r8", plain "stelem.ref", withToken "ldelem",
    withToken "stelem", withToken "unbox.any", none, none, none, none, none, none, none, none,
    none, none,
    -- 0xB0
    none, none, none, plain "conv.ovf.i1", plain "conv.ovf.u1", plain "conv.ovf.i2",
    plain "conv.ovf.u2", plain "conv.ovf.i4", plain "conv.ovf.u4", plain "conv.ovf.i8",
    plain "conv.ovf.u8", none, none, none, none, none,
    -- 0xC0
    none, none, withToken "refanyval", plain "ckfinite", none, none, withToken "mkrefany", none,
    none, none, none, none, none, none, none, none,
    -- 0xD0
    withToken "ldtoken", plain "conv.u2", plain "conv.u1", plain "conv.i", plain "conv.ovf.i",
    plain "conv.ovf.u", plain "add.ovf", plain "add.ovf.un", plain "mul.ovf", plain "mul.ovf.un",
    plain "sub.ovf", plain "sub.ovf.un", entry "endfinally" .none .endFinally,
    entry "leave" .branch .leave, entry "leave.s" .shortBranch .leave, plain "stind.i",
    -- 0xE0
    plain "conv.u", none, none, none, none, none, none, none, none, none, none, none, none, none,
    none, none,
    -- 0xF0
    none, none, none, none, none, none, none, none, none, none, none, none, none, none, none, none]

/-- The opcodes of two bytes, by the second byte. -/
def extendedTable : Array (Option OpCodeInfo) :=
  #[
    -- 0x00
    plain "arglist", plain "ceq", plain "cgt", plain "cgt.un", plain "clt", plain "clt.un",
    withToken "ldftn", withToken "ldvirtftn", none, entry "ldarg" .uint16 .sequential,
    entry "ldarga" .uint16 .sequential, entry "starg" .uint16 .sequential,
    entry "ldloc" .uint16 .sequential, entry "ldloca" .uint16 .sequential,
    entry "stloc" .uint16 .sequential, plain "localloc",
    -- 0x10
    none, entry "endfilter" .none .endFilter, entry "unaligned." .uint8 .modifier,
    entry "volatile." .none .modifier, entry "tail." .none .modifier, withToken "initobj",
    entry "constrained." .token .modifier, plain "cpblk", plain "initblk",
    entry "no." .uint8 .modifier, entry "rethrow" .none .throw, none, withToken "sizeof",
    plain "refanytype", entry "readonly." .none .modifier]

end OpCodeInfo

end CilProbes
