import CilProbes.Method

/-! # Listings

A method in text: a line for the header, one for each instruction and one for each handler, every
line closed by a line feed. Instructions go by the offsets of the last encoding.

* `Instruction.operandText`: an operand behind its mnemonic.
* `Method.listing`: the whole method.
-/

namespace CilProbes

/-- The text of an operand, led by a blank. Small integers are decimal, constants of four and
eight bytes hexadecimal in two's complement. -/
def Operand.text (labelOf : InstrId → String) : Operand InstrId → String
  | .none => ""
  | .int8 v => " " ++ toString v.toInt
  | .uint8 v => " " ++ toString v.toNat
  | .uint16 v => " " ++ toString v.toNat
  | .int32 v => " 0x" ++ Hex.upper 1 v.toUInt32.toNat
  | .int64 v => " 0x" ++ Hex.upper 1 v.toUInt64.toNat
  | .float32 v => " " ++ v.text
  | .float64 v => " " ++ v.text
  | .token t => " " ++ t.text
  | .target t => " " ++ labelOf t
  | .switch ts => " (" ++ ", ".intercalate (ts.map labelOf) ++ ")"

namespace Method

variable (m : Method)

/-- The offset of an instruction as a label. -/
def labelOf (id : InstrId) : String := Hex.label (m.offsetOf id)

def headerLine : String :=
  let locals := match m.locals with
    | some token => " .locals " ++ token.text ++ (if m.zeroLocals then " init" else "")
    | none => ""
  ".maxstack " ++ toString m.maxStack.toNat ++ locals ++ "\n"

def instructionLine (i : Instruction) : String :=
  Hex.label i.offset ++ ": " ++ i.mnemonic ++ i.operand.text m.labelOf ++ "\n"

def handlerLine (h : Handler) : String :=
  ".try " ++ m.labelOf h.tryStart ++ " to " ++ (h.tryEnd.elim "end" m.labelOf)
    ++ " handler " ++ m.labelOf h.handlerStart ++ " (" ++ h.flags.text ++ ")\n"

/-- **The method in text.** -/
def listing : String :=
  String.join
    (m.headerLine :: m.sequence.map (fun (_, i) => m.instructionLine i)
      ++ m.handlers.map m.handlerLine)

end Method

end CilProbes
