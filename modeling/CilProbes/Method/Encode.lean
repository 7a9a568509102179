import CilProbes.Exception.Section
import CilProbes.Instruction.Coded
import CilProbes.Layout

/-! # Encoding

Encoding turns a method into a body: header, code and, when there are handlers, padding to a
multiple of four bytes and one exception section. The form of every branch and the offset of every
instruction are written back into the method.

* `Layout.code`: the bytes of the code.
* `Draft`: everything that the body is made of; `Draft.size` is its length.
* `Method.bodySize`, `Method.encodeInto`, `Method.encode`: the length of the body, its writing
  into a buffer and its bytes.
-/

namespace CilProbes

namespace Layout

/-- Whether the displacements of a row take one byte. -/
def Row.isShort (r : Row) : Bool :=
  r.opcode.isShortBranch && r.instruction.operand matches .target _

/-- The displacement of a target from the end of an instruction; it has to fit one byte or four. -/
def displacement (l : Layout) (next : Nat) (short : Bool) (dest : InstrId) : Except Fault Int :=
  match l.offsetOf? dest with
  | none => .error (.relocation (.targetNotPlaced dest))
  | some offset =>
    let d : Int := (offset : Int) - next
    if (if short then Relax.reachesShort d else Relax.reachesLong d)
    then .ok d else .error (.encode (.displacement d))

def coded (l : Layout) (r : Row) : Except Fault Coded :=
  (r.instruction.operand.mapM (l.displacement r.next r.isShort)).map fun operand =>
    ⟨r.opcode, operand⟩

def code (l : Layout) : Except Fault Bytes :=
  (l.rows.mapM l.coded).map fun cs => cs.flatMap (·.bytes)

/-- The offset and the length of a region, which must not be empty. -/
def region (l : Layout) (start : InstrId) (stop : Option InstrId) :
    Except Fault (Nat × Nat) :=
  match l.offsetOf? start, l.endOf? stop with
  | some s, some e =>
    if s < e then .ok (s, e - s) else .error (.relocation (.regionNotPlaced start))
  | _, _ => .error (.relocation (.regionNotPlaced start))

/-- The last field of a clause: the offset of the filter block of a filter clause, otherwise the
type that is caught. -/
def filterOrType (l : Layout) (h : Handler) : Except Fault UInt32 :=
  match h.filterStart with
  | some f =>
    if h.isFilter then
      match l.offsetOf? f with
      | some offset => .ok (UInt32.ofNat offset)
      | none => .error (.relocation (.filterNotPlaced f))
    else .ok h.classToken.value
  | none => .ok h.classToken.value

def clause (l : Layout) (h : Handler) : Except Fault Clause := do
  let (tryOffset, tryLength) ← l.region h.tryStart h.tryEnd
  let (handlerOffset, handlerLength) ← l.region h.handlerStart h.handlerEnd
  let filterOrType ← l.filterOrType h
  pure
    { flags := h.flags
      tryOffset := UInt32.ofNat tryOffset
      tryLength := UInt32.ofNat tryLength
      handlerOffset := UInt32.ofNat handlerOffset
      handlerLength := UInt32.ofNat handlerLength
      filterOrType }

end Layout

/-- What a body is made of. -/
structure Draft where
  layout : Layout
  /-- The clauses, in order. -/
  clauses : List Clause
  header : Header

namespace Draft

/-- The format of the exception section. -/
def format (d : Draft) (compact : Bool) : ClauseFormat := ClauseFormat.select d.clauses compact

def codeEnd (d : Draft) : Nat := d.header.size + d.layout.codeSize

/-- The zeros between code and exception section. -/
def padding (d : Draft) : Nat := Cursor.padding Section.alignment d.codeEnd

/-- **The length of the body.** -/
def size (d : Draft) (compact : Bool) : Nat :=
  if d.clauses.isEmpty then d.codeEnd
  else d.codeEnd + d.padding + (d.format compact).dataSize d.clauses.length

def front (d : Draft) : Except Fault Bytes := do
  let header ← d.header.checkedFields
  let code ← d.layout.code
  let padding := if d.clauses.isEmpty then [] else List.replicate d.padding 0
  pure (header.flatten ++ code ++ padding)

end Draft

namespace Method

def draft (m : Method) : Except Fault Draft := do
  let layout ← m.layout
  let clauses ← m.handlers.mapM layout.clause
  let header := Header.forBody m.maxStack (UInt32.ofNat layout.codeSize) m.locals m.zeroLocals
    (!clauses.isEmpty)
  pure ⟨layout, clauses, header⟩

/-- The length of the body that the method encodes to. -/
def bodySize (compact : Bool) (m : Method) : Except Fault Nat :=
  m.draft.map (·.size compact)

/-- The method with the opcodes and offsets of a layout. -/
def place (m : Method) (l : Layout) : Method :=
  { m with
    stock := l.rows.foldl
      (fun stock r => stock.modify r.id fun i => { i with opcode := r.opcode, offset := r.offset })
      m.stock }

/-- **Writes the body to the start of a buffer.** The answer is the length of the body and the
method with its final offsets, or a fault; beside it stands the buffer. A fault leaves the method
alone, and also the buffer, except that header and code have gone in when the exception section
turns out to be too large. -/
def encodeInto (compact : Bool) (m : Method) (buffer : Bytes) :
    Except Fault (Nat × Method) × Bytes :=
  match m.draft with
  | .error fault => (.error fault, buffer)
  | .ok d =>
    if buffer.length < d.size compact then
      (.error (.encode (.bufferTooShort (d.size compact) buffer.length)), buffer)
    else
      match d.front with
      | .error fault => (.error fault, buffer)
      | .ok front =>
        if d.clauses.isEmpty then
          (.ok (front.length, m.place d.layout), Buffer.overwrite buffer 0 front)
        else
          match Section.sizeFault? (d.format compact) d.clauses with
          | some fault => (.error fault, Buffer.overwrite buffer 0 front)
          | none =>
            let body := front ++ Section.bytes (d.format compact) d.clauses
            (.ok (body.length, m.place d.layout), Buffer.overwrite buffer 0 body)

/-- **The bytes of the body**, and the method with its final offsets. -/
def encode (compact : Bool) (m : Method) : Except Fault (Bytes × Method) := do
  let size ← m.bodySize compact
  let (result, buffer) := m.encodeInto compact (List.replicate size 0)
  let (written, m') ← result
  pure (buffer.take written, m')

end Method

end CilProbes
