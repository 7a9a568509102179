import CilProbes.Proofs.Writing.Reach
import Mathlib.Data.List.TakeDrop
import Mathlib.Data.List.TakeWhile

/-!
# Writing field by field

`encodeInto` puts the whole body into the buffer at once. A program writes it field by field, and
each field may find that the buffer has ended, each displacement that it does not reach, and each
clause that it is too wide.

* `Writing`: a step that writes, and either goes on or stops with a fault.
* `Method.writeInto`: the body written in such steps, and the method that is left.
* `Writing.Puts`: a step that puts bytes into a buffer with room for them.
* `Draft.puts_write`: all the steps of a draft put its body.
* `writeInto_eq`: so none of them stops, and the steps do what `encodeInto` does at once.
-/

namespace CilProbes

/-- A step that writes to a buffer; a fault leaves behind what was written before it. -/
abbrev Writing : Type := Buffer → Except Fault Unit × Buffer

namespace Writing

/-- One step behind another. -/
def andThen (w w' : Writing) : Writing := fun b =>
  match w b with
  | (.ok (), b) => w' b
  | (.error fault, b) => (.error fault, b)

/-- Steps one behind the other. -/
def all : List Writing → Writing
  | [] => fun b => (.ok (), b)
  | w :: ws => w.andThen (all ws)

/-- Writes a field, which must not lie past the end of the buffer. -/
def field (bs : Bytes) : Writing := fun b =>
  match b.put? bs with
  | some b => (.ok (), b)
  | none => (.error .outOfBounds, b)

/-- Writes a field that has to be computed first. -/
def computed : Except Fault Bytes → Writing
  | .ok bs => field bs
  | .error fault => fun b => (.error fault, b)

/-- Zeros up to a multiple of a number. -/
def pad (alignment : Nat) : Writing := fun b =>
  all (List.replicate (Cursor.padding alignment b.offset) (field [0])) b

end Writing

namespace Layout

/-- Writes the displacement of a target. -/
def writeTarget (l : Layout) (next : Nat) (short : Bool) (t : InstrId) : Writing :=
  .computed ((l.displacement next short t).map fun d =>
    if short then FixedWidth.toBytes (Int8.ofInt d) else FixedWidth.toBytes (Int32.ofInt d))

def writeOperand (l : Layout) (r : Row) : Writing :=
  match r.instruction.operand with
  | .target t => l.writeTarget r.next r.opcode.isShortBranch t
  | .switch ts => (Writing.field (FixedWidth.toBytes (UInt32.ofNat ts.length))).andThen
      (.all (ts.map (l.writeTarget r.next false)))
  | o => .field (Coded.operandBytes false (o.map fun _ => 0))

/-- Writes an instruction: its opcode byte by byte, then its operand. -/
def writeRow (l : Layout) (r : Row) : Writing :=
  (Writing.all (r.opcode.bytes.map fun byte => .field [byte])).andThen (l.writeOperand r)

end Layout

/-- Writes what stands in front of the exception section: the header, the code and the padding. -/
def Draft.writeFront (d : Draft) : Writing :=
  (Writing.andThen d.header.write (.all (d.layout.rows.map d.layout.writeRow))).andThen
    (if d.clauses.isEmpty then .all [] else .pad Section.alignment)

def Draft.write (d : Draft) (compact : Bool) : Writing :=
  d.writeFront.andThen
    (if d.clauses.isEmpty then .all [] else Section.write (d.format compact) d.clauses)

/-- **Writes the body field by field**, after a look at the size of the buffer. The method gets its
final offsets when everything is written. -/
def Method.writeInto (compact : Bool) (m : Method) (buffer : Bytes) :
    Except Fault Nat × Method × Bytes :=
  match m.draft with
  | .error fault => (.error fault, m, buffer)
  | .ok d =>
    if buffer.length < d.size compact then
      (.error (.encode (.bufferTooShort (d.size compact) buffer.length)), m, buffer)
    else
      match d.write compact ⟨buffer, 0⟩ with
      | (.error fault, b) => (.error fault, m, b.data)
      | (.ok (), b) => (.ok b.offset, m.place d.layout, b.data)

/-- **A section whose clauses the format can hold** is written up to the end of the buffer. -/
theorem Section.write_of_holds {format : ClauseFormat} {cs : List Clause} {b : Buffer}
    (size : sizeFault? format cs = none) (holds : ∀ c ∈ cs, Section.holds format c = true) :
    write format cs b = ((if (b.putAll (fields format cs)).2 then .ok () else .error .outOfBounds),
      (b.putAll (fields format cs)).1) := by
  have span : cs.span (Section.holds format) = (cs, []) := by
    rw [List.span_eq_takeWhile_dropWhile, List.takeWhile_eq_self_iff.2 holds,
      List.dropWhile_eq_nil_iff.2 holds]
  unfold write
  rw [size, span]
  simp only
  rw [← fields]
  cases (b.putAll (fields format cs)).2 <;> rfl

/-! ## Steps that put bytes -/

/-- A buffer of old bytes, of which the first are written over. -/
def Buffer.over (old done : Bytes) : Buffer := ⟨done ++ old.drop done.length, done.length⟩

namespace Writing

/-- **From offset `p` on, the step puts the bytes `bs`** into any buffer with room for them. -/
def Puts (p : Nat) (w : Writing) (bs : Bytes) : Prop := ∀ old done : Bytes, done.length = p →
  p + bs.length ≤ old.length → w (.over old done) = (.ok (), .over old (done ++ bs))

variable {p : Nat} {w w' : Writing} {bs bs' : Bytes}

theorem Puts.andThen (h : Puts p w bs) (h' : Puts (p + bs.length) w' bs') :
    Puts p (w.andThen w') (bs ++ bs') := by
  intro old done hp room
  rw [List.length_append] at room
  unfold Writing.andThen
  rw [h old done hp (by omega)]
  simp only
  rw [h' old (done ++ bs) (by rw [List.length_append, hp]) (by omega), List.append_assoc]

theorem puts_none : Puts p (all []) [] := by
  intro old done _ _
  rw [List.append_nil]
  rfl

/-- Steps that put their bytes from wherever they start, one behind the other. -/
theorem puts_all {ι : Type} {step : ι → Writing} {bytes : ι → Bytes} {is : List ι}
    (h : ∀ i ∈ is, ∀ p, Puts p (step i) (bytes i)) : Puts p (all (is.map step)) (is.flatMap bytes) := by
  induction is generalizing p with
  | nil => exact puts_none
  | cons i is ih =>
    obtain ⟨hi, his⟩ := List.forall_mem_cons.1 h
    exact (hi p).andThen (ih his)

theorem length_over (old done : Bytes) (h : done.length ≤ old.length) :
    (Buffer.over old done).data.length = old.length := by
  simp only [Buffer.over, List.length_append, List.length_drop]
  omega

/-- Bytes behind those that are done. -/
theorem over_append (old done bs : Bytes) :
    Buffer.mk (Buffer.overwrite (Buffer.over old done).data done.length bs)
      (done.length + bs.length) = .over old (done ++ bs) := by
  unfold Buffer.overwrite Buffer.over
  rw [List.take_left, List.length_append, ← List.drop_drop, List.drop_left, List.drop_drop]

theorem puts_field (p : Nat) (bs : Bytes) : Puts p (field bs) bs := by
  intro old done hp room
  have fits : done.length + bs.length ≤ (Buffer.over old done).data.length := by
    rw [length_over old done (by omega)]
    omega
  have put : (Buffer.over old done).put? bs = some (Buffer.over old (done ++ bs)) := by
    unfold Buffer.put?
    rw [if_pos (show (Buffer.over old done).offset + _ ≤ _ from fits)]
    exact congrArg some (over_append old done bs)
  unfold field
  rw [put]

/-- Byte by byte comes to the same as all at once. -/
theorem puts_bytes (p : Nat) (bs : Bytes) : Puts p (all (bs.map fun byte => field [byte])) bs := by
  have each : ∀ byte ∈ bs, ∀ p, Puts p (field [byte]) [byte] := fun byte _ p => puts_field p [byte]
  have whole : Puts p (all (bs.map fun byte => field [byte])) (bs.flatMap fun byte => [byte]) :=
    puts_all each
  rwa [List.flatMap_singleton'] at whole

theorem puts_computed {x : Except Fault Bytes} (h : x = .ok bs) : Puts p (computed x) bs := by
  rw [h]
  exact puts_field p bs

theorem puts_pad (alignment : Nat) :
    Puts p (pad alignment) (List.replicate (Cursor.padding alignment p) 0) := by
  intro old done hp room
  unfold pad
  rw [show (Buffer.over old done).offset = p from hp]
  have zeros := puts_bytes p (List.replicate (Cursor.padding alignment p) 0)
  rw [List.map_replicate] at zeros
  exact zeros old done hp room

/-- A sequence of fields at once. -/
theorem putAll_over {old done : Bytes} {fields : List Bytes}
    (room : done.length + fields.flatten.length ≤ old.length) :
    (Buffer.over old done).putAll fields = (.over old (done ++ fields.flatten), true) := by
  have len := length_over old done (by omega)
  unfold Buffer.putAll
  rw [if_pos (by rw [len]; show done.length ≤ _; omega), Buffer.fitting_eq]
  · exact congrArg (·, true) (over_append old done fields.flatten)
  · rw [len]
    show _ ≤ old.length - done.length
    omega

theorem puts_header {h : Header} {fields : List Bytes} (checked : h.checkedFields = .ok fields) :
    Puts p h.write fields.flatten := by
  intro old done hp room
  unfold Header.write
  rw [checked]
  simp only
  rw [putAll_over (by omega)]
  rfl

theorem puts_section {format : ClauseFormat} {cs : List Clause}
    (size : Section.sizeFault? format cs = none) (holds : ∀ c ∈ cs, Section.holds format c = true) :
    Puts p (Section.write format cs) (Section.bytes format cs) := by
  intro old done hp room
  rw [Section.write_of_holds size holds, putAll_over (by rw [← Section.bytes]; omega)]
  rfl

end Writing

/-! ## The steps of a body -/

namespace Layout

open Writing

section
variable {l : Layout} {r : Row} (reaches : l.Reaches r)

include reaches

theorem puts_target (p : Nat) {t : InstrId} (ht : t ∈ r.instruction.operand.targets) :
    Puts p (l.writeTarget r.next r.isShort t)
      (if r.isShort then FixedWidth.toBytes (Int8.ofInt ((l.offset t : Int) - r.next))
        else FixedWidth.toBytes (Int32.ofInt ((l.offset t : Int) - r.next))) := by
  apply puts_computed
  rw [(displacement_computes l r.next r.isShort).of_eq (reaches t ht)]
  rfl

theorem puts_operand (p : Nat) : Puts p (l.writeOperand r)
    (Coded.operandBytes r.opcode.isShortBranch (l.codedOf r).operand) := by
  have targets := fun p t => puts_target reaches p (t := t)
  unfold writeOperand codedOf
  unfold Row.isShort at targets
  cases ho : r.instruction.operand with
  | target t =>
    rw [ho] at targets
    simp only [Bool.and_true, Operand.targets, List.mem_singleton] at targets
    exact targets p t rfl
  | switch ts =>
    rw [ho] at targets
    simp only [Bool.and_false, Bool.false_eq_true, if_false, Operand.targets] at targets
    simp only [Coded.operandBytes, Operand.map, List.length_map, List.flatMap_map]
    exact (puts_field p _).andThen (puts_all fun t ht p => targets p t ht)
  | _ => exact puts_field p _

theorem puts_row (p : Nat) : Puts p (l.writeRow r) (l.codedOf r).bytes := by
  exact (puts_bytes p r.opcode.bytes).andThen (puts_operand reaches _)

end

end Layout

namespace Section

theorem length_bytes (format : ClauseFormat) (cs : List Clause) :
    (bytes format cs).length = format.dataSize cs.length := by
  have clause : ∀ c, (clauseFields format c).flatten.length = format.clauseSize := by
    intro c
    cases format <;> simp [clauseFields, ClauseFormat.clauseSize, FixedWidth.width]
  have clauses : (cs.flatMap (clauseFields format)).flatten.length = cs.length * format.clauseSize := by
    induction cs with
    | nil => simp
    | cons c cs ih =>
      rw [List.flatMap_cons, List.flatten_append, List.length_append, clause, ih, List.length_cons,
        Nat.succ_mul, Nat.add_comm]
  rw [bytes, fields, List.flatten_append, List.length_append, clauses, ClauseFormat.dataSize]
  congr 1
  cases format with
  | small => rfl
  | fat =>
    rw [headerFields, List.flatten_cons, ← List.flatMap_def, List.flatMap_singleton',
      List.length_append, LittleEndian.length_encode]
    rfl

theorem write_of_fault {format : ClauseFormat} {cs : List Clause} {fault : Fault} (b : Buffer)
    (h : sizeFault? format cs = some fault) : write format cs b = (.error fault, b) := by
  unfold write
  rw [h]

end Section

section
variable {m : Method} {d : Draft} (ordered : m.Ordered) (hd : m.draft = .ok d)

include ordered hd

theorem exists_front : ∃ front, d.front = .ok front := by
  obtain ⟨l, cs, hl, -, rfl⟩ := Method.draft_iff.1 hd
  obtain ⟨-, code, -, -, hcode, -, -⟩ := draft_of_layout ordered hl
  exact ⟨_, Method.front_iff.2 ⟨code, hcode, rfl⟩⟩

variable {front : Bytes} (hf : d.front = .ok front)

include hf

/-- **The steps up to the exception section put what stands in front of it.** -/
theorem puts_front : Writing.Puts 0 d.writeFront front := by
  obtain ⟨l, cs, hl, -, rfl⟩ := Method.draft_iff.1 hd
  obtain ⟨code, hcode, rfl⟩ := Method.front_iff.1 hf
  obtain ⟨-, rfl⟩ := (l.code_iff code).1 hcode
  have rows : ∀ r ∈ l.rows, ∀ p, Writing.Puts p (l.writeRow r) (l.codedOf r).bytes := fun r hr p =>
    Layout.puts_row (Layout.reaches_of_layout ordered hl r hr) p
  have header : Writing.Puts 0 (l.header m cs).write (l.header m cs).fields.flatten :=
    Writing.puts_header (Header.checkedFields_forBody ..)
  have length : ((l.header m cs).fields.flatten ++ l.rows.flatMap fun r => (l.codedOf r).bytes).length
      = (l.header m cs).size + l.codeSize := by
    rw [List.length_append, (Layout.lays_of_layout hl).length_code]
    exact congrArg (· + _) (Header.length_fields ..)
  refine (header.andThen (Writing.puts_all rows)).andThen ?_
  rw [length, Nat.zero_add]
  cases cs.isEmpty with
  | true => exact Writing.puts_none
  | false => exact Writing.puts_pad _

omit ordered in
theorem length_front (compact : Bool) : front.length + (if d.clauses.isEmpty then 0
    else (d.format compact).dataSize d.clauses.length) = d.size compact := by
  obtain ⟨l, cs, hl, -, rfl⟩ := Method.draft_iff.1 hd
  obtain ⟨code, hcode, rfl⟩ := Method.front_iff.1 hf
  obtain ⟨-, rfl⟩ := (l.code_iff code).1 hcode
  have head : (l.header m cs).fields.flatten.length = (l.header m cs).size := Header.length_fields ..
  simp only [Draft.size, Draft.padding, Draft.codeEnd, List.length_append, head,
    (Layout.lays_of_layout hl).length_code]
  cases cs.isEmpty <;> simp

end

/-- **The steps do what `encodeInto` does at once**: no field lies past the end of the buffer, no
displacement falls short and no clause is too wide. -/
theorem Method.writeInto_eq {m : Method} (ordered : m.Ordered) (compact : Bool) (buffer : Bytes) :
    m.writeInto compact buffer = match m.encodeInto compact buffer with
      | (.ok (size, m'), buffer) => (.ok size, m', buffer)
      | (.error fault, buffer) => (.error fault, m, buffer) := by
  unfold writeInto encodeInto
  cases hd : m.draft with
  | error fault => rfl
  | ok d =>
    obtain ⟨front, hf⟩ := exists_front ordered hd
    have puts := puts_front ordered hd hf
    have length := length_front hd hf compact
    have whole : ∀ bs, Buffer.over buffer bs = ⟨Buffer.overwrite buffer 0 bs, bs.length⟩ := by
      intro bs
      simp [Buffer.over, Buffer.overwrite]
    simp only [hf]
    split
    · rfl
    · rename_i room
      have room' : front.length ≤ buffer.length := by omega
      have written : d.writeFront ⟨buffer, 0⟩ = (.ok (), .over buffer front) :=
        puts buffer [] rfl (by omega)
      unfold Draft.write Writing.andThen
      rw [written]
      cases hc : d.clauses.isEmpty with
      | true =>
        simp only [if_true, Writing.all, whole]
      | false =>
        simp only [hc, Bool.false_eq_true, if_false] at length ⊢
        cases hs : Section.sizeFault? (d.format compact) d.clauses with
        | some fault => rw [Section.write_of_fault _ hs, whole]
        | none =>
          have section_ : Section.write (d.format compact) d.clauses (.over buffer front)
              = (.ok (), .over buffer (front ++ Section.bytes (d.format compact) d.clauses)) :=
            Writing.puts_section hs Section.holds_select buffer front rfl
              (by rw [Section.length_bytes]; omega)
          rw [section_, whole]

end CilProbes
