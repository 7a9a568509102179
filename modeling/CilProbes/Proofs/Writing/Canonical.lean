import CilProbes.Proofs.Coverage.Safe
import CilProbes.Proofs.Writing.Again
import CilProbes.Proofs.Writing.Widths

/-!
# Encoding is canonical

The bytes of a body depend on what the instructions mean and not on how they came about. Relaxation
starts with every branch short, so the form that a branch has does not matter to the layout, and the
offsets that an instruction was decoded at or last written at are not read at all.

* `Instruction.bare`, `Method.bare`: a method without forms and offsets.
* `Method.Alike`, `encode_alike`: methods that differ in these only are written in the same bytes.
* `Method.stated`: a method with a nil token for its locals is written like one with zeroed locals.
* `encode_canonical`: what follows for encoding again, at once or after decoding.
-/

namespace CilProbes

open Layout Relax

/-- An instruction with its branch in the short form and without offsets. -/
def Instruction.bare (i : Instruction) : Instruction := ⟨i.inWidth false, i.operand, none, 0⟩

/-- **A method without the forms of its branches and without offsets.** -/
def Method.bare (m : Method) : Method := { m with stock := m.stock.map Instruction.bare }

/-- **Methods of which the bodies are alike**: the same instructions but for forms and offsets, in
the same order, with the same handlers and such fields that the headers are the same. -/
structure Method.Alike (m m' : Method) : Prop where
  order : m'.order = m.order
  stock : m'.stock.map Instruction.bare = m.stock.map Instruction.bare
  handlers : m'.handlers = m.handlers
  header : ∀ codeSize sections, Header.forBody m'.maxStack codeSize m'.locals m'.zeroLocals sections
    = Header.forBody m.maxStack codeSize m.locals m.zeroLocals sections

theorem Method.alike_of_bare {m m' : Method} (h : m'.bare = m.bare) : m.Alike m' := by
  obtain ⟨stock, order, maxStack, locals, zeroLocals, handlers⟩ := Method.mk.inj h
  refine ⟨order, stock, handlers, fun codeSize sections => ?_⟩
  rw [maxStack, locals, zeroLocals]

/-! ## Forms -/

theorem OpCode.shortForm_of_not_branch {op : OpCode}
    (h : ¬ (op.isShortBranch || op.isLongBranch) = true) : op.shortForm = op := by
  rw [Bool.or_eq_true, not_or] at h
  rw [OpCode.shortForm, if_neg h.2]

theorem pieceOf_bare (places : Locator) (i : Instruction) :
    pieceOf places i.bare = pieceOf places i := by
  obtain ⟨opcode, operand, origin, offset⟩ := i
  cases operand with
  | target t =>
    show pieceOf places ⟨opcode.shortForm, .target t, none, 0⟩ = _
    by_cases hb : (opcode.isShortBranch || opcode.isLongBranch) = true
    · obtain ⟨⟨-, short, -⟩, -⟩ := OpCode.forms_of_branch hb
      simp [pieceOf, hb, short]
    · rw [OpCode.shortForm_of_not_branch hb]
      rfl
  | _ => rfl

/-- The slot of an instruction decides its opcode. -/
theorem opcodeOf_bare {places : Locator} {i : Instruction} {s : Slot}
    (piece : s.piece = pieceOf places i) : opcodeOf i.bare s = opcodeOf i s := by
  obtain ⟨opcode, operand, origin, offset⟩ := i
  obtain ⟨piece', long⟩ := s
  simp only at piece
  subst piece
  cases operand with
  | target t =>
    show opcodeOf ⟨opcode.shortForm, .target t, none, 0⟩ _ = _
    by_cases hb : (opcode.isShortBranch || opcode.isLongBranch) = true
    · obtain ⟨short, wide, -, -⟩ := OpCode.forms_of_form hb
      simp [opcodeOf, pieceOf, hb, short, wide]
    · rw [OpCode.shortForm_of_not_branch hb]
      rfl
  | _ => rfl

/-- A row with its instruction bare. -/
def Layout.Row.bare (r : Row) : Row := { r with instruction := r.instruction.bare }

/-- An instruction of a sequence, bare. -/
def bareEntry (p : InstrId × Instruction) : InstrId × Instruction := (p.1, p.2.bare)

theorem rowsFrom_bare {places : Locator} {p : Nat} {seq : List (InstrId × Instruction)}
    {ss : List Slot} (pieces : ss.map (·.piece) = seq.map fun e => pieceOf places e.2) :
    (rowsFrom p seq ss).map Row.bare = rowsFrom p (seq.map bareEntry) ss := by
  induction ss generalizing p seq with
  | nil => cases seq <;> rfl
  | cons s ss ih =>
    cases seq with
    | nil => rfl
    | cons e seq =>
      obtain ⟨id, i⟩ := e
      simp only [List.map_cons, List.cons.injEq] at pieces
      simp only [List.map_cons, rowsFrom, bareEntry, ih pieces.2, opcodeOf_bare pieces.1]
      rfl

/-! ## Alike methods -/

namespace Method

section
variable {m m' : Method} (alike : m.Alike m')

include alike

theorem Alike.symm : m'.Alike m :=
  ⟨alike.order.symm, alike.stock.symm, alike.handlers.symm, fun c s => (alike.header c s).symm⟩

theorem Alike.places : m'.places = m.places := by
  have size := congrArg Array.size alike.stock
  rw [Array.size_map, Array.size_map] at size
  rw [Method.places, Method.places, size, alike.order]

theorem Alike.sequence : m'.sequence.map bareEntry = m.sequence.map bareEntry := by
  have entry : ∀ (n : Method) id, ((n.stock[id]?).map fun i => (id, i)).map bareEntry
      = ((n.stock.map Instruction.bare)[id]?).map fun i => (id, i) := by
    intro n id
    rw [Array.getElem?_map]
    cases n.stock[id]? <;> rfl
  unfold Method.sequence
  rw [List.map_filterMap, List.map_filterMap, alike.order]
  refine List.filterMap_congr fun id _ => ?_
  rw [entry, entry, alike.stock]

/-- Alike methods refer to the same instructions. -/
theorem Alike.valid (valid : m.validate = .ok ()) : m'.validate = .ok () := by
  have bare : ∀ n : Method, (n.sequence.findSome? fun p => targetFault? n.places p.1 p.2) = none ↔
      ∀ p ∈ n.sequence.map bareEntry, ∀ t ∈ p.2.targets, (n.places.find? t).isSome = true := by
    intro n
    simp only [List.findSome?_eq_none_iff, targetFault?, ite_eq_left_iff, reduceCtorEq, imp_false,
      not_not, List.forall_mem_map]
    rfl
  have size : m'.size = m.size := congrArg List.length alike.order
  rw [validate_iff_none, bare] at valid ⊢
  rw [alike.sequence, alike.places, alike.handlers, size]
  exact valid

theorem Alike.pieces : piecesOf m' = piecesOf m := by
  have bare : ∀ n : Method,
      piecesOf n = (n.sequence.map bareEntry).map fun p => pieceOf n.places p.2 := by
    intro n
    rw [List.map_map]
    exact List.map_congr_left fun p _ => (pieceOf_bare n.places p.2).symm
  rw [bare, bare, alike.sequence, alike.places]

/-- **Alike methods have the same layout**, up to what their instructions come with. -/
theorem Alike.layout {l : Layout} (hl : m.layout = .ok l) : ∃ rows,
    m'.layout = .ok { l with rows } ∧ rows.map Row.bare = l.rows.map Row.bare := by
  obtain ⟨valid, ss, hs, rfl⟩ := Method.layout_iff.1 hl
  have pieces := (solve_spec hs).1
  refine ⟨rowsFrom 0 m'.sequence ss, Method.layout_iff.2 ⟨alike.valid valid, ss, ?_, ?_⟩, ?_⟩
  · rw [alike.pieces, hs]
  · unfold layoutOf
    rw [alike.places]
  · show _ = (rowsFrom 0 m.sequence ss).map Row.bare
    rw [rowsFrom_bare pieces, ← alike.sequence]
    rw [← alike.pieces] at pieces
    exact rowsFrom_bare pieces

end

/-- The code does not show what forms and offsets the instructions come with. -/
theorem code_bare (l : Layout) :
    ({ l with rows := l.rows.map Row.bare } : Layout).code = l.code := by
  unfold Layout.code
  rw [List.mapM_map]
  rfl

/-- **Methods that are alike are written in the same bytes.** -/
theorem encode_alike {m m' m₁ : Method} {compact : Bool} {bytes : Bytes} (alike : m.Alike m')
    (encoded : m.encode compact = .ok (bytes, m₁)) : ∃ l rows, m.layout = .ok l ∧ m₁ = m.place l ∧
      m'.layout = .ok { l with rows } ∧ rows.map Row.bare = l.rows.map Row.bare ∧
      m'.encode compact = .ok (bytes, m'.place { l with rows }) := by
  obtain ⟨l, cs, code, hl, hc, hcode, size, rfl, rfl⟩ := Method.encode_iff.1 encoded
  obtain ⟨rows, hl', same⟩ := alike.layout hl
  have hcode' : ({ l with rows } : Layout).code = .ok code := by
    rw [← code_bare, ← hcode, ← code_bare l, same]
  have header : ({ l with rows } : Layout).header m' cs = l.header m cs :=
    alike.header (UInt32.ofNat l.codeSize) (!cs.isEmpty)
  refine ⟨l, rows, hl, rfl, hl', same, Method.encode_iff.2
    ⟨_, cs, code, hl', ?_, hcode', size, ?_, rfl⟩⟩
  · rw [alike.handlers]
    exact hc
  · rw [header]
    rfl

theorem Alike.bytes {m m' : Method} (alike : m.Alike m') (compact : Bool) :
    (m'.encode compact).toOption.map Prod.fst = (m.encode compact).toOption.map Prod.fst := by
  cases h : m.encode compact with
  | ok r =>
    obtain ⟨l, rows, -, -, -, -, h'⟩ := encode_alike alike h
    rw [h']
    rfl
  | error fault =>
    cases h' : m'.encode compact with
    | ok r =>
      obtain ⟨l, rows, -, -, -, -, e⟩ := encode_alike alike.symm h'
      rw [h] at e
      cases e
    | error fault' => rfl

/-! ## Encoding again -/

section
variable {m m' : Method} {l : Layout} (lays : Lays m l)

include lays

/-- Writing an instruction changes no more than its form and its offset. -/
theorem written_bare {r : Row} (hr : r ∈ l.rows) : r.written.bare = r.instruction.bare := by
  obtain ⟨long, form⟩ := lays.forms r hr
  obtain ⟨id, ⟨opcode, operand, origin, offset⟩, opcode', offset'⟩ := r
  simp only at form
  subst form
  cases operand with
  | target t =>
    show (⟨(opcodeOf _ _).shortForm, .target t, none, 0⟩ : Instruction)
      = ⟨opcode.shortForm, .target t, none, 0⟩
    by_cases hb : (opcode.isShortBranch || opcode.isLongBranch) = true
    · obtain ⟨short, -, wide, -⟩ := OpCode.forms_of_form hb
      cases long <;> simp [opcodeOf, pieceOf, hb, short, wide]
    · simp [opcodeOf, pieceOf, hb]
  | _ => rfl

theorem bare_place (ordered : m.Ordered) : (m.place l).bare = m.bare := by
  have stock := map_place lays ordered fun r hr => written_bare lays hr
  exact congrArg (fun stock => { m with stock := stock }) stock

end

/-- **Encoding twice** gives the same bytes, and the second time nothing changes. -/
theorem encode_twice {m m' : Method} (ordered : m.Ordered) {compact : Bool} {bytes : Bytes}
    (encoded : m.encode compact = .ok (bytes, m')) : m'.encode compact = .ok (bytes, m') := by
  obtain ⟨l, -, -, hl, -, -, -, -, rfl⟩ := encode_iff.1 encoded
  have lays := lays_of_layout hl
  have alike := alike_of_bare (bare_place lays ordered)
  obtain ⟨l₁, rows, hl₁, -, hl', same, again⟩ := encode_alike alike encoded
  cases hl.symm.trans hl₁
  have lays' := lays_of_layout hl'
  rw [again, place_self lays' (ordered.place l)]
  intro r' hr'
  -- The row has the opcode and the offset that were written.
  obtain ⟨r, hr, e⟩ : ∃ r ∈ l.rows, r.bare = r'.bare := by
    have := List.mem_map_of_mem (f := Row.bare) hr'
    rw [same] at this
    exact List.mem_map.1 this
  obtain ⟨id, -, opcode, offset⟩ := Row.mk.inj e
  have stands := instruction_of_row lays' hr'
  rw [← id, place_instruction lays ordered hr, Option.some.injEq] at stands
  rw [Row.written, ← opcode, ← offset, ← stands]
  rfl

/-! ## What a body can state -/

/-- A method as a body states it: a nil token for the locals is none, but asks for zeroed locals. -/
def stated (m : Method) : Method :=
  { m with locals := m.locals.bind Token.nonNull?, zeroLocals := m.zeroLocals || m.locals.isSome }

theorem alike_stated (m : Method) : m.Alike m.stated := by
  refine ⟨rfl, rfl, rfl, fun codeSize sections => ?_⟩
  have token : (m.locals.bind Token.nonNull?).getD .null = m.locals.getD .null := by
    cases m.locals with
    | none => rfl
    | some t =>
      simp only [Option.bind_some, Token.nonNull?, Option.getD_some]
      split
      · rename_i null
        exact (congrArg Token.mk (beq_iff_eq.1 null)).symm
      · rfl
  have zeroed : (m.zeroLocals || m.locals.isSome || (m.locals.bind Token.nonNull?).isSome)
      = (m.zeroLocals || m.locals.isSome) := by
    cases m.locals <;> simp
  show Header.forBody m.maxStack codeSize (m.locals.bind Token.nonNull?)
    (m.zeroLocals || m.locals.isSome) sections = _
  unfold Header.forBody
  simp only [token, zeroed]

theorem writable_stated {m : Method} (ordered : m.Ordered) (kinded : m.Kinded)
    (known : ∀ h ∈ m.handlers, h.flags.masked = h.flags) : m.stated.Writable := by
  refine ⟨ordered, kinded, ?_, known⟩
  show m.locals.bind Token.nonNull? ≠ some .null
  cases m.locals with
  | none => nofun
  | some t => exact nonNull?_ne_null t

end Method

/-- **Encoding is canonical.** Methods that differ only in the forms of their branches and in the
offsets of their instructions are written in the same bytes, or both are not. A method that was
encoded is encoded into the same bytes again and does not change. If its operands have the kinds
that the opcodes ask for and its flags have a meaning, the body is decoded into a method that is
encoded into this body again. All this holds of a method that was decoded and instrumented. -/
theorem encode_canonical (compact : Bool) :
    (∀ m₁ m₂ : Method, m₁.bare = m₂.bare →
      (m₁.encode compact).toOption.map Prod.fst = (m₂.encode compact).toOption.map Prod.fst) ∧
    (∀ (m m' : Method) (bytes : Bytes), m.Built → m.encode compact = .ok (bytes, m') →
      m'.encode compact = .ok (bytes, m') ∧
      (m.Kinded → (∀ h ∈ m.handlers, h.flags.masked = h.flags) → ∃ m'',
        Method.decode bytes = .ok m'' ∧ m''.encode compact = .ok (bytes, m''))) ∧
    ∀ (body : Bytes) (m m' : Method) (p : Points) (d : ProbeDispatch) (outcome : Instrumented),
      Method.decode body = .ok m → (m.instrument p d).runOn.1 = .ok (outcome, m') →
        m'.Built ∧ m'.Kinded ∧ ∀ h ∈ m'.handlers, h.flags.masked = h.flags := by
  refine ⟨fun m₁ m₂ same => (Method.alike_of_bare same).bytes compact,
    fun m m' bytes built encoded => ⟨Method.encode_twice built.ordered encoded, ?_⟩, ?_⟩
  · intro kinded known
    obtain ⟨l, rows, -, -, -, -, stated⟩ := Method.encode_alike m.alike_stated encoded
    have writable := Method.writable_stated built.ordered kinded known
    exact ⟨_, decode_again writable stated⟩
  · intro body m m' p d outcome decoded instrumented
    have writable := writable_of_decode decoded
    have grows := (probed_instrument writable.ordered (Logged.yields_of_runOn instrumented)).grows
    refine ⟨grows.built (.decoded decoded), ?_, ?_⟩
    · exact grows.kinded (fun i new => new.2) writable.ordered writable.kinded
    · exact grows.known writable.known

/-- The short and the long jump over nothing are written alike, and the body stays as it is. -/
theorem encode_canonical_jumpAhead :
    jumpAhead.bare = (jumpAhead.setInstruction 1 (.branch (.single 0x2B) 0)).bare ∧
    ((jumpAhead.setInstruction 1 (.branch (.single 0x2B) 0)).encode true).toOption.map Prod.fst
      = some [0x0E, 0x2B, 0x00, 0x2A] ∧
    (∃ m', jumpAhead.encode true = .ok ([0x0E, 0x2B, 0x00, 0x2A], m') ∧
      m'.encode true = .ok ([0x0E, 0x2B, 0x00, 0x2A], m') ∧ ∃ m'',
        Method.decode [0x0E, 0x2B, 0x00, 0x2A] = .ok m'' ∧
        m''.encode true = .ok ([0x0E, 0x2B, 0x00, 0x2A], m'')) ∧
    ∃ m', (twoReturns.instrument ⟨[⟨0, 7⟩], [⟨1, 0, 8⟩, ⟨1, 1, 9⟩]⟩
      (.trampoline ⟨0x0A000001⟩)).runOn.1 = .ok (.applied 1 2, m') ∧ m'.Built ∧ m'.Kinded := by
  have bare : jumpAhead.bare = (jumpAhead.setInstruction 1 (.branch (.single 0x2B) 0)).bare := by
    decide +kernel
  have written : (jumpAhead.encode true).toOption.map Prod.fst = some [0x0E, 0x2B, 0x00, 0x2A] := by
    decide +kernel
  obtain ⟨m₁, instrumented⟩ := instrument_twoReturns
  obtain ⟨m', encoded⟩ := ok_of_fst written
  obtain ⟨alike, again, kept⟩ := encode_canonical true
  obtain ⟨twice, back⟩ := again jumpAhead m' _ jumpAhead_built encoded
  obtain ⟨built, kinded, -⟩ := kept _ _ _ _ _ _ decode_twoReturns instrumented
  refine ⟨bare, (alike _ _ bare).symm.trans written, ⟨m', encoded, twice, ?_⟩, m₁, instrumented,
    built, kinded⟩
  exact back jumpAhead_kinded fun _ h => by cases h

end CilProbes
