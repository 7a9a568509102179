import CilProbes.Proofs.Method.Valid
import CilProbes.Proofs.Writing.Code
import CilProbes.Proofs.Writing.Section

/-!
# Decoding undoes encoding

* `encode_iff`: what is encoded, and into which bytes.
* `renumbered`: a method with its instructions numbered in order, as a body can state it.
* `isBody_body`: a written body has the format of bodies.
* `decode_encoded`: it is decoded into the encoded method, renumbered.
-/

namespace CilProbes

/-! ## What is written -/

/-- The header of a laid-out method. -/
def Layout.header (l : Layout) (m : Method) (cs : List Clause) : Header :=
  .forBody m.maxStack (UInt32.ofNat l.codeSize) m.locals m.zeroLocals (!cs.isEmpty)

/-- What follows the code: nothing, or padding and a section. -/
def Layout.tail (l : Layout) (compact : Bool) (h : Header) (cs : List Clause) : Bytes :=
  if cs.isEmpty then []
  else List.replicate (Cursor.padding Section.alignment (h.size + l.codeSize)) 0
    ++ Section.bytes (ClauseFormat.select cs compact) cs

namespace Method

variable {m m' : Method} {compact : Bool} {bytes : Bytes}

theorem draft_iff {d : Draft} : m.draft = .ok d ↔ ∃ l cs, m.layout = .ok l ∧
    m.handlers.mapM l.clause = .ok cs ∧ d = ⟨l, cs, l.header m cs⟩ := by
  unfold draft
  constructor
  · intro h
    obtain ⟨l, hl, h⟩ := bind_ok.1 h
    obtain ⟨cs, hc, h⟩ := bind_ok.1 h
    cases h
    exact ⟨l, cs, hl, hc, rfl⟩
  · rintro ⟨l, cs, hl, hc, rfl⟩
    exact bind_ok.2 ⟨l, hl, bind_ok.2 ⟨cs, hc, rfl⟩⟩

theorem front_iff {l : Layout} {cs : List Clause} {bs : Bytes} :
    (Draft.mk l cs (l.header m cs)).front = .ok bs ↔ ∃ code, l.code = .ok code ∧
      bs = (l.header m cs).fields.flatten ++ code ++ (if cs.isEmpty then []
        else List.replicate (Cursor.padding Section.alignment
          ((l.header m cs).size + l.codeSize)) 0) := by
  unfold Draft.front
  have checked : (l.header m cs).checkedFields = .ok (l.header m cs).fields :=
    Header.checkedFields_forBody ..
  rw [checked]
  constructor
  · intro h
    obtain ⟨_, e, h⟩ := bind_ok.1 h
    cases e
    obtain ⟨code, hc, h⟩ := bind_ok.1 h
    cases h
    exact ⟨code, hc, rfl⟩
  · rintro ⟨code, hc, rfl⟩
    exact bind_ok.2 ⟨_, rfl, bind_ok.2 ⟨code, hc, rfl⟩⟩

/-- Bytes at the start of a buffer are taken from it again. -/
theorem take_overwrite (data bs : Bytes) : (Buffer.overwrite data 0 bs).take bs.length = bs := by
  rw [Buffer.overwrite, List.take_zero, List.nil_append]
  exact List.take_left' rfl

/-- The bytes that a draft is encoded into. -/
theorem encode_of_draft {d : Draft} (hd : m.draft = .ok d) :
    m.encode compact = .ok (bytes, m') ↔ ∃ front, d.front = .ok front ∧
      (d.clauses.isEmpty = false → Section.sizeFault? (d.format compact) d.clauses = none) ∧
      bytes = front ++ (if d.clauses.isEmpty then []
        else Section.bytes (d.format compact) d.clauses) ∧
      m' = m.place d.layout := by
  unfold encode bodySize
  rw [hd, bind_ok]
  simp only [Except.map, Except.ok.injEq, exists_eq_left', encodeInto, hd, List.length_replicate,
    Nat.lt_irrefl, if_false]
  cases d.front with
  | error fault =>
    constructor
    · intro h
      obtain ⟨_, h, -⟩ := bind_ok.1 h
      cases h
    · rintro ⟨_, h, -⟩
      cases h
  | ok front =>
    cases hc : d.clauses.isEmpty with
    | true =>
      simp only [if_true, bind_ok, Except.ok.injEq, Bool.true_eq_false, false_imp_iff, true_and,
        List.append_nil]
      constructor
      · rintro ⟨_, rfl, h⟩
        rw [take_overwrite] at h
        cases h
        exact ⟨_, rfl, rfl, rfl⟩
      · rintro ⟨_, rfl, rfl, rfl⟩
        refine ⟨_, rfl, ?_⟩
        rw [take_overwrite]
        rfl
    | false =>
      simp only [Bool.false_eq_true, if_false, true_imp_iff]
      cases hs : Section.sizeFault? (d.format compact) d.clauses with
      | some fault =>
        constructor
        · intro h
          obtain ⟨_, h, -⟩ := bind_ok.1 h
          cases h
        · rintro ⟨_, -, h, -⟩
          cases h
      | none =>
        simp only [bind_ok, Except.ok.injEq, true_and]
        constructor
        · rintro ⟨_, rfl, h⟩
          rw [take_overwrite] at h
          cases h
          exact ⟨_, rfl, rfl, rfl⟩
        · rintro ⟨_, rfl, rfl, rfl⟩
          refine ⟨_, rfl, ?_⟩
          rw [take_overwrite]
          rfl

theorem sizeFault_eq_none {format : ClauseFormat} {cs : List Clause} :
    Section.sizeFault? format cs = none ↔ format.dataSize cs.length ≤ format.limit := by
  unfold Section.sizeFault?
  split <;> simp <;> omega

/-- **What is encoded, and into which bytes.** -/
theorem encode_iff : m.encode compact = .ok (bytes, m') ↔
    ∃ l cs code, m.layout = .ok l ∧ m.handlers.mapM l.clause = .ok cs ∧ l.code = .ok code ∧
      (cs.isEmpty = false → (ClauseFormat.select cs compact).dataSize cs.length
        ≤ (ClauseFormat.select cs compact).limit) ∧
      bytes = (l.header m cs).fields.flatten ++ (code ++ l.tail compact (l.header m cs) cs) ∧
      m' = m.place l := by
  have tail : ∀ (l : Layout) (cs : List Clause) (code : Bytes),
      (l.header m cs).fields.flatten ++ code ++ (if cs.isEmpty then []
        else List.replicate (Cursor.padding Section.alignment
          ((l.header m cs).size + l.codeSize)) 0) ++ (if cs.isEmpty then []
        else Section.bytes (ClauseFormat.select cs compact) cs)
      = (l.header m cs).fields.flatten ++ (code ++ l.tail compact (l.header m cs) cs) := by
    intro l cs code
    unfold Layout.tail
    cases cs.isEmpty <;> simp
  constructor
  · intro h
    obtain ⟨d, hd⟩ : ∃ d, m.draft = .ok d := by
      cases hd : m.draft with
      | ok d => exact ⟨d, rfl⟩
      | error fault =>
        unfold encode bodySize at h
        rw [hd] at h
        cases h
    obtain ⟨front, hf, size, rfl, rfl⟩ := (encode_of_draft hd).1 h
    obtain ⟨l, cs, hl, hc, rfl⟩ := draft_iff.1 hd
    obtain ⟨code, hcode, rfl⟩ := front_iff.1 hf
    exact ⟨l, cs, code, hl, hc, hcode, fun he => sizeFault_eq_none.1 (size he), tail l cs code, rfl⟩
  · rintro ⟨l, cs, code, hl, hc, hcode, size, rfl, rfl⟩
    refine (encode_of_draft (draft_iff.2 ⟨l, cs, hl, hc, rfl⟩)).2
      ⟨_, front_iff.2 ⟨code, hcode, rfl⟩, fun he => sizeFault_eq_none.2 (size he), ?_, rfl⟩
    exact (tail l cs code).symm

end Method

/-! ## Clauses -/

/-- A handler with its boundaries by another numbering, as far as a clause can state it: a filter
clause has no type to catch, and any other no filter block. -/
def Handler.renumbered (place : InstrId → InstrId) (h : Handler) : Handler :=
  { h.mapBoundaries place with
    filterStart := if h.isFilter then h.filterStart.map place else none
    classToken := if h.isFilter then .null else h.classToken }

namespace Layout

theorem region_ok {l : Layout} {start : InstrId} {stop : Option InstrId} {r : Nat × Nat}
    (h : l.region start stop = .ok r) : ∃ e, l.offsetOf? start = some r.1 ∧
      l.endOf? stop = some e ∧ r.1 + r.2 = e := by
  unfold region at h
  split at h
  · rename_i s e hs he
    split at h
    · cases h
      exact ⟨e, hs, he, by simp only; omega⟩
    · cases h
  · cases h

section
variable {m : Method} {l : Layout} (lays : Lays m l) (ordered : m.Ordered)
  (tiled : Reader.Tiled Placed.Stands 0 (l.rows.flatMap fun r => (l.codedOf r).bytes)
    (l.rows.map l.placed))

include lays ordered tiled

/-- The offset of an instruction is a start before the end of the code, at the place that the
instruction has in the order. -/
theorem Lays.start {id : InstrId} {o : Nat} (h : l.offsetOf? id = some o) :
    o < l.codeSize ∧ (UInt32.ofNat o).toNat = o ∧ o ∈ starts (l.rows.map l.placed) ∧
      placeOf (l.rows.map l.placed) o = m.order.idxOf id := by
  obtain ⟨mem, place⟩ := lays.placeOf_offset ordered tiled.starts_nodup h
  have lt := tiled.starts_lt o mem
  rw [lays.length_code, Nat.zero_add] at lt
  have limit := lays.limit
  refine ⟨lt, ?_, mem, place⟩
  rw [UInt32.toNat_ofNat']
  simp only [Relax.codeLimit] at limit
  omega

/-- The two ends of a region are met, and lead back to its boundaries. -/
theorem Lays.region_met {start : InstrId} {stop : Option InstrId} {r : Nat × Nat}
    (h : l.region start stop = .ok r) :
    (UInt32.ofNat r.1).toNat ∈ starts (l.rows.map l.placed) ∧
    EndMet (l.rows.map l.placed) l.codeSize (UInt32.ofNat r.1).toNat (UInt32.ofNat r.2).toNat ∧
    placeOf (l.rows.map l.placed) (UInt32.ofNat r.1).toNat = m.order.idxOf start ∧
    endOf (l.rows.map l.placed) l.codeSize
      ((UInt32.ofNat r.1).toNat + (UInt32.ofNat r.2).toNat) = stop.map m.order.idxOf := by
  obtain ⟨e, hs, he, sum⟩ := region_ok h
  obtain ⟨-, word, mem, place⟩ := lays.start ordered tiled hs
  have limit := lays.limit
  simp only [Relax.codeLimit] at limit
  have stop_met : e ≤ l.codeSize ∧ (e = l.codeSize ∨ e ∈ starts (l.rows.map l.placed)) ∧
      endOf (l.rows.map l.placed) l.codeSize e = stop.map m.order.idxOf := by
    cases stop with
    | none =>
      cases he
      exact ⟨Nat.le_refl _, .inl rfl, if_pos rfl⟩
    | some id =>
      obtain ⟨lt, -, mem, place⟩ := lays.start ordered tiled he
      refine ⟨Nat.le_of_lt lt, .inr mem, ?_⟩
      rw [endOf, if_neg (Nat.ne_of_lt lt), place]
      rfl
  have length : (UInt32.ofNat r.2).toNat = r.2 := by
    rw [UInt32.toNat_ofNat']
    omega
  rw [word, length, sum]
  refine ⟨mem, ⟨?_, ?_⟩, place, stop_met.2.2⟩
  · simp only [UInt32.size]
    omega
  · rw [sum]
    exact stop_met.2.1

/-- **A clause leads back to its handler.** -/
theorem Lays.clause_met {h : Handler} (hh : h ∈ m.handlers) {c : Clause} (hc : l.clause h = .ok c) :
    c.flags = h.flags ∧ ClauseMet (l.rows.map l.placed) l.codeSize c ∧
      c.linked (l.rows.map l.placed) l.codeSize = h.renumbered m.order.idxOf := by
  unfold clause at hc
  obtain ⟨tried, ht, hc⟩ := bind_ok.1 hc
  obtain ⟨handler, hr, hc⟩ := bind_ok.1 hc
  obtain ⟨last, hl, hc⟩ := bind_ok.1 hc
  cases hc
  obtain ⟨tryStart, tryEnd, tryPlace, tryStop⟩ := lays.region_met ordered tiled ht
  obtain ⟨handlerStart, handlerEnd, handlerPlace, handlerStop⟩ := lays.region_met ordered tiled hr
  unfold filterOrType at hl
  cases filter : h.isFilter with
  | true =>
    have valid := ((Method.validate_iff ordered).1 lays.valid).2 h hh
    obtain ⟨f, hf⟩ := Option.isSome_iff_exists.1 (valid.filter filter)
    have flag : h.flags.isFilter = true := filter
    rw [hf] at hl
    simp only [filter, if_true] at hl
    cases ho : l.offsetOf? f with
    | none =>
      rw [ho] at hl
      cases hl
    | some o =>
      rw [ho] at hl
      cases hl
      obtain ⟨-, word, mem, place⟩ := lays.start ordered tiled ho
      refine ⟨rfl, ⟨tryStart, tryEnd, handlerStart, handlerEnd, fun _ => ?_⟩, ?_⟩
      · rwa [word]
      · simp only [Clause.linked, Handler.renumbered, Handler.mapBoundaries, tryPlace, tryStop,
          handlerPlace, handlerStop, filter, flag, if_true, word, place, hf, Option.map_some]
  | false =>
    have flag : h.flags.isFilter = false := filter
    have last : last = h.classToken.value := by
      simp only [filter, Bool.false_eq_true, if_false] at hl
      cases hf : h.filterStart with
      | none =>
        rw [hf] at hl
        cases hl
        rfl
      | some f =>
        rw [hf] at hl
        cases hl
        rfl
    subst last
    refine ⟨rfl, ⟨tryStart, tryEnd, handlerStart, handlerEnd, fun h' => ?_⟩, ?_⟩
    · rw [flag] at h'
      cases h'
    · simp only [Clause.linked, Handler.renumbered, Handler.mapBoundaries, tryPlace, tryStop,
        handlerPlace, handlerStop, filter, flag, Bool.false_eq_true, if_false]

end

end Layout

/-! ## The whole body -/

theorem Layout.Lays.codeSize_header {m : Method} {l : Layout} (lays : Layout.Lays m l)
    (cs : List Clause) : (l.header m cs).codeSize.toNat = l.codeSize := by
  have limit := lays.limit
  rw [Layout.header, Header.forBody_codeSize, UInt32.toNat_ofNat']
  simp only [Relax.codeLimit] at limit
  omega

/-- **A method with its instructions numbered in order**, as a body states it: the offsets are those
of the last encoding, and a locals signature asks for zeroed locals. -/
def Method.renumbered (m : Method) : Method where
  stock := (m.sequence.map fun p =>
    { p.2 with operand := p.2.operand.map m.order.idxOf, origin := some p.2.offset }).toArray
  order := List.range m.order.length
  maxStack := m.maxStack
  locals := m.locals
  zeroLocals := m.zeroLocals || m.locals.isSome
  handlers := m.handlers.map (Handler.renumbered m.order.idxOf)

/-- The chosen format holds every clause. -/
theorem Section.holds_select {cs : List Clause} {compact : Bool} :
    ∀ c ∈ cs, holds (ClauseFormat.select cs compact) c = true := by
  intro c hc
  unfold ClauseFormat.select
  split
  · rename_i narrow
    simp only [Bool.and_eq_true, List.all_eq_true] at narrow
    simp [holds, narrow.1.2 c hc]
  · rfl

section
variable {m : Method} {l : Layout} {cs : List Clause} {code : Bytes} {compact : Bool}
  (kinded : m.Kinded) (ordered : m.Ordered)
  (known : ∀ h ∈ m.handlers, h.flags.masked = h.flags)
  (hl : m.layout = .ok l) (hc : m.handlers.mapM l.clause = .ok cs) (hcode : l.code = .ok code)
  (size : cs.isEmpty = false → (ClauseFormat.select cs compact).dataSize cs.length
    ≤ (ClauseFormat.select cs compact).limit)

include kinded hl hcode

theorem tiled_code : Reader.Tiled Placed.Stands 0 code (l.rows.map l.placed) ∧
    code.length = l.codeSize := by
  have lays := Layout.lays_of_layout hl
  obtain ⟨reaches, rfl⟩ := (l.code_iff code).1 hcode
  exact ⟨lays.tiled kinded reaches, lays.length_code⟩

include ordered hc

/-- Each handler with its clause. -/
theorem clauses_met : List.Forall₂ (fun h c => c.flags = h.flags ∧
    ClauseMet (l.rows.map l.placed) l.codeSize c ∧
    c.linked (l.rows.map l.placed) l.codeSize = h.renumbered m.order.idxOf) m.handlers cs := by
  have lays := Layout.lays_of_layout hl
  obtain ⟨tiled, -⟩ := tiled_code kinded hl hcode
  obtain ⟨-, rfl⟩ := (l.code_iff code).1 hcode
  have all := (List.forall₂_and_left _ _).2 ⟨fun h (hh : h ∈ m.handlers) => hh, mapM_ok.1 hc⟩
  exact all.imp fun h c hc => lays.clause_met ordered tiled hc.1 hc.2

include known size

/-- **A written body has the format of bodies.** -/
theorem isBody_body : IsBody
    ((l.header m cs).fields.flatten ++ (code ++ l.tail compact (l.header m cs) cs))
    (l.header m cs) (l.rows.map l.placed) cs := by
  have lays := Layout.lays_of_layout hl
  obtain ⟨tiled, length⟩ := tiled_code kinded hl hcode
  have met := clauses_met kinded ordered hl hc hcode
  have codeSize := lays.codeSize_header cs
  have head : (l.header m cs).fields.flatten.length = (l.header m cs).size :=
    Header.length_fields ..
  refine ⟨Header.headerBytes_forBody .., ?_, ?_, ?_, ?_, ?_⟩
  · rw [codeSize, ← head, ← length]
    simp only [List.length_append]
    omega
  · rw [codeSize, List.drop_left' head, List.take_left' length]
    exact tiled
  · obtain ⟨reaches, rfl⟩ := (l.code_iff code).1 hcode
    exact lays.targets ordered tiled.starts_nodup reaches
  · rw [codeSize, Layout.header, Header.forBody_hasSections, ← Layout.header, ← List.append_assoc]
    have behind : ((l.header m cs).fields.flatten ++ code).length
        = (l.header m cs).size + l.codeSize := by
      rw [List.length_append, head, length]
    rw [List.drop_left' behind]
    cases he : cs.isEmpty with
    | true => simpa using he
    | false =>
      have flags : ∀ c ∈ cs, c.flags.masked = c.flags := by
        have all := (List.forall₂_and_left _ _).2 ⟨known, met⟩
        exact forall_of_forall₂ all fun h c met => by rw [met.2.1, met.1]
      refine ⟨_, Section.chainBytes _ flags Section.holds_select (size he), ?_⟩
      rw [Layout.tail, he]
      exact List.prefix_rfl
  · rw [codeSize]
    exact forall_of_forall₂ met fun _ _ h => h.2.1

end

/-- The method of a written body is the encoded method, numbered in order. -/
theorem linked_eq_renumbered {m : Method} {l : Layout} {cs : List Clause} {code : Bytes}
    (ordered : m.Ordered) (kinded : m.Kinded) (nonNull : m.locals ≠ some .null)
    (hl : m.layout = .ok l) (hc : m.handlers.mapM l.clause = .ok cs) (hcode : l.code = .ok code) :
    Method.linked (l.header m cs) (l.rows.map l.placed) cs = (m.place l).renumbered := by
  have lays := Layout.lays_of_layout hl
  obtain ⟨tiled, -⟩ := tiled_code kinded hl hcode
  have met := clauses_met kinded ordered hl hc hcode
  obtain ⟨reaches, rfl⟩ := (l.code_iff code).1 hcode
  have stock : (l.rows.map l.placed).map (Placed.linked (l.rows.map l.placed))
      = (m.place l).sequence.map fun p =>
        { p.2 with operand := p.2.operand.map m.order.idxOf, origin := some p.2.offset } := by
    rw [Method.sequence_place lays ordered, List.map_map, List.map_map]
    refine List.map_congr_left fun r hr => ?_
    exact lays.linked_placed ordered tiled.starts_nodup (reaches r hr)
  have count : (l.rows.map l.placed).length = m.order.length := by
    rw [← lays.ids ordered, List.length_map, List.length_map]
  have codeSize := lays.codeSize_header cs
  have handlers : cs.map (Clause.linked (l.rows.map l.placed) (l.header m cs).codeSize.toNat)
      = m.handlers.map (Handler.renumbered m.order.idxOf) := by
    rw [codeSize]
    exact map_eq_of_forall₂ (met.imp fun _ _ h => h.2.2)
  rw [Method.linked, stock, count, handlers, Layout.header, Header.forBody_maxStack,
    Header.forBody_locals _ _ _ _ _ nonNull, Header.forBody_zeroesLocals]
  rfl

/-- Writing leaves the opcode or takes one of its two forms. -/
theorem Layout.opcodeOf_mem (i : Instruction) (s : Relax.Slot) :
    Layout.opcodeOf i s ∈ [i.opcode, i.opcode.shortForm, i.opcode.longForm] := by
  unfold Layout.opcodeOf
  split
  · simp
  · split <;> simp

/-- **What encoding changes of a method**: the forms of branches and the offsets, nothing else. -/
structure Method.Rewritten (m m' : Method) : Prop where
  order : m'.order = m.order
  maxStack : m'.maxStack = m.maxStack
  locals : m'.locals = m.locals
  zeroLocals : m'.zeroLocals = m.zeroLocals
  handlers : m'.handlers = m.handlers
  instruction : ∀ id i, m.instruction? id = some i → ∃ i', m'.instruction? id = some i' ∧
    i'.operand = i.operand ∧ i'.origin = i.origin ∧
    i'.opcode ∈ [i.opcode, i.opcode.shortForm, i.opcode.longForm]

theorem rewritten_place {m : Method} {l : Layout} (lays : Layout.Lays m l) (ordered : m.Ordered) :
    m.Rewritten (m.place l) := by
  refine ⟨rfl, rfl, rfl, rfl, rfl, fun id i hi => ?_⟩
  have mem : id ∈ m.order := by
    rw [ordered.mem_iff]
    exact (Array.getElem?_eq_some_iff.1 hi).1
  obtain ⟨k, r, hk, rfl⟩ := lays.exists_row ordered mem
  have hr := List.mem_of_getElem? hk
  refine ⟨r.written, Method.place_instruction lays ordered hr, ?_⟩
  have same : r.instruction = i := by
    have := Method.instruction_of_row lays hr
    rw [Method.instruction?, this, Option.some.injEq] at hi
    exact hi
  subst same
  refine ⟨rfl, rfl, ?_⟩
  obtain ⟨long, form⟩ := lays.forms r hr
  show r.opcode ∈ _
  rw [form]
  exact Layout.opcodeOf_mem r.instruction _

/-- A written body is decoded into the method that was written, numbered in order. -/
theorem decode_written {m m' : Method} {compact : Bool} {bytes : Bytes} (ordered : m.Ordered)
    (kinded : m.Kinded) (nonNull : m.locals ≠ some .null)
    (known : ∀ h ∈ m.handlers, h.flags.masked = h.flags)
    (encoded : m.encode compact = .ok (bytes, m')) : Method.decode bytes = .ok m'.renumbered := by
  obtain ⟨l, cs, code, hl, hc, hcode, size, rfl, rfl⟩ := Method.encode_iff.1 encoded
  rw [decode_iff, ← linked_eq_renumbered ordered kinded nonNull hl hc hcode]
  exact ⟨_, _, _, isBody_body kinded ordered known hl hc hcode size, rfl⟩

/-- **Decoding undoes encoding.** The body of a built method is decoded into the encoded method with
its instructions numbered in order: the opcodes and the offsets are those that were written, the
operands, the handlers and the header fields those of the method. -/
theorem decode_encoded {m m' : Method} {compact : Bool} {bytes : Bytes} (built : m.Built)
    (kinded : m.Kinded) (nonNull : m.locals ≠ some .null)
    (known : ∀ h ∈ m.handlers, h.flags.masked = h.flags)
    (encoded : m.encode compact = .ok (bytes, m')) :
    Method.decode bytes = .ok m'.renumbered ∧ m.Rewritten m' := by
  refine ⟨decode_written built.ordered kinded nonNull known encoded, ?_⟩
  obtain ⟨l, cs, code, hl, -, -, -, -, rfl⟩ := Method.encode_iff.1 encoded
  exact rewritten_place (Layout.lays_of_layout hl) built.ordered

/-- A return, and in front of it a jump to it that went in later. -/
def jumpAhead : Method :=
  { Method.empty with stock := #[.simple .ret, .branch .br 0], order := [1, 0] }

theorem jumpAhead_built : jumpAhead.Built := by
  have inserted : (Method.empty.push (.simple .ret)).insert 0 [.branch .br 0] .before
      = .ok ([1], jumpAhead) := by cbv
  exact .insert (.push _ .empty) inserted

theorem jumpAhead_kinded : jumpAhead.Kinded := by
  have all : jumpAhead.sequence = [(1, .branch .br 0), (0, .simple .ret)] := rfl
  intro p hp
  rw [all] at hp
  simp only [List.mem_cons, List.not_mem_nil, or_false] at hp
  rcases hp with rfl | rfl
  · exact ⟨⟨"br", .branch, .unconditional⟩, by decide +kernel, trivial⟩
  · exact ⟨⟨"ret", .none, .ret⟩, by decide +kernel, trivial⟩

/-- The jump is written in its short form and decoded in order. -/
theorem decode_encoded_jumpAhead : ∃ m', jumpAhead.encode true = .ok ([0x0E, 0x2B, 0x00, 0x2A], m') ∧
    Method.decode [0x0E, 0x2B, 0x00, 0x2A] = .ok m'.renumbered ∧ jumpAhead.Rewritten m' := by
  have written : (jumpAhead.encode true).toOption.map Prod.fst = some [0x0E, 0x2B, 0x00, 0x2A] := by
    decide +kernel
  obtain ⟨m', encoded⟩ := ok_of_fst written
  exact ⟨m', encoded, decode_encoded jumpAhead_built jumpAhead_kinded nofun (fun _ h => by cases h)
    encoded⟩

end CilProbes
