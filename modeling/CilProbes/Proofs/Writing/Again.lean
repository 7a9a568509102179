import CilProbes.Proofs.Method.Decoded
import CilProbes.Proofs.Writing.Body

/-!
# Encoding a written body again

A body that was written and decoded is written the same way again: its instructions are the rows of
the layout, by their numbers (`Row.renumbered`), so relaxation gets the same pieces and settles on
the same forms.

* `piecesOf_renumbered`, `valid_renumbered`: the renumbered method as relaxation sees it.
* `layout_renumbered`: its layout.
* `encode_renumbered`: it is encoded into the same bytes and does not change.
* `Method.Writable`, `decode_again`: what a method must have for that, and every decoded one has.
-/

namespace CilProbes

open Layout Relax

/-- The places of the entries of a list count up. -/
theorem map_idxOf_self {l : List Nat} (h : l.Nodup) : l.map l.idxOf = List.range l.length := by
  refine List.ext_getElem (by simp) fun k hk _ => ?_
  rw [List.getElem_map, List.getElem_range]
  exact h.idxOf_getElem k _

/-- Lists of pairs are determined by their two sides. -/
theorem eq_of_map_fst_snd {α β : Type} {xs ys : List (α × β)} (fst : xs.map Prod.fst = ys.map Prod.fst)
    (snd : xs.map Prod.snd = ys.map Prod.snd) : xs = ys := by
  rw [← List.zip_unzip xs, ← List.zip_unzip ys, List.unzip_eq_map, List.unzip_eq_map, fst, snd]

/-- A row as the method of the written body lays it out. -/
def Layout.Row.renumbered (place : InstrId → InstrId) (r : Row) : Row :=
  ⟨place r.id, ⟨r.opcode, r.instruction.operand.map place, some r.offset, r.offset⟩, r.opcode,
    r.offset⟩

theorem order_renumbered {m : Method} (ordered : m.Ordered) :
    m.renumbered.order = List.range m.renumbered.stock.size := by
  show List.range m.order.length = List.range (m.sequence.map _).toArray.size
  rw [ordered.sequence_eq]
  simp

section
variable {m : Method} {l : Layout} (lays : Lays m l) (ordered : m.Ordered)

include lays ordered

/-! ## The instructions -/

theorem sequence_renumbered : (m.place l).renumbered.sequence = l.rows.map fun r =>
    ((r.renumbered m.order.idxOf).id, (r.renumbered m.order.idxOf).instruction) := by
  have range := order_renumbered (ordered.place l)
  refine eq_of_map_fst_snd ?_ ?_
  · rw [(Method.ordered_of_range range).sequence_ids, List.map_map]
    show List.range m.order.length = _
    rw [← map_idxOf_self ordered.nodup, ← lays.ids ordered, List.map_map]
    rfl
  · rw [Method.sequence_of_range range, List.map_map]
    show ((m.place l).sequence.map _) = _
    rw [Method.sequence_place lays ordered, List.map_map]
    rfl

/-- In the renumbered method an instruction has its place as its id. -/
theorem instruction?_renumbered {r : Row} (hr : r ∈ l.rows) :
    (m.place l).renumbered.instruction? (m.order.idxOf r.id)
      = some (r.renumbered m.order.idxOf).instruction := by
  refine (Method.ordered_of_range (order_renumbered (ordered.place l))).mem_sequence.1 ?_
  rw [sequence_renumbered lays ordered]
  exact List.mem_map_of_mem hr

/-- The targets of an instruction have places. -/
theorem targets_placed {r : Row} (hr : r ∈ l.rows) :
    ∀ t ∈ r.instruction.operand.targets, t ∈ m.order :=
  ((Method.validate_iff ordered).1 lays.valid).1 _ (lays.mem_sequence hr)

omit lays ordered in
theorem mem_order_renumbered {t : InstrId} (ht : t ∈ m.order) :
    m.order.idxOf t ∈ (m.place l).renumbered.order ∧
      (m.place l).renumbered.order.idxOf (m.order.idxOf t) = m.order.idxOf t := by
  have lt := List.idxOf_lt_length_of_mem ht
  exact ⟨List.mem_range.2 lt, idxOf_range lt⟩

omit lays in
theorem find?_renumbered {t : InstrId} (ht : t ∈ m.order) :
    (m.place l).renumbered.places.find? (m.order.idxOf t) = some (m.order.idxOf t) := by
  have range := order_renumbered (ordered.place l)
  obtain ⟨mem, place⟩ := mem_order_renumbered ht
  rw [Method.find?_places_of_mem (Method.ordered_of_range range) mem, place]

omit lays ordered in
theorem Method.RegionValid.renumbered {start : InstrId} {stop : Option InstrId}
    (valid : m.RegionValid start stop) (hstart : start ∈ m.order) (hstop : ∀ id ∈ stop, id ∈ m.order) :
    (m.place l).renumbered.RegionValid (m.order.idxOf start) (stop.map m.order.idxOf) := by
  unfold Method.RegionValid at valid ⊢
  rw [(mem_order_renumbered hstart).2]
  cases stop with
  | none =>
    show _ < (List.range m.order.length).length
    rwa [List.length_range]
  | some id =>
    show _ < (m.place l).renumbered.order.idxOf (m.order.idxOf id)
    rwa [(mem_order_renumbered (hstop id rfl)).2]

omit lays ordered in
/-- A handler that leads to instructions of the method leads to them by their numbers. -/
theorem Method.HandlerValid.renumbered {h : Handler} (valid : m.HandlerValid h) :
    (m.place l).renumbered.HandlerValid (h.renumbered m.order.idxOf) := by
  obtain ⟨tryStart, tryEnd, handlerStart, handlerEnd, filterStart⟩ :=
    Handler.forall_boundaries.1 valid.boundaries
  have inside : ∀ {id?: Option InstrId}, (∀ id ∈ id?, id ∈ m.order) →
      ∀ id ∈ id?.map m.order.idxOf, id ∈ (m.place l).renumbered.order := by
    intro id? all place hplace
    obtain ⟨id, hid, rfl⟩ := Option.map_eq_some_iff.1 hplace
    exact (mem_order_renumbered (all id hid)).1
  refine ⟨?_, valid.tryRegion.renumbered tryStart tryEnd,
    valid.handlerRegion.renumbered handlerStart handlerEnd, ?_⟩
  · refine Handler.forall_boundaries.2 ⟨(mem_order_renumbered tryStart).1, inside tryEnd,
      (mem_order_renumbered handlerStart).1, inside handlerEnd, ?_⟩
    simp only [Handler.renumbered]
    split
    · exact inside filterStart
    · exact fun id hid => by cases hid
  · intro filter
    have filter : h.isFilter = true := filter
    obtain ⟨f, hf⟩ := Option.isSome_iff_exists.1 (valid.filter filter)
    simp [Handler.renumbered, filter, hf]

/-- **The renumbered method is valid.** -/
theorem valid_renumbered : (m.place l).renumbered.validate = .ok () := by
  have range := order_renumbered (ordered.place l)
  obtain ⟨-, handlers⟩ := (Method.validate_iff ordered).1 lays.valid
  refine (Method.validate_iff (Method.ordered_of_range range)).2 ⟨?_, ?_⟩
  · rw [sequence_renumbered lays ordered]
    intro p hp t ht
    obtain ⟨r, hr, rfl⟩ := List.mem_map.1 hp
    simp only [Row.renumbered, Instruction.targets, Operand.targets_map] at ht
    obtain ⟨u, hu, rfl⟩ := List.mem_map.1 ht
    exact (mem_order_renumbered (targets_placed lays ordered hr u hu)).1
  · intro h' hh'
    obtain ⟨h, hh, rfl⟩ := List.mem_map.1 hh'
    exact (handlers h hh).renumbered

/-! ## Relaxation -/

/-- An instruction of the body is to relaxation what it was. -/
theorem pieceOf_renumbered {r : Row} (hr : r ∈ l.rows) :
    pieceOf (m.place l).renumbered.places (r.renumbered m.order.idxOf).instruction
      = pieceOf m.places r.instruction := by
  have found : ∀ t ∈ r.instruction.operand.targets, m.places.find? t = some (m.order.idxOf t) ∧
      (m.place l).renumbered.places.find? (m.order.idxOf t) = some (m.order.idxOf t) := by
    intro t ht
    have mem := targets_placed lays ordered hr t ht
    exact ⟨Method.find?_places_of_mem ordered mem, find?_renumbered ordered mem⟩
  obtain ⟨long, form⟩ := lays.forms r hr
  cases ho : r.instruction.operand with
  | target t =>
    obtain ⟨before, after⟩ := found t (by simp [ho, Operand.targets])
    by_cases hb : (r.instruction.opcode.isShortBranch || r.instruction.opcode.isLongBranch) = true
    · have branch : (r.opcode.isShortBranch || r.opcode.isLongBranch) = true := by
        obtain ⟨⟨-, short, -⟩, -, -, wide, -⟩ := OpCode.forms_of_branch hb
        rw [form]
        cases long <;> simp [opcodeOf, pieceOf, ho, hb, short, wide]
      simp [pieceOf, Row.renumbered, ho, Operand.map, hb, branch, before, after]
    · have same : r.opcode = r.instruction.opcode := by
        rw [form]
        simp [opcodeOf, pieceOf, ho, hb]
      simp [pieceOf, Row.renumbered, ho, Operand.map, same, hb, Instruction.size,
        Instruction.sizeWith, Operand.size]
  | _ =>
    have same : r.opcode = r.instruction.opcode := by
      rw [form]
      simp [opcodeOf, pieceOf, ho]
    simp [pieceOf, Row.renumbered, ho, Operand.map, same, Instruction.size,
      Instruction.sizeWith, Operand.size]

/-- **Relaxation gets the same pieces.** -/
theorem piecesOf_renumbered : piecesOf (m.place l).renumbered = piecesOf m := by
  unfold piecesOf
  rw [sequence_renumbered lays ordered, ← lays.sequence, List.map_map, List.map_map]
  exact List.map_congr_left fun r hr => pieceOf_renumbered lays ordered hr

end

/-- The opcode that a form of a branch gets is that of the branch. -/
theorem opcodeOf_renumbered {places : Locator} (place : InstrId → InstrId) {r : Row} {s : Slot}
    (piece : s.piece = pieceOf places r.instruction) (form : r.opcode = opcodeOf r.instruction s) :
    opcodeOf (r.renumbered place).instruction s = r.opcode := by
  obtain ⟨piece', long⟩ := s
  simp only at piece
  subst piece
  show opcodeOf ⟨r.opcode, _, _, _⟩ _ = r.opcode
  cases ho : r.instruction.operand with
  | target t =>
    by_cases hb : (r.instruction.opcode.isShortBranch || r.instruction.opcode.isLongBranch) = true
    · obtain ⟨short, -, -, wide⟩ := OpCode.forms_of_form hb
      cases long with
      | false =>
        simp only [opcodeOf, pieceOf, ho, hb, if_true, Bool.false_eq_true, if_false] at form ⊢
        rw [form, short]
      | true =>
        simp only [opcodeOf, pieceOf, ho, hb, if_true] at form ⊢
        rw [form, wide]
    · simp [opcodeOf, pieceOf, ho, hb]
  | _ => simp [opcodeOf, pieceOf, ho]

theorem rowsFrom_renumbered {places : Locator} {p : Nat} {seq : List (InstrId × Instruction)}
    {ss : List Slot} (place : InstrId → InstrId)
    (pieces : ss.map (·.piece) = seq.map fun e => pieceOf places e.2) :
    rowsFrom p ((rowsFrom p seq ss).map fun r =>
        ((r.renumbered place).id, (r.renumbered place).instruction)) ss
      = (rowsFrom p seq ss).map (Row.renumbered place) := by
  induction ss generalizing p seq with
  | nil => cases seq <;> rfl
  | cons s ss ih =>
    cases seq with
    | nil => cases pieces
    | cons e seq =>
      obtain ⟨id, i⟩ := e
      simp only [List.map_cons, List.cons.injEq] at pieces
      have opcode := opcodeOf_renumbered place (r := ⟨id, i, opcodeOf i s, p⟩) pieces.1 rfl
      rw [rowsFrom, List.map_cons, rowsFrom, opcode, ih pieces.2]
      rfl

section
variable {m : Method} {l : Layout} (hl : m.layout = .ok l) (ordered : m.Ordered)

include hl ordered

/-- **The layout of the renumbered method** is the same. -/
theorem layout_renumbered : ∃ l', (m.place l).renumbered.layout = .ok l' ∧
    l'.rows = l.rows.map (Row.renumbered m.order.idxOf) ∧ l'.codeSize = l.codeSize ∧
    ∀ t ∈ m.order, l'.offsetOf? (m.order.idxOf t) = l.offsetOf? t := by
  have lays := lays_of_layout hl
  obtain ⟨-, ss, hs, rfl⟩ := Method.layout_iff.1 hl
  have pieces := (solve_spec hs).1
  refine ⟨layoutOf (m.place (layoutOf m ss)).renumbered ss, Method.layout_iff.2
    ⟨valid_renumbered lays ordered, ss, ?_, rfl⟩, ?_, rfl, fun t ht => ?_⟩
  · rw [piecesOf_renumbered lays ordered, hs]
  · show rowsFrom 0 (m.place (layoutOf m ss)).renumbered.sequence ss = _
    rw [sequence_renumbered lays ordered]
    exact rowsFrom_renumbered _ pieces
  · show ((m.place (layoutOf m ss)).renumbered.places.find? (m.order.idxOf t)).bind _ = _
    rw [find?_renumbered ordered ht]
    show _ = (m.places.find? t).bind _
    rw [Method.find?_places_of_mem ordered ht]
    rfl

end

/-! ## The bytes -/

section
variable {m : Method} {l l' : Layout} (lays : Lays m l) (ordered : m.Ordered)
  (rows : l'.rows = l.rows.map (Row.renumbered m.order.idxOf)) (codeSize : l'.codeSize = l.codeSize)
  (offsets : ∀ t ∈ m.order, l'.offsetOf? (m.order.idxOf t) = l.offsetOf? t)

theorem next_renumbered (r : Row) (place : InstrId → InstrId) : (r.renumbered place).next = r.next := by
  simp [Row.next, Row.renumbered, Instruction.sizeWith]

theorem isShort_renumbered (r : Row) (place : InstrId → InstrId) :
    (r.renumbered place).isShort = r.isShort := by
  obtain ⟨id, ⟨opcode, operand, origin, offset⟩, opcode', offset'⟩ := r
  cases operand <;> rfl

include offsets in
theorem offset_renumbered {t : InstrId} (ht : t ∈ m.order) :
    l'.offset (m.order.idxOf t) = l.offset t := by
  rw [offset, offset, offsets t ht]

include lays ordered offsets in
theorem codedOf_renumbered {r : Row} (hr : r ∈ l.rows) :
    l'.codedOf (r.renumbered m.order.idxOf) = l.codedOf r := by
  have same : ∀ t ∈ r.instruction.operand.targets,
      (l'.offset (m.order.idxOf t) : Int) - ((r.renumbered m.order.idxOf).next : Int)
        = (l.offset t : Int) - (r.next : Int) := by
    intro t ht
    rw [offset_renumbered offsets (targets_placed lays ordered hr t ht), next_renumbered]
  show (⟨r.opcode, (r.instruction.operand.map _).map _⟩ : Coded) = _
  rw [Operand.map_map]
  exact congrArg (Coded.mk r.opcode) (Operand.map_congr same)

include lays ordered rows offsets in
/-- **The code** is the same. -/
theorem code_renumbered {code : Bytes} (h : l.code = .ok code) : l'.code = .ok code := by
  obtain ⟨reaches, rfl⟩ := (l.code_iff code).1 h
  refine (l'.code_iff _).2 ⟨?_, ?_⟩
  · rw [rows]
    intro r' hr'
    obtain ⟨r, hr, rfl⟩ := List.mem_map.1 hr'
    intro u hu
    simp only [Row.renumbered, Operand.targets_map] at hu
    obtain ⟨t, ht, rfl⟩ := List.mem_map.1 hu
    have placed := targets_placed lays ordered hr t ht
    rw [offsets t placed, offset_renumbered offsets placed, next_renumbered, isShort_renumbered]
    exact reaches r hr t ht
  · rw [rows, List.flatMap_map]
    exact (List.flatMap_congr fun r hr => by rw [codedOf_renumbered lays ordered offsets hr]).symm

include codeSize offsets in
theorem region_renumbered {start : InstrId} {stop : Option InstrId} (hstart : start ∈ m.order)
    (hstop : ∀ id ∈ stop, id ∈ m.order) {r : Nat × Nat} (h : l.region start stop = .ok r) :
    l'.region (m.order.idxOf start) (stop.map m.order.idxOf) = .ok r := by
  have last : l'.endOf? (stop.map m.order.idxOf) = l.endOf? stop := by
    cases stop with
    | none => exact congrArg some codeSize
    | some id => exact offsets id (hstop id rfl)
  unfold region at h ⊢
  rw [offsets start hstart, last]
  cases hs : l.offsetOf? start with
  | none =>
    rw [hs] at h
    cases h
  | some s =>
    cases he : l.endOf? stop with
    | none =>
      rw [hs, he] at h
      cases h
    | some e =>
      rw [hs, he] at h
      simp only at h ⊢
      split at h
      · rename_i lt
        rw [if_pos lt]
        exact h
      · cases h

include offsets in
theorem filterOrType_renumbered {h : Handler} (valid : m.HandlerValid h) {v : UInt32}
    (hv : l.filterOrType h = .ok v) : l'.filterOrType (h.renumbered m.order.idxOf) = .ok v := by
  have flag : (h.renumbered m.order.idxOf).isFilter = h.isFilter := rfl
  unfold filterOrType at hv ⊢
  rw [flag]
  cases filter : h.isFilter with
  | true =>
    obtain ⟨f, hf⟩ := Option.isSome_iff_exists.1 (valid.filter filter)
    have mem := (Handler.forall_boundaries.1 valid.boundaries).2.2.2.2 f hf
    simp only [filter, hf, if_true] at hv
    simp only [Handler.renumbered, filter, hf, if_true, Option.map_some, offsets f mem]
    cases ho : l.offsetOf? f with
    | none =>
      rw [ho] at hv
      cases hv
    | some o =>
      rw [ho] at hv
      exact hv
  | false =>
    simp only [filter, Bool.false_eq_true, if_false] at hv
    simp only [Handler.renumbered, filter, Bool.false_eq_true, if_false]
    cases hf : h.filterStart with
    | none =>
      rw [hf] at hv
      exact hv
    | some f =>
      rw [hf] at hv
      exact hv

include lays ordered codeSize offsets in
/-- **The clauses** are the same. -/
theorem clause_renumbered {h : Handler} (hh : h ∈ m.handlers) {c : Clause}
    (hc : l.clause h = .ok c) : l'.clause (h.renumbered m.order.idxOf) = .ok c := by
  have valid := ((Method.validate_iff ordered).1 lays.valid).2 h hh
  obtain ⟨tryStart, tryEnd, handlerStart, handlerEnd, -⟩ :=
    Handler.forall_boundaries.1 valid.boundaries
  unfold clause at hc
  obtain ⟨tried, ht, hc⟩ := bind_ok.1 hc
  obtain ⟨handler, hr, hc⟩ := bind_ok.1 hc
  obtain ⟨last, hf, hc⟩ := bind_ok.1 hc
  have ht' := region_renumbered codeSize offsets tryStart tryEnd ht
  have hr' := region_renumbered codeSize offsets handlerStart handlerEnd hr
  have hf' := filterOrType_renumbered offsets valid hf
  exact bind_ok.2 ⟨tried, ht', bind_ok.2 ⟨handler, hr', bind_ok.2 ⟨last, hf', hc⟩⟩⟩

end

/-! ## The whole body -/

/-- Placing the renumbered method changes nothing. -/
theorem place_renumbered {m : Method} {l l' : Layout} (ordered : m.Ordered)
    (lays' : Lays (m.place l).renumbered l')
    (rows : l'.rows = l.rows.map (Row.renumbered m.order.idxOf)) :
    (m.place l).renumbered.place l' = (m.place l).renumbered := by
  have ordered' := Method.ordered_of_range (order_renumbered (ordered.place l))
  refine Method.place_self lays' ordered' fun r' hr' => ?_
  rw [rows] at hr'
  obtain ⟨r, -, rfl⟩ := List.mem_map.1 hr'
  rfl

/-- **A written body is written the same way again.** -/
theorem encode_renumbered {m m' : Method} {compact : Bool} {bytes : Bytes} (ordered : m.Ordered)
    (encoded : m.encode compact = .ok (bytes, m')) :
    m'.renumbered.encode compact = .ok (bytes, m'.renumbered) := by
  obtain ⟨l, cs, code, hl, hc, hcode, size, rfl, rfl⟩ := Method.encode_iff.1 encoded
  have lays := lays_of_layout hl
  obtain ⟨l', hl', rows, codeSize, offsets⟩ := layout_renumbered hl ordered
  have clauses : (m.place l).renumbered.handlers.mapM l'.clause = .ok cs := by
    refine mapM_ok.2 ?_
    show List.Forall₂ _ (m.handlers.map _) cs
    rw [List.forall₂_map_left_iff]
    have all := (List.forall₂_and_left _ _).2 ⟨fun h (hh : h ∈ m.handlers) => hh, mapM_ok.1 hc⟩
    exact all.imp fun h c hc => clause_renumbered lays ordered codeSize offsets hc.1 hc.2
  have header : l'.header (m.place l).renumbered cs = l.header m cs := by
    unfold Layout.header Header.forBody
    rw [codeSize]
    show _ = _
    simp [Method.renumbered, Method.place]
  refine Method.encode_iff.2 ⟨l', cs, code, hl', clauses,
    code_renumbered lays ordered rows offsets hcode, size, ?_,
    (place_renumbered ordered (lays_of_layout hl') rows).symm⟩
  rw [header]
  unfold Layout.tail
  rw [codeSize]

/-- What a body can state of a method. -/
structure Method.Writable (m : Method) : Prop where
  ordered : m.Ordered
  kinded : m.Kinded
  nonNull : m.locals ≠ some .null
  known : ∀ h ∈ m.handlers, h.flags.masked = h.flags

/-- **A writable method comes back from its body**, and the body from the method. -/
theorem decode_again {m m' : Method} {compact : Bool} {bytes : Bytes} (writable : m.Writable)
    (encoded : m.encode compact = .ok (bytes, m')) : Method.decode bytes = .ok m'.renumbered ∧
      m'.renumbered.encode compact = .ok (bytes, m'.renumbered) :=
  ⟨decode_written writable.ordered writable.kinded writable.nonNull writable.known encoded,
    encode_renumbered writable.ordered encoded⟩

theorem nonNull?_ne_null (t : Token) : t.nonNull? ≠ some .null := by
  unfold Token.nonNull?
  split
  · nofun
  · rename_i nonNull
    rw [ne_eq, Option.some.injEq]
    intro e
    rw [e] at nonNull
    exact nonNull rfl

/-- A decoded method is writable. -/
theorem writable_of_decode {body : Bytes} {m : Method} (decoded : Method.decode body = .ok m) :
    m.Writable := by
  have range := Method.decode_order decoded
  obtain ⟨h, ps, cs, isBody, rfl⟩ := (decode_iff body m).1 decoded
  refine ⟨Method.ordered_of_range range, fun p hp => ?_, ?_, fun handler hh => ?_⟩
  · have mem : p.2 ∈ ps.map (Placed.linked ps) := by
      rw [← Method.sequence_linked h ps cs]
      exact List.mem_map_of_mem hp
    obtain ⟨q, hq, e⟩ := List.mem_map.1 mem
    obtain ⟨⟨info, hi, hk, -⟩, -⟩ := isBody.tiled.stands q hq
    rw [← e]
    exact ⟨info, hi, Operand.hasKind_map.2 hk⟩
  · exact nonNull?_ne_null h.locals
  · obtain ⟨c, hc, rfl⟩ := List.mem_map.1 hh
    have sections := isBody.sections
    split at sections
    · obtain ⟨bs, chain, -⟩ := sections
      exact chain.masked c hc
    · rw [sections] at hc
      cases hc

end CilProbes
