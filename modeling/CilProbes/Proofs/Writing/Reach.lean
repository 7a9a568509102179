import CilProbes.Proofs.Writing.Body
import CilProbes.Proofs.Writing.Widths

/-!
# What a layout promises to the writer

A valid method is checked by the places of its instructions, but it is written by their offsets.
Offsets grow with the places, so nothing that the check lets through fails later:

* `Lays.region_valid`, `Lays.clause_valid`: every region has an extent and every clause its numbers.
* `reaches_of_layout`: every displacement fits its field.
* `draft_of_layout`: so a method with a layout has clauses and code, and the clauses state the
  offsets as they are.
-/

namespace CilProbes

open Relax

namespace Layout

/-! ## Offsets grow -/

theorem Row.offset_lt_next (r : Row) : r.offset < r.next :=
  Nat.lt_add_of_pos_right (Nat.lt_of_lt_of_le r.opcode.size_pos (Nat.le_add_right ..))

theorem Run.le_offset {p stop : Nat} {rs : List Row} (h : Run p rs stop) : ∀ r ∈ rs, p ≤ r.offset := by
  induction h with
  | nil p => intro r hr; cases hr
  | @cons p stop r rs hp _ ih =>
    intro r' hr'
    have := r.offset_lt_next
    rcases List.mem_cons.1 hr' with rfl | hr'
    · omega
    · have := ih r' hr'
      omega

theorem Run.pairwise {p stop : Nat} {rs : List Row} (h : Run p rs stop) :
    rs.Pairwise fun r r' => r.next ≤ r'.offset := by
  induction h with
  | nil p => exact .nil
  | cons _ hrs ih => exact .cons hrs.le_offset ih

section
variable {m : Method} {l : Layout} (lays : Lays m l) (ordered : m.Ordered)

include lays ordered

theorem Lays.offsetOf?_mem {id : InstrId} (h : id ∈ m.order) :
    l.offsetOf? id = some (l.offset id) ∧ l.offset id < l.codeSize := by
  obtain ⟨k, r, hk, rfl⟩ := lays.exists_row ordered h
  have at_row := (lays.offsetOf?_row ordered hk).1
  have := lays.run.next_le.2 r (List.mem_of_getElem? hk)
  have := r.offset_lt_next
  rw [offset, at_row]
  exact ⟨rfl, by simp only [Option.getD_some]; omega⟩

/-- **Offsets grow with the places.** -/
theorem Lays.offset_lt {a b : InstrId} (ha : a ∈ m.order) (hb : b ∈ m.order)
    (h : m.order.idxOf a < m.order.idxOf b) : l.offset a < l.offset b := by
  obtain ⟨j, r, hj, rfl⟩ := lays.exists_row ordered ha
  obtain ⟨k, r', hk, rfl⟩ := lays.exists_row ordered hb
  obtain ⟨at_j, place⟩ := lays.offsetOf?_row ordered hj
  obtain ⟨at_k, place'⟩ := lays.offsetOf?_row ordered hk
  obtain ⟨ltj, rfl⟩ := List.getElem?_eq_some_iff.1 hj
  obtain ⟨ltk, rfl⟩ := List.getElem?_eq_some_iff.1 hk
  have := List.pairwise_iff_getElem.1 lays.run.pairwise j k ltj ltk (by omega)
  have := l.rows[j].offset_lt_next
  simp only [offset, at_j, at_k, Option.getD_some]
  omega

/-! ## Clauses -/

theorem Lays.region_valid {start : InstrId} {stop : Option InstrId} (hstart : start ∈ m.order)
    (hstop : ∀ id ∈ stop, id ∈ m.order) (valid : m.RegionValid start stop) :
    ∃ r, l.region start stop = .ok r ∧ r.1 + r.2 ≤ l.codeSize := by
  obtain ⟨at_start, lt⟩ := lays.offsetOf?_mem ordered hstart
  cases stop with
  | none =>
    refine ⟨(l.offset start, l.codeSize - l.offset start), ?_, by simp only; omega⟩
    simp only [region, at_start, endOf?, lt, if_true]
  | some id =>
    obtain ⟨at_stop, lt'⟩ := lays.offsetOf?_mem ordered (hstop id rfl)
    have before : l.offset start < l.offset id := lays.offset_lt ordered hstart (hstop id rfl) valid
    refine ⟨(l.offset start, l.offset id - l.offset start), ?_, by simp only; omega⟩
    simp only [region, at_start, endOf?, at_stop, before, if_true]

/-- **A clause that states the offsets of a handler as they are**, with nothing cut off. -/
structure States (l : Layout) (h : Handler) (c : Clause) : Prop where
  flags : c.flags = h.flags
  tryRegion : l.region h.tryStart h.tryEnd = .ok (c.tryOffset.toNat, c.tryLength.toNat)
  handlerRegion :
    l.region h.handlerStart h.handlerEnd = .ok (c.handlerOffset.toNat, c.handlerLength.toNat)
  filter : ∀ f, h.filterStart = some f → h.isFilter = true →
    l.offsetOf? f = some c.filterOrType.toNat
  token : h.isFilter = false → c.filterOrType = h.classToken.value

theorem Lays.clause_valid {h : Handler} (valid : m.HandlerValid h) :
    ∃ c, l.clause h = .ok c ∧ l.States h c := by
  obtain ⟨tryStart, tryEnd, handlerStart, handlerEnd, filterStart⟩ :=
    Handler.forall_boundaries.1 valid.boundaries
  obtain ⟨⟨tryOffset, tryLength⟩, htry, tryFits⟩ :=
    lays.region_valid ordered tryStart tryEnd valid.tryRegion
  obtain ⟨⟨handlerOffset, handlerLength⟩, hhandler, handlerFits⟩ :=
    lays.region_valid ordered handlerStart handlerEnd valid.handlerRegion
  have limit := lays.limit
  simp only [codeLimit] at tryFits handlerFits limit
  have exact_ : ∀ n, n ≤ l.codeSize → (UInt32.ofNat n).toNat = n := by
    intro n hn
    rw [UInt32.toNat_ofNat']
    omega
  obtain ⟨v, hv, filter, token⟩ : ∃ v, l.filterOrType h = .ok v ∧
      (∀ f, h.filterStart = some f → h.isFilter = true → l.offsetOf? f = some v.toNat) ∧
      (h.isFilter = false → v = h.classToken.value) := by
    unfold filterOrType
    cases hf : h.filterStart with
    | none => exact ⟨_, rfl, (fun f e => by cases e), fun _ => rfl⟩
    | some f =>
      cases isFilter : h.isFilter with
      | false => exact ⟨_, rfl, (fun _ _ e => by cases e), fun _ => rfl⟩
      | true =>
        obtain ⟨at_f, lt⟩ := lays.offsetOf?_mem ordered (filterStart f hf)
        simp only [if_true, at_f]
        refine ⟨_, rfl, ?_, fun e => by cases e⟩
        intro f' e _
        cases e
        rw [at_f, exact_ _ (Nat.le_of_lt lt)]
  refine ⟨⟨h.flags, .ofNat tryOffset, .ofNat tryLength, .ofNat handlerOffset, .ofNat handlerLength,
    v⟩, ?_, rfl, ?_, ?_, filter, token⟩
  · unfold clause
    rw [htry, hhandler, hv]
    rfl
  · rw [htry, exact_ _ (by omega), exact_ _ (by omega)]
  · rw [hhandler, exact_ _ (by omega), exact_ _ (by omega)]

end

theorem clauses_valid {m : Method} {l : Layout} (lays : Lays m l) (ordered : m.Ordered) :
    ∃ cs, m.handlers.mapM l.clause = .ok cs ∧ List.Forall₂ l.States m.handlers cs := by
  have valid := ((Method.validate_iff ordered).1 lays.valid).2
  generalize m.handlers = hs at valid
  induction hs with
  | nil => exact ⟨[], rfl, .nil⟩
  | cons h hs ih =>
    obtain ⟨hh, hhs⟩ := List.forall_mem_cons.1 valid
    obtain ⟨c, hc, states⟩ := lays.clause_valid ordered hh
    obtain ⟨cs, hcs, all⟩ := ih hhs
    exact ⟨c :: cs, mapM_ok.2 (.cons hc (mapM_ok.1 hcs)), .cons states all⟩

/-! ## Displacements -/

/-- A target of one byte belongs to a branch in its short form. -/
theorem short_of_slot {places : Locator} {i : Instruction} {t : InstrId} {long : Bool}
    (ho : i.operand = .target t)
    (short : (opcodeOf i ⟨pieceOf places i, long⟩).isShortBranch = true) :
    (i.opcode.isShortBranch || i.opcode.isLongBranch) = true ∧ long = false := by
  by_cases branch : (i.opcode.isShortBranch || i.opcode.isLongBranch) = true
  · refine ⟨branch, ?_⟩
    obtain ⟨-, -, wide, -⟩ := OpCode.forms_of_branch branch
    cases long with
    | false => rfl
    | true =>
      simp only [opcodeOf, pieceOf, ho, branch, if_true] at short
      simp [wide] at short
  · rw [Bool.not_eq_true] at branch
    simp only [opcodeOf, pieceOf, ho, branch, Bool.false_eq_true, if_false] at short
    simp [short] at branch

section
variable {m : Method} {l : Layout} (ordered : m.Ordered) (hl : m.layout = .ok l)

include ordered hl

/-- Where the rows of a layout stand, and in which slots of a settled choice. -/
theorem rows_settled : ∃ w, Settled (m.slotsIn w) ∧ ∀ (k : Nat) (r : Row), l.rows[k]? = some r →
    (m.slotsIn w)[k]? = some ⟨pieceOf m.places r.instruction, w r.id⟩ ∧
    r.opcode = opcodeOf r.instruction ⟨pieceOf m.places r.instruction, w r.id⟩ ∧
    r.offset = total ((m.slotsIn w).take k) := by
  obtain ⟨w, rfl, settled, -, -⟩ := layout_settled ordered hl
  refine ⟨w, settled, fun k r hk => ?_⟩
  obtain ⟨s, hseq, hs, opcode, offset⟩ := getElem?_rowsFrom hk
  have slot := hs
  rw [Method.slotsIn, List.getElem?_map, hseq, Option.map_some, Option.some.injEq] at slot
  subst slot
  exact ⟨hs, opcode, by omega⟩

/-- **Every displacement fits its field**: a short one because its branch has settled, any other
because the code is within the limit. -/
theorem reaches_of_layout : ∀ r ∈ l.rows, l.Reaches r := by
  have lays := lays_of_layout hl
  obtain ⟨w, settled, row⟩ := rows_settled ordered hl
  intro r hr t ht
  have mem := lays.mem_sequence hr
  have placed := ((Method.validate_iff ordered).1 lays.valid).1 _ mem t ht
  obtain ⟨at_t, lt⟩ := lays.offsetOf?_mem ordered placed
  refine ⟨by rw [at_t]; rfl, ?_⟩
  cases hs : r.isShort with
  | false =>
    have := lays.run.next_le.2 r hr
    have := lays.limit
    simp only [Displacement.Fits, Bool.false_eq_true, if_false, codeLimit] at *
    omega
  | true =>
    obtain ⟨k, hk⟩ := List.mem_iff_getElem?.1 hr
    obtain ⟨slot, opcode, offset⟩ := row k r hk
    obtain ⟨short, ho⟩ : r.opcode.isShortBranch = true ∧ r.instruction.operand = .target t := by
      unfold Row.isShort at hs
      rw [Bool.and_eq_true] at hs
      cases ho : r.instruction.operand with
      | target t' =>
        rw [ho] at ht
        rw [List.mem_singleton.1 ht]
        exact ⟨hs.1, rfl⟩
      | _ => simp [ho] at hs
    obtain ⟨branch, narrow⟩ := short_of_slot ho (opcode ▸ short)
    have size : r.instruction.sizeWith r.opcode = shortSize := by
      obtain ⟨⟨one, -⟩, -⟩ := OpCode.forms_of_branch branch
      simp only [opcodeOf, pieceOf, ho, branch, narrow, if_true, Bool.false_eq_true,
        if_false] at opcode
      rw [← opcode] at one
      simp [Instruction.sizeWith, Operand.size, ho, short, one, shortSize]
    rw [(pieceOf_target ordered lays.valid mem ho branch).1, narrow] at slot
    -- The slot reaches the slot of the target, and both stand where the rows stand.
    obtain ⟨k', r', hk', rfl⟩ := lays.exists_row ordered placed
    obtain ⟨at_t', place⟩ := lays.offsetOf?_row ordered hk'
    obtain ⟨slot', -, offset'⟩ := row k' r' hk'
    have lt' : k' < (m.slotsIn w).length := (List.getElem?_eq_some_iff.1 slot').1
    have reach := settled k _ slot
    rw [place, ShortReaches, landing, if_pos lt', ← offset', ← offset] at reach
    rw [Displacement.Fits, if_pos rfl, Layout.offset, at_t', Option.getD_some, Row.next, size]
    exact reach

end

end Layout

/-- **A method with a layout can be written**: its clauses state the offsets as they are, and its
code is there and as long as the layout says. -/
theorem draft_of_layout {m : Method} {l : Layout} (ordered : m.Ordered) (hl : m.layout = .ok l) :
    ∃ cs code, m.handlers.mapM l.clause = .ok cs ∧ List.Forall₂ l.States m.handlers cs ∧
      l.code = .ok code ∧ code.length = l.codeSize ∧
      m.draft = .ok ⟨l, cs, l.header m cs⟩ := by
  have lays := Layout.lays_of_layout hl
  obtain ⟨cs, hc, states⟩ := Layout.clauses_valid lays ordered
  exact ⟨cs, _, hc, states, (l.code_iff _).2 ⟨Layout.reaches_of_layout ordered hl, rfl⟩,
    lays.length_code, Method.draft_iff.2 ⟨l, cs, hl, hc, rfl⟩⟩

end CilProbes
