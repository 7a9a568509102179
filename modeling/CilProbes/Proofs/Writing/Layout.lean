import CilProbes.Layout
import CilProbes.Proofs.Method.Built
import CilProbes.Proofs.Reading.Instruction

/-!
# Layouts

A layout is a row of instructions in the order of the method, each in one of its forms and right
behind the one before. Which form a branch gets is the business of relaxation and does not matter
here: a displacement is checked once more when it is written.

* `layout_iff`: the layout of a valid method is `layoutOf` the slots that relaxation settles on.
* `Lays m l`: what a layout `l` of `m` is, with `lays_of_layout`.
* `Lays.offsetOf?_row`: an instruction is at the offset of its row.
-/

namespace CilProbes

/-! ## The two forms of a branch -/

namespace OpCode

/-- Both forms of a branch are branches of one byte, one short and one long, and the table asks for
a displacement of the width of the form. -/
theorem forms_of_branch {op : OpCode} (h : (op.isShortBranch || op.isLongBranch) = true) :
    (op.shortForm.size = 1 ∧ op.shortForm.isShortBranch = true ∧
      op.shortForm.info?.map (·.operand) = some .shortBranch) ∧
    (op.longForm.size = 1 ∧ op.longForm.isShortBranch = false ∧ op.longForm.isLongBranch = true ∧
      op.longForm.info?.map (·.operand) = some .branch) := by
  cases op with
  | single c =>
    revert h
    obtain ⟨⟨c⟩⟩ := c
    revert c
    decide +kernel
  | extended c => simp [isShortBranch, isLongBranch] at h

/-- A form of a branch has the same forms as the branch. -/
theorem forms_of_form {op : OpCode} (h : (op.isShortBranch || op.isLongBranch) = true) :
    op.shortForm.shortForm = op.shortForm ∧ op.shortForm.longForm = op.longForm ∧
      op.longForm.shortForm = op.shortForm ∧ op.longForm.longForm = op.longForm := by
  cases op with
  | single c =>
    revert h
    obtain ⟨⟨c⟩⟩ := c
    revert c
    decide +kernel
  | extended c => simp [isShortBranch, isLongBranch] at h

end OpCode

/-! ## Relaxation -/

namespace Relax

/-- How many bytes slots take together. -/
def total : List Slot → Nat
  | [] => 0
  | s :: ss => s.size + total ss

/-- The offsets of slots that stand one behind the other. -/
def offsetsFrom : Nat → List Slot → List Nat
  | _, [] => []
  | p, s :: ss => p :: offsetsFrom (p + s.size) ss

theorem placeFrom_eq (placed : Array Nat) (p : Nat) (ss : List Slot) :
    placeFrom placed p ss
      = (placed ++ (offsetsFrom p ss).toArray, p + total ss) := by
  induction ss generalizing placed p with
  | nil => simp [placeFrom, offsetsFrom, total]
  | cons s ss ih =>
    rw [placeFrom, ih]
    simp [offsetsFrom, total, Nat.add_assoc]

theorem place_eq (ss : List Slot) :
    place ss = ((offsetsFrom 0 ss).toArray, total ss) := by
  rw [place, placeFrom_eq]
  simp

theorem widen_pieces (offsets : Array Nat) (ss : List Slot) :
    (widen offsets ss).map (·.piece) = ss.map (·.piece) := by
  unfold widen
  refine List.ext_getElem (by simp) fun k _ _ => ?_
  simp only [List.getElem_map, List.getElem_mapIdx]
  split <;> rfl

/-- Widening changes forms alone, and the code stays below the limit. -/
theorem settle_spec {tries : Nat} {ss ss' : List Slot} (h : settle tries ss = .ok ss') :
    ss'.map (·.piece) = ss.map (·.piece) ∧ (place ss').2 ≤ codeLimit := by
  induction tries generalizing ss with
  | zero =>
    unfold settle at h
    simp only at h
    split at h
    · cases h
    · cases h
      exact ⟨rfl, by omega⟩
  | succ tries ih =>
    unfold settle at h
    simp only at h
    split at h
    · cases h
    · split at h
      · rw [← widen_pieces (place ss).1 ss]
        exact ih h
      · cases h
        exact ⟨rfl, by omega⟩

theorem solve_spec {pieces : List Piece} {ss : List Slot} (h : solve pieces = .ok ss) :
    ss.map (·.piece) = pieces ∧ total ss ≤ codeLimit := by
  obtain ⟨hp, hl⟩ := settle_spec h
  rw [place_eq] at hl
  refine ⟨?_, hl⟩
  rw [hp, List.map_map]
  exact List.map_id _

end Relax

/-! ## Rows -/

namespace Layout

open Relax

/-- A slot of an instruction takes as many bytes as the instruction with the opcode of the slot. -/
theorem size_of_slot {places : Locator} {i : Instruction} {s : Slot}
    (h : s.piece = pieceOf places i) : s.size = i.sizeWith (opcodeOf i s) := by
  obtain ⟨piece, long⟩ := s
  simp only at h
  subst h
  cases ho : i.operand with
  | target t =>
    by_cases hb : (i.opcode.isShortBranch || i.opcode.isLongBranch) = true
    · obtain ⟨⟨ss, sb, -⟩, ls, lb, -⟩ := OpCode.forms_of_branch hb
      cases long <;>
        simp [pieceOf, ho, hb, Slot.size, opcodeOf, Instruction.sizeWith, Operand.size, ss, sb, ls,
          lb, longSize, shortSize]
    · simp [pieceOf, ho, hb, Slot.size, opcodeOf, Instruction.size]
  | _ => simp [pieceOf, ho, Slot.size, opcodeOf, Instruction.size]

/-- The rows of instructions with their slots, from an offset on. -/
def rowsFrom : Nat → List (InstrId × Instruction) → List Slot → List Row
  | p, (id, i) :: seq, s :: ss => ⟨id, i, opcodeOf i s, p⟩ :: rowsFrom (p + s.size) seq ss
  | _, _, _ => []

theorem zip_rows (p : Nat) (seq : List (InstrId × Instruction)) (ss : List Slot) :
    ((seq.zip (ss.zip (offsetsFrom p ss))).map fun ((id, i), s, offset) =>
      (⟨id, i, opcodeOf i s, offset⟩ : Row)) = rowsFrom p seq ss := by
  induction ss generalizing p seq with
  | nil => cases seq <;> rfl
  | cons s ss ih =>
    cases seq with
    | nil => rfl
    | cons e seq =>
      obtain ⟨id, i⟩ := e
      simp only [offsetsFrom, List.zip_cons_cons, List.map_cons, rowsFrom, ← ih]

/-- Rows that stand one behind the other, from an offset up to another. -/
inductive Run : Nat → List Row → Nat → Prop
  | nil (p : Nat) : Run p [] p
  | cons {p stop : Nat} {r : Row} {rs : List Row} :
      r.offset = p → Run r.next rs stop → Run p (r :: rs) stop

/-- The layout of a method with the slots of its instructions. -/
def layoutOf (m : Method) (ss : List Slot) : Layout :=
  ⟨rowsFrom 0 m.sequence ss, total ss, m.places, (offsetsFrom 0 ss).toArray⟩

/-- **What a layout of a method is.** -/
structure Lays (m : Method) (l : Layout) : Prop where
  valid : m.validate = .ok ()
  sequence : l.rows.map (fun r => (r.id, r.instruction)) = m.sequence
  run : Run 0 l.rows l.codeSize
  forms : ∀ r ∈ l.rows, ∃ long, r.opcode
    = opcodeOf r.instruction ⟨pieceOf m.places r.instruction, long⟩
  offsets : l.offsets.toList = l.rows.map (·.offset)
  places : l.places = m.places
  limit : l.codeSize ≤ codeLimit

/-- The pieces of the instructions of a method. -/
def piecesOf (m : Method) : List Piece := m.sequence.map fun p => pieceOf m.places p.2

end Layout

open Layout Relax in
theorem Method.layout_iff {m : Method} {l : Layout} : m.layout = .ok l ↔
    m.validate = .ok () ∧ ∃ ss, solve (piecesOf m) = .ok ss ∧ l = layoutOf m ss := by
  unfold Method.layout
  rw [bind_ok]
  have rows : ∀ ss, (m.sequence.zip (ss.zip (Relax.place ss).1.toList)).map (fun ((id, i), s, offset) =>
      (⟨id, i, opcodeOf i s, offset⟩ : Row)) = rowsFrom 0 m.sequence ss := by
    intro ss
    rw [place_eq]
    exact zip_rows 0 m.sequence ss
  constructor
  · rintro ⟨⟨⟩, hv, h⟩
    refine ⟨hv, ?_⟩
    simp only at h
    cases hs : solve (piecesOf m) with
    | error size =>
      rw [piecesOf] at hs
      rw [hs] at h
      cases h
    | ok ss =>
      rw [piecesOf] at hs
      rw [hs] at h
      cases h
      refine ⟨ss, rfl, ?_⟩
      rw [layoutOf, rows, place_eq]
  · rintro ⟨hv, ss, hs, rfl⟩
    refine ⟨(), hv, ?_⟩
    rw [piecesOf] at hs
    simp only [hs]
    rw [layoutOf, rows, place_eq]
    rfl

namespace Layout

open Relax

section
variable {places : Locator} {p : Nat} {seq : List (InstrId × Instruction)} {ss : List Slot}
  (pieces : ss.map (·.piece) = seq.map fun e => pieceOf places e.2)

include pieces

theorem rowsFrom_sequence : (rowsFrom p seq ss).map (fun r => (r.id, r.instruction)) = seq := by
  induction ss generalizing p seq with
  | nil =>
    cases seq with
    | nil => rfl
    | cons => cases pieces
  | cons s ss ih =>
    cases seq with
    | nil => rfl
    | cons e seq =>
      simp only [List.map_cons, List.cons.injEq] at pieces
      rw [rowsFrom, List.map_cons, ih pieces.2]

theorem rowsFrom_offsets : (rowsFrom p seq ss).map (·.offset) = offsetsFrom p ss := by
  induction ss generalizing p seq with
  | nil => cases seq <;> rfl
  | cons s ss ih =>
    cases seq with
    | nil => cases pieces
    | cons e seq =>
      simp only [List.map_cons, List.cons.injEq] at pieces
      rw [rowsFrom, List.map_cons, ih pieces.2, offsetsFrom]

theorem rowsFrom_run : Run p (rowsFrom p seq ss) (p + total ss) := by
  induction ss generalizing p seq with
  | nil =>
    cases seq with
    | nil => exact .nil p
    | cons => cases pieces
  | cons s ss ih =>
    cases seq with
    | nil => cases pieces
    | cons e seq =>
      simp only [List.map_cons, List.cons.injEq] at pieces
      rw [rowsFrom, total, ← Nat.add_assoc]
      refine .cons rfl ?_
      rw [Row.next, ← size_of_slot pieces.1]
      exact ih pieces.2

theorem rowsFrom_forms : ∀ r ∈ rowsFrom p seq ss, ∃ long,
    r.opcode = opcodeOf r.instruction ⟨pieceOf places r.instruction, long⟩ := by
  induction ss generalizing p seq with
  | nil => cases seq <;> exact fun _ h => by cases h
  | cons s ss ih =>
    cases seq with
    | nil => cases pieces
    | cons e seq =>
      simp only [List.map_cons, List.cons.injEq] at pieces
      intro r hr
      rcases List.mem_cons.1 hr with rfl | hr
      · exact ⟨s.long, by rw [← pieces.1]⟩
      · exact ih pieces.2 r hr

end

theorem lays_of_layout {m : Method} {l : Layout} (h : m.layout = .ok l) : Lays m l := by
  obtain ⟨hv, ss, hs, rfl⟩ := Method.layout_iff.1 h
  obtain ⟨pieces, limit⟩ := solve_spec hs
  rw [piecesOf] at pieces
  refine ⟨hv, rowsFrom_sequence pieces, ?_, rowsFrom_forms pieces, ?_, rfl, limit⟩
  · have := rowsFrom_run (p := 0) pieces
    rwa [Nat.zero_add] at this
  · exact (rowsFrom_offsets pieces).symm

theorem Lays.mem_sequence {m : Method} {l : Layout} (lays : Lays m l) {r : Row} (hr : r ∈ l.rows) :
    (r.id, r.instruction) ∈ m.sequence := by
  rw [← lays.sequence]
  exact List.mem_map_of_mem hr

/-! ## Offsets -/

section
variable {m : Method} {l : Layout} (lays : Lays m l) (ordered : m.Ordered)

include lays ordered

theorem Lays.ids : l.rows.map (·.id) = m.order := by
  rw [← ordered.sequence_ids, ← lays.sequence, List.map_map]
  rfl

theorem Lays.find?_iff {id : InstrId} {k : Nat} :
    l.places.find? id = some k ↔ id ∈ m.order ∧ k = m.order.idxOf id := by
  rw [lays.places]
  exact Locator.find?_eq_some ordered.nodup fun _ => ordered.mem_iff.1

/-- An instruction is at the offset of its row. -/
theorem Lays.offsetOf?_row {k : Nat} {r : Row} (hk : l.rows[k]? = some r) :
    l.offsetOf? r.id = some r.offset ∧ m.order.idxOf r.id = k := by
  have hid : m.order[k]? = some r.id := by
    rw [← lays.ids ordered, List.getElem?_map, hk]
    rfl
  have place : m.order.idxOf r.id = k := by
    obtain ⟨lt, e⟩ := List.getElem?_eq_some_iff.1 hid
    rw [← e]
    exact ordered.nodup.idxOf_getElem k lt
  refine ⟨?_, place⟩
  have found : l.places.find? r.id = some k :=
    (lays.find?_iff ordered).2 ⟨List.mem_of_getElem? hid, place.symm⟩
  have offset : l.offsets[k]? = some r.offset := by
    rw [← Array.getElem?_toList, lays.offsets, List.getElem?_map, hk]
    rfl
  rw [offsetOf?, found]
  exact offset

theorem Lays.exists_row {id : InstrId} (h : id ∈ m.order) :
    ∃ (k : Nat) (r : Row), l.rows[k]? = some r ∧ r.id = id := by
  rw [← lays.ids ordered] at h
  obtain ⟨r, hr, e⟩ := List.mem_map.1 h
  obtain ⟨k, hk⟩ := List.mem_iff_getElem?.1 hr
  exact ⟨k, r, hk, e⟩

end

end Layout

end CilProbes
