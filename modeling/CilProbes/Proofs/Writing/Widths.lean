import CilProbes.Proofs.Writing.Again
import CilProbes.Proofs.Writing.Relax
import Mathlib.Algebra.Ring.Nat

/-!
# The least choice of widths

A choice of widths says which branches of a method are long. It gives every instruction an opcode, a
size and an offset, and it is in range if every short branch reaches its target.

* `Widths`, `Method.InRange`: the choices, said without relaxation.
* `settled_slotsIn`: the choices in range are the settled slots of relaxation.
* `Layout.Follows`: the layout that a choice gives.
* `layout_least`: the layout of a method follows the least choice in range, and there is none if and
  only if every choice in range is too long.
-/

namespace CilProbes

open Layout Relax

/-! ## Choices of widths -/

/-- The instructions whose branches are to be long. -/
abbrev Widths : Type := InstrId → Bool

/-- Whether the operand is a single target. -/
def Operand.isTarget {τ : Type} : Operand τ → Bool
  | .target _ => true
  | _ => false

/-- The opcode of an instruction in a width; only a single target has two. -/
def Instruction.inWidth (i : Instruction) (long : Bool) : OpCode :=
  if i.operand.isTarget then (if long then i.opcode.longForm else i.opcode.shortForm) else i.opcode

namespace Method

section
variable (m : Method) (w : Widths)

/-- The sizes of the instructions, in order. -/
def sizesIn : List Nat := m.sequence.map fun p => p.2.sizeWith (p.2.inWidth (w p.1))

def codeSizeIn : Nat := (m.sizesIn w).sum

/-- The sizes of the instructions in front, taken together. -/
def offsetIn (id : InstrId) : Nat := ((m.sizesIn w).take (m.order.idxOf id)).sum

/-- How far a target is from the end of an instruction. -/
def displacementIn (id : InstrId) (i : Instruction) (t : InstrId) : Int :=
  (m.offsetIn w t : Int) - (m.offsetIn w id + i.sizeWith (i.inWidth (w id)) : Nat)

/-- **Every short branch reaches its target.** -/
def InRange : Prop := ∀ id i t, (id, i) ∈ m.sequence → i.operand = .target t → w id = false →
  -128 ≤ m.displacementIn w id i t ∧ m.displacementIn w id i t ≤ 127

/-- Exactly the branches, switches aside, have a single target. -/
def BranchesTarget : Prop := ∀ p ∈ m.sequence,
  p.2.operand.isTarget = (p.2.opcode.isShortBranch || p.2.opcode.isLongBranch)

/-- A choice of widths as relaxation sees it. -/
def slotsIn : List Slot := m.sequence.map fun p => ⟨pieceOf m.places p.2, w p.1⟩

end

variable {m : Method} {w : Widths}

theorem sequence_idxOf (ordered : m.Ordered) {k : Nat} {p : InstrId × Instruction}
    (h : m.sequence[k]? = some p) : p.1 ∈ m.order ∧ m.order.idxOf p.1 = k := by
  have hk : m.order[k]? = some p.1 := by rw [← ordered.sequence_ids, List.getElem?_map, h]; rfl
  obtain ⟨lt, e⟩ := List.getElem?_eq_some_iff.1 hk
  exact ⟨List.mem_of_getElem? hk, by rw [← e]; exact ordered.nodup.idxOf_getElem k lt⟩

theorem exists_sequence (ordered : m.Ordered) {id : InstrId} (h : id ∈ m.order) :
    ∃ i, m.sequence[m.order.idxOf id]? = some (id, i) := by
  rw [← ordered.sequence_ids, List.mem_map] at h
  obtain ⟨⟨_, i⟩, hp, rfl⟩ := h
  obtain ⟨k, hk⟩ := List.mem_iff_getElem?.1 hp
  exact ⟨i, by rw [(sequence_idxOf ordered hk).2]; exact hk⟩

end Method

/-! ## Choices and slots -/

namespace Relax

theorem total_eq_sum (ss : List Slot) : total ss = (ss.map Slot.size).sum := by
  induction ss with
  | nil => rfl
  | cons s ss ih => simp [total, ih]

end Relax

theorem Layout.opcodeOf_inWidth (places : Locator) {i : Instruction} (long : Bool)
    (h : i.operand.isTarget = (i.opcode.isShortBranch || i.opcode.isLongBranch)) :
    opcodeOf i ⟨pieceOf places i, long⟩ = i.inWidth long := by
  unfold opcodeOf pieceOf Instruction.inWidth
  cases ho : i.operand with
  | target t =>
    have branch : (i.opcode.isShortBranch || i.opcode.isLongBranch) = true := by
      rw [← h, ho]
      rfl
    simp [branch, Operand.isTarget]
  | _ => simp [Operand.isTarget]

section
variable {m : Method} {w w' : Widths} (branches : m.BranchesTarget)

include branches in
theorem sizes_slotsIn : (m.slotsIn w).map Slot.size = m.sizesIn w := by
  unfold Method.slotsIn Method.sizesIn
  rw [List.map_map]
  refine List.map_congr_left fun p hp => ?_
  rw [← opcodeOf_inWidth m.places (w p.1) (branches p hp)]
  exact size_of_slot rfl

include branches in
theorem total_take_slotsIn (k : Nat) :
    total ((m.slotsIn w).take k) = ((m.sizesIn w).take k).sum := by
  rw [total_eq_sum, List.map_take, sizes_slotsIn branches]

include branches in
theorem total_slotsIn : total (m.slotsIn w) = m.codeSizeIn w := by
  rw [total_eq_sum, sizes_slotsIn branches, Method.codeSizeIn]

variable (ordered : m.Ordered) (valid : m.validate = .ok ())

include ordered valid in
theorem pieceOf_target {id : InstrId} {i : Instruction} {t : InstrId} (hp : (id, i) ∈ m.sequence)
    (ho : i.operand = .target t)
    (branch : (i.opcode.isShortBranch || i.opcode.isLongBranch) = true) :
    pieceOf m.places i = .branch (m.order.idxOf t) ∧ t ∈ m.order := by
  have mem : t ∈ m.order := by
    refine ((Method.validate_iff ordered).1 valid).1 _ hp t ?_
    simp [Instruction.targets, ho, Operand.targets]
  refine ⟨?_, mem⟩
  simp only [pieceOf, ho, branch, if_true, Method.find?_places_of_mem ordered mem, Option.getD_some]

include branches ordered valid in
/-- **The choices in range are the settled slots.** -/
theorem settled_slotsIn : Settled (m.slotsIn w) ↔ m.InRange w := by
  -- A short branch of the slots is an instruction with a target that the choice leaves short.
  have reaches : ∀ {id i t}, (id, i) ∈ m.sequence → i.operand = .target t → w id = false →
      (m.slotsIn w)[m.order.idxOf id]? = some ⟨.branch (m.order.idxOf t), false⟩ ∧
        (ShortReaches (m.slotsIn w) (m.order.idxOf id) (m.order.idxOf t) ↔
          -128 ≤ m.displacementIn w id i t ∧ m.displacementIn w id i t ≤ 127) := by
    intro id i t hp ho hw
    obtain ⟨k, hk⟩ := List.mem_iff_getElem?.1 hp
    have place := (Method.sequence_idxOf ordered hk).2
    have branch : (i.opcode.isShortBranch || i.opcode.isLongBranch) = true := by
      rw [← branches _ hp, ho]
      rfl
    obtain ⟨piece, mem⟩ := pieceOf_target ordered valid hp ho branch
    have slot : (m.slotsIn w)[m.order.idxOf id]? = some ⟨.branch (m.order.idxOf t), false⟩ := by
      simp [Method.slotsIn, place, hk, piece, hw]
    have lt : m.order.idxOf t < (m.slotsIn w).length := by
      rw [Method.slotsIn, List.length_map, ← List.length_map (f := Prod.fst), ordered.sequence_ids]
      exact List.idxOf_lt_length_of_mem mem
    have size : i.sizeWith (i.inWidth (w id)) = shortSize := by
      rw [← opcodeOf_inWidth m.places (w id) (branches _ hp), ← size_of_slot rfl, piece,
        hw]
      rfl
    refine ⟨slot, ?_⟩
    simp only [ShortReaches, landing, if_pos lt, total_take_slotsIn branches]
    rw [Method.displacementIn, size]
    rfl
  constructor
  · intro settled id i t hp ho hw
    obtain ⟨slot, reach⟩ := reaches hp ho hw
    exact reach.1 (settled _ _ slot)
  · intro inRange k d hk
    rw [Method.slotsIn, List.getElem?_map] at hk
    obtain ⟨⟨id, i⟩, hp, hs⟩ := Option.map_eq_some_iff.1 hk
    obtain ⟨piece, hw⟩ := Slot.mk.inj hs
    have mem := List.mem_of_getElem? hp
    have place := (Method.sequence_idxOf ordered hp).2
    cases ho : i.operand with
    | target t =>
      obtain ⟨slot, reach⟩ := reaches mem ho hw
      have branch : (i.opcode.isShortBranch || i.opcode.isLongBranch) = true := by
        rw [← branches _ mem, ho]
        rfl
      have dest := (pieceOf_target ordered valid mem ho branch).1
      simp only at piece hw
      rw [piece, Piece.branch.injEq] at dest
      rw [dest, ← place]
      exact reach.2 (inRange id i t mem ho hw)
    | _ => simp [pieceOf, ho] at piece

end

/-! ## The layout of a choice -/

namespace Layout

/-- **The layout that a choice of widths gives**: every instruction has the opcode of its width and
stands behind those in front of it. -/
structure Follows (l : Layout) (m : Method) (w : Widths) : Prop where
  sequence : l.rows.map (fun r => (r.id, r.instruction)) = m.sequence
  opcodes : ∀ r ∈ l.rows, r.opcode = r.instruction.inWidth (w r.id)
  offsets : ∀ r ∈ l.rows, r.offset = m.offsetIn w r.id
  located : ∀ id ∈ m.order, l.offsetOf? id = some (m.offsetIn w id)
  codeSize : l.codeSize = m.codeSizeIn w

theorem getElem?_rowsFrom {p k : Nat} {seq : List (InstrId × Instruction)} {ss : List Slot} {r : Row}
    (h : (rowsFrom p seq ss)[k]? = some r) : ∃ s, seq[k]? = some (r.id, r.instruction) ∧
      ss[k]? = some s ∧ r.opcode = opcodeOf r.instruction s ∧ r.offset = p + total (ss.take k) := by
  induction ss generalizing p k seq with
  | nil => cases seq <;> simp [rowsFrom] at h
  | cons s ss ih =>
    cases seq with
    | nil => simp [rowsFrom] at h
    | cons e seq =>
      obtain ⟨id, i⟩ := e
      cases k with
      | zero =>
        simp only [rowsFrom, List.getElem?_cons_zero, Option.some.injEq] at h
        subst h
        exact ⟨s, rfl, rfl, rfl, rfl⟩
      | succ k =>
        simp only [rowsFrom, List.getElem?_cons_succ] at h
        obtain ⟨s', hseq, hs', opcode, offset⟩ := ih h
        refine ⟨s', hseq, hs', opcode, ?_⟩
        rw [offset, List.take_succ_cons, total, Nat.add_assoc]

theorem follows_slotsIn {m : Method} {w : Widths} {l : Layout} (branches : m.BranchesTarget)
    (ordered : m.Ordered) (lays : Lays m l) (hl : l = layoutOf m (m.slotsIn w)) : l.Follows m w := by
  have row : ∀ (k : Nat) (r : Row), l.rows[k]? = some r →
      r.opcode = r.instruction.inWidth (w r.id) ∧ r.offset = m.offsetIn w r.id := by
    intro k r hk
    rw [hl] at hk
    obtain ⟨s, hseq, hs, opcode, offset⟩ := getElem?_rowsFrom hk
    have place := (Method.sequence_idxOf ordered hseq).2
    rw [Method.slotsIn, List.getElem?_map, hseq, Option.map_some, Option.some.injEq] at hs
    subst hs
    refine ⟨?_, ?_⟩
    · rw [opcode, opcodeOf_inWidth _ _ (branches _ (List.mem_of_getElem? hseq))]
    · rw [offset, Nat.zero_add, total_take_slotsIn branches, ← place]
      rfl
  refine ⟨lays.sequence, fun r hr => ?_, fun r hr => ?_, fun id hid => ?_, ?_⟩
  · obtain ⟨k, hk⟩ := List.mem_iff_getElem?.1 hr
    exact (row k r hk).1
  · obtain ⟨k, hk⟩ := List.mem_iff_getElem?.1 hr
    exact (row k r hk).2
  · obtain ⟨k, r, hk, rfl⟩ := lays.exists_row ordered hid
    rw [(lays.offsetOf?_row ordered hk).1, (row k r hk).2]
  · rw [hl]
    exact total_slotsIn branches

end Layout

/-! ## What relaxation settles on -/

section
variable {m : Method} {ss : List Slot} (pieces : ss.map (·.piece) = piecesOf m)

/-- The choice that slots stand for. -/
def Method.widthsOf (m : Method) (ss : List Slot) : Widths :=
  fun id => ss[m.order.idxOf id]?.any (·.long)

include pieces in
theorem slotsIn_widthsOf (ordered : m.Ordered) : m.slotsIn (m.widthsOf ss) = ss := by
  have len : ss.length = m.sequence.length := by
    have := congrArg List.length pieces
    simpa [piecesOf] using this
  refine List.ext_getElem (by simp [Method.slotsIn, len]) fun k hk hk' => ?_
  have hseq : k < m.sequence.length := len ▸ hk'
  have place := (Method.sequence_idxOf ordered (List.getElem?_eq_getElem hseq)).2
  have piece : ss[k].piece = pieceOf m.places m.sequence[k].2 := by
    have := congrArg (·[k]?) pieces
    simpa [piecesOf, hk', hseq] using this
  simp [Method.slotsIn, Method.widthsOf, place, hk', ← piece]

end

/-- The slots with every branch short. -/
theorem allShort_eq (m : Method) :
    (piecesOf m).map (fun p => (⟨p, false⟩ : Slot)) = m.slotsIn fun _ => false := by
  simp [piecesOf, Method.slotsIn]

theorem wider_allShort (m : Method) (w : Widths) : Wider (m.slotsIn fun _ => false) (m.slotsIn w) := by
  unfold Method.slotsIn Wider
  rw [List.forall₂_map_left_iff, List.forall₂_map_right_iff, List.forall₂_same]
  exact fun p _ => ⟨rfl, fun h => by cases h⟩

/-- The branches of relaxation are the instructions with a single target. -/
theorem countP_piecesOf {m : Method} (branches : m.BranchesTarget) :
    (piecesOf m).countP (·.isBranch) = m.sequence.countP (·.2.operand.isTarget) := by
  rw [piecesOf, List.countP_map]
  refine List.countP_congr fun p hp => ?_
  have := branches p hp
  cases ho : p.2.operand with
  | target t =>
    rw [ho] at this
    have branch : (p.2.opcode.isShortBranch || p.2.opcode.isLongBranch) = true := this.symm
    simp only [Function.comp_apply, pieceOf, ho, branch, if_true, Piece.isBranch,
      Operand.isTarget]
  | _ => simp [pieceOf, ho, Operand.isTarget, Piece.isBranch]

/-- Relaxation of the branches of a method, as passes. -/
theorem layout_solve (m : Method) : ∃ n ≤ (piecesOf m).countP (·.isBranch) + 1,
    Passes n (m.slotsIn fun _ => false) (solve (piecesOf m)) := by
  rw [← allShort_eq]
  exact solve_passes _

/-- A layout is that of the least settled choice. -/
theorem layout_settled {m : Method} {l : Layout} (ordered : m.Ordered) (hl : m.layout = .ok l) :
    ∃ w, l = layoutOf m (m.slotsIn w) ∧ Settled (m.slotsIn w) ∧
      total (m.slotsIn w) ≤ codeLimit ∧
      ∀ w', Settled (m.slotsIn w') → Wider (m.slotsIn w) (m.slotsIn w') := by
  obtain ⟨-, ss, hs, rfl⟩ := Method.layout_iff.1 hl
  obtain ⟨n, -, passes⟩ := layout_solve m
  rw [hs] at passes
  obtain ⟨-, settled, fits, least⟩ := passes.least
  have slots := slotsIn_widthsOf (solve_spec hs).1 ordered
  refine ⟨m.widthsOf ss, by rw [slots], by rwa [slots], by rwa [slots], fun w' settled' => ?_⟩
  rw [slots]
  exact least _ (wider_allShort m w') settled'

section
variable {m : Method} (valid : m.validate = .ok ())

include valid

/-- The layout is what the passes end in. -/
theorem layout_passes : ∃ n r, n ≤ (piecesOf m).countP (·.isBranch) + 1 ∧
    Passes n (m.slotsIn fun _ => false) r ∧
    m.layout = (r.mapError fun size => .encode (.codeSize size)).map (layoutOf m) := by
  obtain ⟨n, hn, passes⟩ := layout_solve m
  refine ⟨n, _, hn, passes, ?_⟩
  cases hs : solve (piecesOf m) with
  | ok ss => exact Method.layout_iff.2 ⟨valid, ss, hs, rfl⟩
  | error size =>
    rw [piecesOf] at hs
    simp only [Method.layout, valid, hs]
    rfl

/-- There is no layout if and only if every settled choice is too long. -/
theorem layout_tooLong (ordered : m.Ordered) :
    (∃ size, m.layout = .error (.encode (.codeSize size))) ↔
      ∀ w, Settled (m.slotsIn w) → codeLimit < total (m.slotsIn w) := by
  obtain ⟨n, r, -, passes, hl⟩ := layout_passes valid
  constructor
  · intro ⟨size, he⟩ w settled
    rw [hl] at he
    cases r with
    | ok ss => cases he
    | error size => exact passes.least _ (wider_allShort m w) settled
  · intro long
    cases r with
    | error size => exact ⟨size, hl⟩
    | ok ss =>
      obtain ⟨w, -, settled, fits, -⟩ := layout_settled ordered hl
      have := long w settled
      omega

end

/-! ## The widths of a body -/

namespace OpCode

theorem shortForm_of_short {op : OpCode} (h : op.isShortBranch = true) : op.shortForm = op := by
  cases op with
  | single c =>
    revert h
    obtain ⟨⟨c⟩⟩ := c
    revert c
    decide +kernel
  | extended c => simp [isShortBranch] at h

theorem longForm_of_long {op : OpCode} (h : op.isLongBranch = true) : op.longForm = op := by
  cases op with
  | single c =>
    revert h
    obtain ⟨⟨c⟩⟩ := c
    revert c
    decide +kernel
  | extended c => simp [isLongBranch] at h

end OpCode

/-- Where every operand has its kind, exactly the branches have a single target. -/
theorem Method.Kinded.branchesTarget {m : Method} (kinded : m.Kinded) : m.BranchesTarget := by
  intro p hp
  obtain ⟨info, hi, hk⟩ := kinded p hp
  rw [← (OpCode.info_branch hi).1, ← (OpCode.info_branch hi).2]
  cases hinfo : info.operand <;> cases ho : p.2.operand <;>
    simp [hinfo, ho, Operand.HasKind] at hk <;> rfl

/-- The widths that the branches of a method have. -/
def Method.ownWidths (m : Method) : Widths :=
  fun id => !(m.instruction? id).any (·.opcode.isShortBranch)

section
variable {m : Method} (branches : m.BranchesTarget) (ordered : m.Ordered)

include branches ordered

theorem inWidth_own {p : InstrId × Instruction} (hp : p ∈ m.sequence) :
    p.2.inWidth (m.ownWidths p.1) = p.2.opcode := by
  have hi : m.instruction? p.1 = some p.2 := ordered.mem_sequence.1 hp
  unfold Instruction.inWidth Method.ownWidths
  rw [branches p hp]
  cases hs : p.2.opcode.isShortBranch with
  | true => simp [hi, hs, OpCode.shortForm_of_short hs]
  | false =>
    cases hl : p.2.opcode.isLongBranch with
    | true => simp [hi, hs, OpCode.longForm_of_long hl]
    | false => simp

theorem sizesIn_own : m.sizesIn m.ownWidths = m.sequence.map (·.2.size) := by
  refine List.map_congr_left fun p hp => ?_
  rw [inWidth_own branches ordered hp]
  rfl

end

theorem Reader.Tiled.offset_eq {p k : Nat} {code : Bytes} {ps : List Placed} {q : Placed}
    (h : Reader.Tiled Placed.Stands p code ps) (hk : ps[k]? = some q) :
    q.offset = p + ((ps.map (·.coded.bytes.length)).take k).sum := by
  induction h generalizing k with
  | nil => simp at hk
  | @cons p b bs r rs hr _ ih =>
    cases k with
    | zero =>
      simp only [List.getElem?_cons_zero, Option.some.injEq] at hk
      rw [← hk, hr.1]
      simp
    | succ k =>
      rw [ih (by simpa using hk), hr.2.2.2]
      simp [Nat.add_assoc]

section
variable {body : Bytes} {h : Header} {ps : List Placed} {cs : List Clause}
  (isBody : IsBody body h ps cs)

theorem sizes_linked (h : Header) (ps : List Placed) (cs : List Clause) :
    (Method.linked h ps cs).sequence.map (·.2.size) = ps.map (·.coded.bytes.length) := by
  have instructions := Method.sequence_linked h ps cs
  have sizes := congrArg (List.map Instruction.size) instructions
  rw [List.map_map, List.map_map] at sizes
  refine sizes.trans (List.map_congr_left fun q _ => ?_)
  rw [Coded.length_bytes]
  simp [Placed.linked, Instruction.size, Instruction.sizeWith]

include isBody

/-- In its own widths, a decoded method takes as many bytes as its body has for it, -/
theorem codeSizeIn_linked (kinded : (Method.linked h ps cs).Kinded)
    (ordered : (Method.linked h ps cs).Ordered) :
    (Method.linked h ps cs).codeSizeIn (Method.linked h ps cs).ownWidths = h.codeSize.toNat := by
  rw [Method.codeSizeIn, sizesIn_own kinded.branchesTarget ordered, sizes_linked,
    ← List.length_flatMap, isBody.tiled.bytes, List.length_take, List.length_drop]
  have := isBody.fits
  omega

/-- and every instruction stands where it stood there. -/
theorem offsetIn_linked (kinded : (Method.linked h ps cs).Kinded)
    (ordered : (Method.linked h ps cs).Ordered) {k : Nat} {q : Placed} (hk : ps[k]? = some q) :
    (Method.linked h ps cs).offsetIn (Method.linked h ps cs).ownWidths k = q.offset := by
  have lt := (List.getElem?_eq_some_iff.1 hk).1
  have place : (Method.linked h ps cs).order.idxOf k = k := idxOf_range lt
  rw [Method.offsetIn, place, sizesIn_own kinded.branchesTarget ordered, sizes_linked,
    isBody.tiled.offset_eq hk, Nat.zero_add]

/-- **The widths of a body are in range.** -/
theorem inRange_linked (kinded : (Method.linked h ps cs).Kinded)
    (ordered : (Method.linked h ps cs).Ordered) :
    (Method.linked h ps cs).InRange (Method.linked h ps cs).ownWidths := by
  intro id i t hp ho short
  have hi := ordered.mem_sequence.1 hp
  have linked : ps[id]?.map (Placed.linked ps) = some i := by
    rw [← hi]
    simp [Method.instruction?, Method.linked]
  obtain ⟨q, hq, rfl⟩ := Option.map_eq_some_iff.1 linked
  have mem := List.mem_of_getElem? hq
  obtain ⟨⟨-, -, -, -, fits⟩, next⟩ := isBody.tiled.stands q mem
  -- The displacement is the one that the body holds.
  cases hd : q.coded.operand with
  | target disp =>
    have target : disp ∈ q.coded.operand.targets := by simp [hd, Operand.targets]
    obtain ⟨start, hs, e⟩ := isBody.targets q mem disp target
    have dest : t = placeOf ps start := by
      simp only [Placed.linked, hd, Operand.map, ← e, Int.toNat_natCast, Operand.target.injEq] at ho
      exact ho.symm
    obtain ⟨r, hr, offset⟩ : ∃ r, ps[placeOf ps start]? = some r ∧ r.offset = start := by
      have lt := List.idxOf_lt_length_of_mem hs
      have lt' : placeOf ps start < ps.length := by
        rw [starts, List.length_map] at lt
        exact lt
      refine ⟨ps[placeOf ps start], List.getElem?_eq_getElem lt', ?_⟩
      rw [← List.getElem_map Placed.offset]
      exact List.getElem_idxOf lt
    have size : (q.linked ps).sizeWith ((q.linked ps).inWidth
        ((Method.linked h ps cs).ownWidths id)) = q.coded.bytes.length := by
      rw [inWidth_own kinded.branchesTarget ordered hp, Coded.length_bytes]
      simp [Placed.linked, Instruction.sizeWith]
    have opcode : q.coded.opcode.isShortBranch = true := by
      unfold Method.ownWidths at short
      rw [hi] at short
      simpa [Placed.linked] using short
    have reach := fits disp target
    rw [opcode] at reach
    simp only [Displacement.Fits, if_true] at reach
    have disp_eq : (Method.linked h ps cs).displacementIn (Method.linked h ps cs).ownWidths id
        (q.linked ps) t = disp := by
      rw [Method.displacementIn, size, offsetIn_linked isBody kinded ordered hq, dest,
        offsetIn_linked isBody kinded ordered hr, offset, ← next]
      omega
    rw [disp_eq]
    omega
  | _ => simp [Placed.linked, hd, Operand.map] at ho

end

/-! ## The layout of a method -/

section
variable {m : Method} {l : Layout} (branches : m.BranchesTarget) (ordered : m.Ordered)
  (valid : m.validate = .ok ())

include branches ordered valid

/-- **A layout follows the least choice in range.** -/
theorem follows_least (hl : m.layout = .ok l) : ∃ w, m.InRange w ∧ l.Follows m w ∧
    l.codeSize ≤ codeLimit ∧ ∀ w', m.InRange w' →
      (∀ id ∈ m.order, w id = true → w' id = true) ∧
      (∀ id ∈ m.order, m.offsetIn w id ≤ m.offsetIn w' id) ∧ m.codeSizeIn w ≤ m.codeSizeIn w' := by
  obtain ⟨w, rfl, settled, fits, least⟩ := layout_settled ordered hl
  refine ⟨w, (settled_slotsIn branches ordered valid).1 settled,
    follows_slotsIn branches ordered (lays_of_layout hl) rfl, fits, fun w' inRange => ?_⟩
  have wider := least w' ((settled_slotsIn branches ordered valid).2 inRange)
  refine ⟨fun id hid long => ?_, fun id _ => ?_, ?_⟩
  · obtain ⟨i, hi⟩ := Method.exists_sequence ordered hid
    have slot : ∀ w, (m.slotsIn w)[m.order.idxOf id]? = some ⟨pieceOf m.places i, w id⟩ := by
      intro w
      rw [Method.slotsIn, List.getElem?_map, hi]
      rfl
    exact ((wider_iff.1 wider).2 _ _ _ (slot w) (slot w')).2 long
  · have := wider.take_le (m.order.idxOf id)
    rwa [total_take_slotsIn branches, total_take_slotsIn branches] at this
  · have := wider.total_le
    rwa [total_slotsIn branches, total_slotsIn branches] at this

/-- **There is no layout if and only if every choice in range is too long.** -/
theorem no_layout_iff : (∃ size, m.layout = .error (.encode (.codeSize size))) ↔
    ∀ w, m.InRange w → codeLimit < m.codeSizeIn w := by
  rw [layout_tooLong valid ordered]
  simp only [settled_slotsIn branches ordered valid, total_slotsIn branches]

end

/-- **Branch layout is the least choice of widths.** Relaxation ends within one pass for each target
and one more. The layout of a method gives every branch its short or its long form and leaves the
other opcodes alone, and it follows a choice in range below every other; a method without layout has
too much code in every choice in range. The widths of a body are in range, so a body within the limit
has a layout, which is not longer. -/
theorem layout_least :
    (∀ m : Method, m.Built → m.validate = .ok () → m.BranchesTarget →
      (∃ passes result, passes ≤ m.sequence.countP (·.2.operand.isTarget) + 1 ∧
        Passes passes (m.slotsIn fun _ => false) result ∧
        m.layout = (result.mapError fun size => .encode (.codeSize size)).map (layoutOf m)) ∧
      (∀ l, m.layout = .ok l → ∃ w, m.InRange w ∧ l.Follows m w ∧ l.codeSize ≤ 0x7FFFFFFF ∧
        ∀ w', m.InRange w' → (∀ id ∈ m.order, w id = true → w' id = true) ∧
          (∀ id ∈ m.order, m.offsetIn w id ≤ m.offsetIn w' id) ∧
          m.codeSizeIn w ≤ m.codeSizeIn w') ∧
      ((∃ size, m.layout = .error (.encode (.codeSize size))) ↔
        ∀ w, m.InRange w → 0x7FFFFFFF < m.codeSizeIn w)) ∧
    ∀ (body : Bytes) (m : Method) (h : Header), Method.decode body = .ok m →
      m.validate = .ok () → Header.read body = .ok h → h.codeSize.toNat ≤ 0x7FFFFFFF →
      ∃ l, m.layout = .ok l ∧ l.codeSize ≤ h.codeSize.toNat := by
  refine ⟨fun m built valid branches => ⟨?_, fun l => follows_least branches built.ordered valid,
    no_layout_iff branches built.ordered valid⟩, ?_⟩
  · rw [← countP_piecesOf branches]
    exact layout_passes valid
  intro body m h decoded valid header limit
  have kinded := (writable_of_decode decoded).kinded
  have ordered := (Method.Built.decoded decoded).ordered
  have branches := kinded.branchesTarget
  obtain ⟨h', ps, cs, isBody, rfl⟩ := (decode_iff body m).1 decoded
  have same : h' = h := by
    have := (Header.read_iff _ _).2 isBody.header
    rw [header] at this
    exact (Except.ok.inj this).symm
  subst same
  have inRange := inRange_linked isBody kinded ordered
  have size := codeSizeIn_linked isBody kinded ordered
  obtain ⟨n, r, -, -, hl⟩ := layout_passes valid
  cases r with
  | error size' =>
    have := (no_layout_iff branches ordered valid).1 ⟨size', hl⟩ _ inRange
    simp only [codeLimit] at this
    omega
  | ok ss =>
    obtain ⟨w, -, follows, -, least⟩ := follows_least branches ordered valid hl
    refine ⟨_, hl, ?_⟩
    have := (least _ inRange).2.2
    rw [follows.codeSize]
    omega

/-- The jump over nothing takes two bytes in front of the return, as the body has it. -/
theorem layout_least_jumpAhead : jumpAhead.Built ∧ jumpAhead.validate = .ok () ∧
    jumpAhead.BranchesTarget ∧
    (∃ l w, jumpAhead.layout = .ok l ∧ l.codeSize = 3 ∧ jumpAhead.InRange w ∧
      l.Follows jumpAhead w) ∧
    ∃ m h l, Method.decode [0x0E, 0x2B, 0x00, 0x2A] = .ok m ∧ m.validate = .ok () ∧
      Header.read [0x0E, 0x2B, 0x00, 0x2A] = .ok h ∧ m.layout = .ok l ∧
      l.codeSize ≤ h.codeSize.toNat := by
  have valid : jumpAhead.validate = .ok () := by decide +kernel
  have branches := jumpAhead_kinded.branchesTarget
  have size : jumpAhead.layout.toOption.map (·.codeSize) = some 3 := by decide +kernel
  obtain ⟨l, laid, three⟩ : ∃ l, jumpAhead.layout = .ok l ∧ l.codeSize = 3 := by
    cases hl : jumpAhead.layout with
    | ok l => exact ⟨l, rfl, by simpa [hl, Except.toOption] using size⟩
    | error fault => simp [hl, Except.toOption] at size
  obtain ⟨w, inRange, follows, -⟩ :=
    (layout_least.1 jumpAhead jumpAhead_built valid branches).2.1 l laid
  refine ⟨jumpAhead_built, valid, branches, ⟨l, w, laid, three, inRange, follows⟩, ?_⟩
  have decoded : Method.decode [0x0E, 0x2B, 0x00, 0x2A] = .ok { Method.empty with
      stock := #[⟨.single 0x2B, .target 1, some 0, 0⟩, ⟨.single 0x2A, .none, some 2, 2⟩]
      order := [0, 1] } := by decide +kernel
  have stays : Method.validate { Method.empty with
      stock := #[⟨.single 0x2B, .target 1, some 0, 0⟩, ⟨.single 0x2A, .none, some 2, 2⟩]
      order := [0, 1] } = .ok () := by decide +kernel
  have header : Header.read [0x0E, 0x2B, 0x00, 0x2A] = .ok ⟨2, 8, 3, .null, 1⟩ := by decide +kernel
  obtain ⟨l', laid', le⟩ := layout_least.2 _ _ _ decoded stays header (by decide)
  exact ⟨_, _, l', decoded, stays, header, laid', le⟩

end CilProbes
