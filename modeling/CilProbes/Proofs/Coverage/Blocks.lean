import CilProbes.Proofs.Coverage.Flow
import CilProbes.Proofs.Method.Insert

/-!
# Points and blocks

The lists that instrumentation works through, and the code that it puts in.

* `branchOffsets_sorted`, `mem_branchOffsets`: every offset with a branch point comes once.
* `inOffsetOrder_filter`, `inOffsetOrder_sorted`, `inOffsetOrder_perm`: sorting keeps the order of the
  points of one offset, puts lower offsets first and keeps every point.
* `edgeCode_fall`, `edgeCode_block`: where in the code of a branch the probe of an edge stands.
* `runs_of_segment`, `enter_fall`, `enter_block`: control that is led there runs through the block
  of its edge alone.
-/

namespace CilProbes

/-! ## The order of the points -/

theorem mem_enterOffset {offset o : Nat} {os : List Nat} :
    o ∈ enterOffset offset os ↔ o = offset ∨ o ∈ os := by
  induction os with
  | nil => simp [enterOffset]
  | cons x os ih =>
    rw [enterOffset]
    split
    · exact List.mem_cons
    · split
      · rename_i h
        simp [h]
      · simp only [List.mem_cons, ih]
        exact or_left_comm

theorem enterOffset_sorted {offset : Nat} {os : List Nat} (h : os.Pairwise (· < ·)) :
    (enterOffset offset os).Pairwise (· < ·) := by
  induction os with
  | nil => exact List.pairwise_singleton _ _
  | cons x os ih =>
    obtain ⟨hx, hos⟩ := List.pairwise_cons.1 h
    rw [enterOffset]
    split
    · rename_i lt
      refine .cons (fun o ho => ?_) h
      rcases List.mem_cons.1 ho with rfl | ho
      · exact lt
      · exact Nat.lt_trans lt (hx o ho)
    · split
      · exact h
      · refine .cons (fun o ho => ?_) (ih hos)
        rcases mem_enterOffset.1 ho with rfl | ho
        · omega
        · exact hx o ho

theorem branchOffsets_fold (ps : List BranchPoint) (os : List Nat) (h : os.Pairwise (· < ·)) :
    (ps.foldl (fun os p => enterOffset p.offset os) os).Pairwise (· < ·) ∧
      ∀ o, o ∈ ps.foldl (fun os p => enterOffset p.offset os) os ↔
        o ∈ os ∨ ∃ p ∈ ps, p.offset = o := by
  induction ps generalizing os with
  | nil => exact ⟨h, fun o => by simp⟩
  | cons p ps ih =>
    obtain ⟨sorted, mem⟩ := ih (enterOffset p.offset os) (enterOffset_sorted h)
    refine ⟨sorted, fun o => ?_⟩
    rw [List.foldl_cons, mem, mem_enterOffset]
    simp only [List.mem_cons, exists_eq_or_imp, eq_comm (a := o)]
    tauto

theorem branchOffsets_sorted (ps : List BranchPoint) : (branchOffsets ps).Pairwise (· < ·) :=
  (branchOffsets_fold ps [] .nil).1

theorem mem_branchOffsets {ps : List BranchPoint} {o : Nat} :
    o ∈ branchOffsets ps ↔ ∃ p ∈ ps, p.offset = o := by
  have := (branchOffsets_fold ps [] .nil).2 o
  simpa [branchOffsets] using this

theorem edgeId?_fold_filter {keep : BranchPoint → Bool} {ps : List BranchPoint} {offset path : Nat}
    (kept : ∀ p ∈ ps, p.offset = offset → p.path = path → keep p = true) (found : Option ProbeId) :
    (ps.filter keep).foldl
        (fun found p => if p.offset = offset ∧ p.path = path then some p.id else found) found
      = ps.foldl
        (fun found p => if p.offset = offset ∧ p.path = path then some p.id else found) found := by
  induction ps generalizing found with
  | nil => rfl
  | cons p ps ih =>
    obtain ⟨hp, kept⟩ := List.forall_mem_cons.1 kept
    rw [List.filter_cons, List.foldl_cons]
    by_cases h : p.offset = offset ∧ p.path = path
    · rw [if_pos (hp h.1 h.2), List.foldl_cons, ih kept]
    · rw [if_neg h]
      split
      · rw [List.foldl_cons, if_neg h, ih kept]
      · rw [ih kept]

/-- Only the points of an edge matter to it. -/
theorem edgeId?_kept {keep : BranchPoint → Bool} {ps : List BranchPoint} {offset path : Nat}
    (kept : ∀ p ∈ ps, p.offset = offset → p.path = path → keep p = true) :
    edgeId? (ps.filter keep) offset path = edgeId? ps offset path :=
  edgeId?_fold_filter kept none

/-- The points of other branches do not matter to an edge. -/
theorem edgeId?_filter (ps : List BranchPoint) (offset path : Nat) :
    edgeId? (ps.filter (·.offset == offset)) offset path = edgeId? ps offset path :=
  edgeId?_kept fun _ _ ho _ => beq_iff_eq.2 ho

theorem edgeId?_of_not_mem {ps : List BranchPoint} {offset : Nat} (h : offset ∉ branchOffsets ps)
    (path : Nat) : edgeId? ps offset path = none := by
  have none : ps.filter (·.offset == offset) = [] := by
    rw [List.filter_eq_nil_iff]
    intro p hp he
    exact h (mem_branchOffsets.2 ⟨p, hp, beq_iff_eq.1 he⟩)
  rw [← edgeId?_filter, none]
  rfl

theorem edgeId?_fold_isSome (ps : List BranchPoint) (offset path : Nat) (found : Option ProbeId) :
    (ps.foldl (fun found p => if p.offset = offset ∧ p.path = path then some p.id else found)
      found).isSome ↔ found.isSome ∨ ∃ p ∈ ps, p.offset = offset ∧ p.path = path := by
  induction ps generalizing found with
  | nil => simp
  | cons p ps ih =>
    rw [List.foldl_cons, ih]
    by_cases h : p.offset = offset ∧ p.path = path <;> simp [h]

/-- An edge has a number if and only if a point names it. -/
theorem isSome_edgeId? {ps : List BranchPoint} {offset path : Nat} :
    (edgeId? ps offset path).isSome ↔ ∃ p ∈ ps, p.offset = offset ∧ p.path = path := by
  simpa [edgeId?] using edgeId?_fold_isSome ps offset path none

theorem enter_filter (p : SequencePoint) (ps : List SequencePoint) (o : Nat) :
    (p.enter ps).filter (·.offset = o) = (p :: ps).filter (·.offset = o) := by
  induction ps with
  | nil => rfl
  | cons q ps ih =>
    rw [SequencePoint.enter]
    split
    · rfl
    · -- The point goes behind one of another offset.
      rename_i lt
      rw [List.filter_cons, ih]
      by_cases hp : p.offset = o
      · have hq : ¬ q.offset = o := by omega
        simp [hp, hq]
      · simp [List.filter_cons, hp]

/-- **Sorting keeps the order of the points of one offset.** -/
theorem inOffsetOrder_filter (ps : List SequencePoint) (o : Nat) :
    (inOffsetOrder ps).filter (·.offset = o) = ps.filter (·.offset = o) := by
  induction ps with
  | nil => rfl
  | cons p ps ih =>
    show (p.enter (inOffsetOrder ps)).filter _ = _
    rw [enter_filter, List.filter_cons, List.filter_cons, ih]

theorem enter_perm (p : SequencePoint) (ps : List SequencePoint) : (p.enter ps).Perm (p :: ps) := by
  induction ps with
  | nil => exact .refl _
  | cons q ps ih =>
    rw [SequencePoint.enter]
    split
    · exact .refl _
    · exact (ih.cons q).trans (.swap p q ps)

/-- Sorting neither drops a point nor adds one. -/
theorem inOffsetOrder_perm (ps : List SequencePoint) : (inOffsetOrder ps).Perm ps := by
  induction ps with
  | nil => exact .refl _
  | cons p ps ih => exact (enter_perm p (inOffsetOrder ps)).trans (ih.cons p)

theorem enter_sorted {p : SequencePoint} {ps : List SequencePoint}
    (h : ps.Pairwise fun q r => q.offset ≤ r.offset) :
    (p.enter ps).Pairwise fun q r => q.offset ≤ r.offset := by
  induction ps with
  | nil => exact List.pairwise_singleton _ _
  | cons q ps ih =>
    obtain ⟨hq, hps⟩ := List.pairwise_cons.1 h
    rw [SequencePoint.enter]
    split
    · rename_i le
      refine .cons (fun r hr => ?_) h
      rcases List.mem_cons.1 hr with rfl | hr
      · exact le
      · exact Nat.le_trans le (hq r hr)
    · rename_i gt
      refine .cons (fun r hr => ?_) (ih hps)
      rcases List.mem_cons.1 ((enter_perm p ps).mem_iff.1 hr) with rfl | hr
      · omega
      · exact hq r hr

theorem inOffsetOrder_sorted (ps : List SequencePoint) :
    (inOffsetOrder ps).Pairwise fun q r => q.offset ≤ r.offset := by
  induction ps with
  | nil => exact .nil
  | cons p ps ih => exact enter_sorted ih

/-! ## The code of a branch -/

section
variable {d : ProbeDispatch} {idOf : Nat → Option ProbeId} {targets : List InstrId}

theorem length_edgeBlock (e : TakenEdge) :
    (edgeBlock d e).length = d.callSequence.length + 2 := by
  simp [edgeBlock, ProbeDispatch.probe]

theorem length_flatMap_edgeBlock (es : List TakenEdge) :
    (es.flatMap (edgeBlock d)).length = es.length * (d.callSequence.length + 2) := by
  induction es with
  | nil => simp
  | cons e es ih =>
    rw [List.flatMap_cons, List.length_append, length_edgeBlock, ih, List.length_cons,
      Nat.succ_mul, Nat.add_comm]

theorem mem_takenEdges {e : TakenEdge} : e ∈ takenEdges idOf targets ↔
    targets[e.slot]? = some e.target ∧ idOf (e.slot + 1) = some e.id := by
  obtain ⟨slot, target, id⟩ := e
  unfold takenEdges
  rw [List.mem_filterMap]
  constructor
  · rintro ⟨⟨t, k⟩, hm, he⟩
    obtain ⟨id', hid, he⟩ := Option.map_eq_some_iff.1 he
    cases he
    exact ⟨List.mem_zipIdx_iff_getElem?.1 hm, hid⟩
  · rintro ⟨ht, hid⟩
    refine ⟨(target, slot), List.mem_zipIdx_iff_getElem?.2 ht, ?_⟩
    show (idOf (slot + 1)).map _ = _
    rw [hid]
    rfl

/-- The edges come in the order of the targets. -/
theorem takenEdges_sorted (idOf : Nat → Option ProbeId) (targets : List InstrId) :
    (takenEdges idOf targets).Pairwise fun e e' => e.slot < e'.slot := by
  unfold takenEdges
  rw [List.pairwise_filterMap]
  have sorted : targets.zipIdx.Pairwise fun p q => p.2 < q.2 := by
    have : (targets.zipIdx.map Prod.snd).Pairwise (· < ·) := by
      rw [List.zipIdx_map_snd]
      exact List.pairwise_lt_range'
    exact List.pairwise_map.1 this
  refine sorted.imp ?_
  rintro ⟨t, k⟩ ⟨t', k'⟩ lt e he e' he'
  obtain ⟨_, -, rfl⟩ := Option.map_eq_some_iff.1 he
  obtain ⟨_, -, rfl⟩ := Option.map_eq_some_iff.1 he'
  exact lt

theorem lookup_blocks {es pre post : List TakenEdge} {e : TakenEdge} (base step : Nat)
    (h : es = pre ++ e :: post) (hpre : ∀ e' ∈ pre, e'.slot ≠ e.slot) :
    (es.zipIdx.map fun p => (p.1.slot, base + p.2 * step)).lookup e.slot
      = some (base + pre.length * step) := by
  subst h
  suffices ∀ k, (((pre ++ e :: post).zipIdx k).map fun p => (p.1.slot, base + p.2 * step)).lookup
      e.slot = some (base + (k + pre.length) * step) by
    simpa using this 0
  induction pre with
  | nil => intro k; simp
  | cons e' pre ih =>
    intro k
    obtain ⟨he', hpre⟩ := List.forall_mem_cons.1 hpre
    rw [List.cons_append, List.zipIdx_cons, List.map_cons, List.lookup_cons,
      beq_eq_false_iff_ne.2 he'.symm]
    show List.lookup _ _ = _
    rw [ih hpre (k + 1), List.length_cons, Nat.add_assoc, Nat.add_comm 1]

variable {next : InstrId}

/-- The blocks stand one behind the other, each at its place. -/
theorem edgeCode_eq (d : ProbeDispatch) (idOf : Nat → Option ProbeId) (targets : List InstrId)
    (next : InstrId) : ∃ head,
    (edgeCode d idOf targets next).code
      = head ++ (takenEdges idOf targets).flatMap (edgeBlock d) ∧
    (edgeCode d idOf targets next).blocks = (takenEdges idOf targets).zipIdx.map
      fun p => (p.1.slot, head.length + p.2 * (d.callSequence.length + 2)) :=
  ⟨_, rfl, rfl⟩

/-- The code depends on the numbers of the edges alone. -/
theorem edgeCode_congr {idOf' : Nat → Option ProbeId}
    (same : ∀ k ≤ targets.length, idOf k = idOf' k) :
    edgeCode d idOf targets next = edgeCode d idOf' targets next := by
  have taken : takenEdges idOf targets = takenEdges idOf' targets := by
    unfold takenEdges
    refine List.filterMap_congr fun ⟨t, slot⟩ hp => ?_
    have bound : slot < targets.length :=
      (List.getElem?_eq_some_iff.1 (List.mem_zipIdx_iff_getElem?.1 hp)).1
    exact congrArg (Option.map _) (same (slot + 1) bound)
  unfold edgeCode
  rw [same 0 (Nat.zero_le _), taken]

/-- Where no edge has a number there is no code. -/
theorem edgeCode_of_none (none : ∀ k, idOf k = none) :
    (edgeCode d idOf targets next).code = [] := by
  obtain rfl : idOf = fun _ => .none := funext none
  simp [edgeCode, takenEdges]

/-- The code consists of probes and of jumps to where the branch led or behind it. -/
theorem mem_edgeCode {i : Instruction} (h : i ∈ (edgeCode d idOf targets next).code) :
    (∃ id, i ∈ d.probe id) ∨ i = .branch .br next ∨
      ∃ e ∈ takenEdges idOf targets, i = .branch .br e.target := by
  have fall : i ∈ (idOf 0).elim [] d.probe → ∃ id, i ∈ d.probe id := by
    intro hi
    cases hid : idOf 0 with
    | none => simp [hid] at hi
    | some id => exact ⟨id, by simpa [hid] using hi⟩
  unfold edgeCode at h
  rcases List.mem_append.1 h with h | h
  · split at h
    · exact .inl (fall h)
    · rcases List.mem_append.1 h with h | h
      · exact .inl (fall h)
      · exact .inr (.inl (List.mem_singleton.1 h))
  · obtain ⟨e, he, h⟩ := List.mem_flatMap.1 h
    rcases List.mem_append.1 h with h | h
    · exact .inl ⟨e.id, h⟩
    · exact .inr (.inr ⟨e, he, List.mem_singleton.1 h⟩)

/-- The probe of the fall-through edge comes first, and then a jump over the blocks. -/
theorem edgeCode_fall (d : ProbeDispatch) (idOf : Nat → Option ProbeId) (targets : List InstrId)
    (next : InstrId) : ∃ blocks,
      (edgeCode d idOf targets next).code = (idOf 0).elim [] d.probe ++ blocks ∧
      (blocks = [] ∨ ∃ rest, blocks = .branch .br next :: rest) := by
  unfold edgeCode
  cases htaken : takenEdges idOf targets with
  | nil => exact ⟨[], by simp, .inl rfl⟩
  | cons e es =>
    refine ⟨.branch .br next :: (e :: es).flatMap (edgeBlock d), ?_, .inr ⟨_, rfl⟩⟩
    simp

/-- The block of a taken edge, and its place in the operand. -/
theorem edgeCode_block (d : ProbeDispatch) (next : InstrId) {slot : Nat} {target : InstrId}
    {id : ProbeId} (ht : targets[slot]? = some target) (hid : idOf (slot + 1) = some id) :
    ∃ pre post, (edgeCode d idOf targets next).code = pre ++ edgeBlock d ⟨slot, target, id⟩ ++ post ∧
      (edgeCode d idOf targets next).blocks.lookup slot = some pre.length := by
  have mem : (⟨slot, target, id⟩ : TakenEdge) ∈ takenEdges idOf targets :=
    mem_takenEdges.2 ⟨ht, hid⟩
  obtain ⟨pre, post, split⟩ := List.append_of_mem mem
  have earlier : ∀ e ∈ pre, e.slot ≠ slot := by
    intro e he
    have sorted := takenEdges_sorted idOf targets
    rw [split] at sorted
    exact Nat.ne_of_lt ((List.pairwise_append.1 sorted).2.2 e he _ List.mem_cons_self)
  obtain ⟨head, code, blocks⟩ := edgeCode_eq d idOf targets next
  refine ⟨head ++ pre.flatMap (edgeBlock d), post.flatMap (edgeBlock d), ?_, ?_⟩
  · rw [code, split, List.flatMap_append, List.flatMap_cons]
    simp only [List.append_assoc]
  · rw [blocks, List.length_append, length_flatMap_edgeBlock]
    exact lookup_blocks (e := ⟨slot, target, id⟩) head.length (d.callSequence.length + 2) split earlier

/-- Only an edge has a block, and that starts in the code. -/
theorem lt_of_block {b : Nat × Nat} (h : b ∈ (edgeCode d idOf targets next).blocks) :
    b.1 < targets.length ∧ b.2 < (edgeCode d idOf targets next).code.length := by
  obtain ⟨head, code, blocks⟩ := edgeCode_eq d idOf targets next
  rw [blocks] at h
  obtain ⟨⟨e, k⟩, he, rfl⟩ := List.mem_map.1 h
  have edge := (mem_takenEdges.1 (List.fst_mem_of_mem_zipIdx he)).1
  refine ⟨(List.getElem?_eq_some_iff.1 edge).1, ?_⟩
  have count : k < (takenEdges idOf targets).length := by
    have := List.snd_lt_of_mem_zipIdx he
    omega
  have room := Nat.mul_le_mul_right (d.callSequence.length + 2) (Nat.succ_le_of_lt count)
  rw [Nat.succ_mul] at room
  rw [code, List.length_append, length_flatMap_edgeBlock]
  show head.length + k * _ < _
  omega

/-- An edge without a number has no block. -/
theorem edgeCode_unnumbered {slot : Nat} (hid : idOf (slot + 1) = none) :
    (edgeCode d idOf targets next).blocks.lookup slot = none := by
  obtain ⟨head, -, blocks⟩ := edgeCode_eq d idOf targets next
  rw [blocks, List.lookup_eq_none_iff]
  rintro ⟨slot', off⟩ hp
  obtain ⟨⟨e, k⟩, he, hp⟩ := List.mem_map.1 hp
  obtain ⟨rfl, -⟩ := Prod.mk.inj hp
  have numbered := (mem_takenEdges.1 (List.fst_mem_of_mem_zipIdx he)).2
  rw [bne_iff_ne]
  rintro rfl
  rw [hid] at numbered
  cases numbered

/-- Without code no edge has a number. -/
theorem edgeCode_nil (h : (edgeCode d idOf targets next).code = []) :
    idOf 0 = none ∧ ∀ slot target, targets[slot]? = some target → idOf (slot + 1) = none := by
  constructor
  · obtain ⟨blocks, e, -⟩ := edgeCode_fall d idOf targets next
    rw [h] at e
    cases h0 : idOf 0 with
    | none => rfl
    | some id => simp [h0, ProbeDispatch.probe] at e
  · intro slot target ht
    cases hid : idOf (slot + 1) with
    | none => rfl
    | some id =>
      obtain ⟨pre, post, e, -⟩ := edgeCode_block d next ht hid
      rw [h] at e
      simp [edgeBlock] at e

end

/-! ## The way through a block -/

/-- Where control is behind `k` of `len` new instructions: at the next one, or where the last one
leads. -/
def placeIn (first : InstrId) (len : Nat) (last : Option InstrId) (k : Nat) : Option InstrId :=
  if k < len then some (first + k) else last

/-- New instructions, numbered from `first` on and one behind the other. -/
structure Inserted (m : Method) (first : InstrId) (code : List Instruction) (last : Option InstrId) :
    Prop where
  instruction : ∀ i < code.length, m.instruction? (first + i) = code[i]?
  next : ∀ i < code.length, m.next? (first + i) = placeIn first code.length last (i + 1)

section
variable {m : Method} {n : Nat} {first : InstrId} {code : List Instruction} {last : Option InstrId}
  (inserted : Inserted m first code last) (fresh : n ≤ first)

include inserted fresh

theorem runs_of_segment (pre post : List Instruction) {seg : List Instruction}
    (e : code = pre ++ seg ++ post) {x y : InstrId}
    (hx : placeIn first code.length last pre.length = some x)
    (hy : placeIn first code.length last (pre.length + seg.length) = some y) :
    Runs m n x seg y := by
  induction seg generalizing pre x with
  | nil =>
    rw [List.length_nil, Nat.add_zero, hx, Option.some.injEq] at hy
    rw [hy]
    exact .nil y
  | cons i seg ih =>
    have len : code.length = pre.length + (seg.length + 1) + post.length := by
      rw [e, List.length_append, List.length_append, List.length_cons]
    have inside : pre.length < code.length := by omega
    rw [placeIn, if_pos inside, Option.some.injEq] at hx
    subst hx
    have hi : m.instruction? (first + pre.length) = some i := by
      rw [inserted.instruction _ inside, e]
      simp
    obtain ⟨x', hx'⟩ : ∃ x', placeIn first code.length last (pre.length + 1) = some x' := by
      cases seg with
      | nil => exact ⟨y, hy⟩
      | cons j seg =>
        rw [List.length_cons] at len
        exact ⟨_, if_pos (by omega)⟩
    refine .cons (Nat.le_trans fresh (Nat.le_add_right ..)) hi ((inserted.next _ inside).trans hx') ?_
    refine ih (pre ++ [i]) (by rw [e]; simp) ?_ ?_
    · rw [List.length_append]
      exact hx'
    · rw [← hy, List.length_append, List.length_singleton, List.length_cons, Nat.add_assoc,
        Nat.add_comm 1]

variable {d : ProbeDispatch}

theorem enter_jump (pre post : List Instruction) {target x : InstrId}
    (e : code = pre ++ .branch .br target :: post)
    (hx : placeIn first code.length last pre.length = some x) (ht : target < n) :
    Enter m n d x [] target := by
  have inside : pre.length < code.length := by
    rw [e, List.length_append, List.length_cons]
    omega
  rw [placeIn, if_pos inside, Option.some.injEq] at hx
  subst hx
  refine .jump (Nat.le_trans fresh (Nat.le_add_right ..)) ?_ (.here ht)
  rw [inserted.instruction _ inside, e]
  simp

/-- **The block of a taken edge** reports the number of the edge and goes on to its target. -/
theorem enter_block {pre post : List Instruction} {e : TakenEdge}
    (hcode : code = pre ++ edgeBlock d e ++ post) (ht : e.target < n) :
    Enter m n d (first + pre.length) [e.id] e.target := by
  have len : code.length = pre.length + ((d.probe e.id).length + 1) + post.length := by
    rw [hcode, List.length_append, List.length_append, edgeBlock, List.length_append]
    rfl
  have start : placeIn first code.length last pre.length = some (first + pre.length) :=
    if_pos (by omega)
  have stop : placeIn first code.length last (pre.length + (d.probe e.id).length)
      = some (first + (pre.length + (d.probe e.id).length)) :=
    if_pos (by omega)
  have way : Runs m n (first + pre.length) (d.probe e.id)
      (first + (pre.length + (d.probe e.id).length)) := by
    refine runs_of_segment inserted fresh pre (.branch .br e.target :: post) ?_ start stop
    rw [hcode, edgeBlock]
    simp
  refine .probe way (enter_jump inserted fresh (pre ++ d.probe e.id) post ?_ ?_ ht)
  · rw [hcode, edgeBlock]
    simp
  · rw [List.length_append]
    exact stop

/-- **The code behind a branch** reports the number of the fall-through edge and goes on to the next
instruction. -/
theorem enter_fall (id? : Option ProbeId) {next : InstrId} {blocks : List Instruction}
    (hlast : last = some next) (hcode : code = id?.elim [] d.probe ++ blocks) (ne : code ≠ [])
    (jump : blocks = [] ∨ ∃ rest, blocks = .branch .br next :: rest) (hn : next < n) :
    Enter m n d first id?.toList next := by
  have start : placeIn first code.length last 0 = some first :=
    if_pos (List.length_pos_iff.2 ne)
  have behind : ∃ y, placeIn first code.length last (id?.elim [] d.probe).length = some y ∧
      Enter m n d y [] next := by
    rcases jump with rfl | ⟨rest, rfl⟩
    · refine ⟨next, ?_, .here hn⟩
      rw [hcode, List.append_nil, placeIn, if_neg (Nat.lt_irrefl _), hlast]
    · refine ⟨_, if_pos ?_, enter_jump inserted fresh _ _ hcode (if_pos ?_) hn⟩ <;>
        rw [hcode, List.length_append, List.length_cons] <;> omega
  obtain ⟨y, hy, enter⟩ := behind
  cases id? with
  | none =>
    have : first = y := Option.some.inj (start.symm.trans hy)
    rw [this]
    exact enter
  | some id =>
    refine .probe (runs_of_segment inserted fresh [] blocks hcode start ?_) enter
    rw [List.length_nil, Nat.zero_add]
    exact hy

end

end CilProbes
