import CilProbes.Proofs.Coverage.Passes
import CilProbes.Proofs.Coverage.Segments
import CilProbes.Proofs.Writing.Relocation
import Mathlib.Data.Finset.Card
import Mathlib.Data.List.Sort

/-!
# Points and what they put in

The points that count can be told from the method alone: sequence points that start an instruction
and branch points that name an edge. Each step of the two passes counts what it puts in, so the
probes and jumps of the method can be held against the points that have been worked through.

* `Method.countedPoints`, `Method.countedEdges`: the points that count.
* `EdgesTally.step`, `PointsTally.step`: one step of each pass.
* `same_instrument`: branch points that name no edge can be left out.
* `instrument_tallies`: what is counted, what is put in and what is kept.
-/

namespace CilProbes

open Logged

/-! ## The points that count -/

namespace Method

variable (m : Method)

/-- The offset starts an instruction. -/
def Starts (o : Nat) : Prop := ∃ a ∈ m.order, m.origin? a = some o

/-- **The edge can be covered**: its offset starts a conditional branch or a switch that is not the
last instruction, and its path falls through or takes one of the targets. -/
def HasEdge (e : Nat × Nat) : Prop :=
  ∃ a ∈ m.order, m.origin? a = some e.1 ∧ ∃ i ∈ m.instruction? a,
    (i.flow = .conditional ∨ i.flow = .switch) ∧ (m.next? a).isSome ∧ e.2 ≤ i.targets.length

instance : DecidablePred m.Starts := fun o =>
  inferInstanceAs (Decidable (∃ a ∈ m.order, m.origin? a = some o))

instance : DecidablePred m.HasEdge := fun e =>
  inferInstanceAs (Decidable (∃ a ∈ m.order, m.origin? a = some e.1 ∧ ∃ i ∈ m.instruction? a,
    (i.flow = .conditional ∨ i.flow = .switch) ∧ (m.next? a).isSome ∧ e.2 ≤ i.targets.length))

/-- The sequence points that count, with repetitions. -/
def countedPoints (qs : List SequencePoint) : List SequencePoint := qs.filter (m.Starts ·.offset)

/-- **The edges that count**, as pairs of an offset and a path, each once. -/
def countedEdges (ps : List BranchPoint) : List (Nat × Nat) :=
  (ps.map fun q => (q.offset, q.path)).dedup.filter m.HasEdge

end Method

/-- The edges among some that take a target. -/
def takenOf (es : List (Nat × Nat)) : List (Nat × Nat) := es.filter (0 < ·.2)

/-- **The jumps that some edges need**: one in each block of a taken edge, and one over the blocks of
each branch. -/
def jumpsOf (es : List (Nat × Nat)) : Nat :=
  (takenOf es).length + ((takenOf es).map Prod.fst).toFinset.card

variable {m m₁ m₂ : Method} {d : ProbeDispatch} {probes : List ProbeId} {jumps : Nat}

/-! ## The tally of the edges -/

/-- The number that an edge reports. -/
def numberOf (ps : List BranchPoint) (e : Nat × Nat) : Option ProbeId := edgeId? ps e.1 e.2

/-- The edges that count at some offsets. -/
def edgesIn (m : Method) (ps : List BranchPoint) (done : List Nat) : List (Nat × Nat) :=
  (m.countedEdges ps).filter (·.1 ∈ done)

section
variable {ps : List BranchPoint} {done : List Nat} {o : Nat}

theorem mem_countedEdges {e : Nat × Nat} :
    e ∈ m.countedEdges ps ↔ m.HasEdge e ∧ (numberOf ps e).isSome := by
  unfold Method.countedEdges numberOf
  rw [List.mem_filter, List.mem_dedup, isSome_edgeId?, List.mem_map, decide_eq_true_iff, and_comm]
  simp only [Prod.ext_iff]

/-- Every edge that counts has a number. -/
theorem numbers_countedEdges :
    ((m.countedEdges ps).filterMap (numberOf ps)).map some
      = (m.countedEdges ps).map (numberOf ps) := by
  have numbered : ∀ e ∈ m.countedEdges ps, (numberOf ps e).isSome :=
    fun e he => (mem_countedEdges.1 he).2
  generalize m.countedEdges ps = es at numbered ⊢
  induction es with
  | nil => rfl
  | cons e es ih =>
    obtain ⟨he, hes⟩ := List.forall_mem_cons.1 numbered
    obtain ⟨id, hid⟩ := Option.isSome_iff_exists.1 he
    rw [List.filterMap_cons_some hid, List.map_cons, List.map_cons, ih hes, hid]

theorem nodup_countedEdges : (m.countedEdges ps).Nodup := (List.nodup_dedup _).filter _

theorem edgesIn_all : edgesIn m ps (branchOffsets ps) = m.countedEdges ps := by
  refine List.filter_eq_self.2 fun e he => ?_
  obtain ⟨p, hp, ho, -⟩ := isSome_edgeId?.1 (mem_countedEdges.1 he).2
  exact decide_eq_true (mem_branchOffsets.2 ⟨p, hp, ho⟩)

/-- What is known of the edges of an instruction at an offset that others do not have. -/
theorem hasEdge_iff (closed : m.Closed) {a : InstrId} {i : Instruction} {k : Nat}
    (hi : m.instruction? a = some i) (ho : m.origin? a = some o) : m.HasEdge (o, k) ↔
      (i.flow = .conditional ∨ i.flow = .switch) ∧ (m.next? a).isSome ∧ k ≤ i.targets.length := by
  constructor
  · rintro ⟨b, -, hb, j, hj, edge⟩
    obtain rfl := closed.distinct a b o ho hb
    rw [hi] at hj
    cases hj
    exact edge
  · exact fun edge => ⟨a, closed.ordered.mem_iff.2 (Method.lt_of_instruction? hi), ho, i, hi, edge⟩

/-- A branch adds the paths that have numbers. -/
theorem edgesIn_step (closed : m.Closed) (todo : o ∉ done) {a next : InstrId} {i : Instruction}
    (hi : m.instruction? a = some i) (branches : i.flow = .conditional ∨ i.flow = .switch)
    (hn : m.next? a = some next) (ho : m.origin? a = some o) :
    (edgesIn m ps (done ++ [o])).Perm
      (edgesIn m ps done ++ (numberedPaths (edgeId? ps o) i.targets).map (o, ·)) := by
  have injective : Function.Injective (Prod.mk o : Nat → Nat × Nat) := Prod.mk_right_injective o
  refine (List.perm_ext_iff_of_nodup (nodup_countedEdges.filter _) ?_).2 fun e => ?_
  · refine List.nodup_append.2 ⟨nodup_countedEdges.filter _,
      (nodup_numberedPaths _ _).map injective, fun e he e' he' same => ?_⟩
    obtain ⟨k, -, rfl⟩ := List.mem_map.1 he'
    exact todo (by simpa [same] using (List.mem_filter.1 he).2)
  · obtain ⟨o', k⟩ := e
    simp only [edgesIn, List.mem_append, List.mem_filter, List.mem_map, decide_eq_true_iff,
      List.mem_singleton, mem_countedEdges, Prod.mk.injEq]
    constructor
    · rintro ⟨counted, earlier | rfl⟩
      · exact .inl ⟨counted, earlier⟩
      · have edge := (hasEdge_iff closed hi ho).1 counted.1
        exact .inr ⟨k, mem_numberedPaths.2 ⟨edge.2.2, counted.2⟩, rfl, rfl⟩
    · rintro (⟨counted, earlier⟩ | ⟨k, hk, rfl, rfl⟩)
      · exact ⟨counted, .inl earlier⟩
      · obtain ⟨bound, numbered⟩ := mem_numberedPaths.1 hk
        exact ⟨⟨(hasEdge_iff closed hi ho).2 ⟨branches, by simp [hn], bound⟩, numbered⟩, .inr rfl⟩

/-- An offset without an edge that counts adds nothing. -/
theorem edgesIn_skip (none : ∀ k, (o, k) ∉ m.countedEdges ps) :
    edgesIn m ps (done ++ [o]) = edgesIn m ps done := by
  refine List.filter_congr fun e he => ?_
  have other : e.1 ≠ o := by
    rintro rfl
    exact none e.2 he
  simp [other]

theorem jumpsOf_perm {es es' : List (Nat × Nat)} (h : es.Perm es') : jumpsOf es = jumpsOf es' := by
  have taken : (takenOf es).Perm (takenOf es') := h.filter _
  unfold jumpsOf
  rw [taken.length_eq, List.toFinset_eq_of_perm _ _ (taken.map _)]

/-- A new branch needs a jump for each taken path, and one over the blocks. -/
theorem jumpsOf_append {es : List (Nat × Nat)} {paths : List Nat} (new : ∀ e ∈ es, e.1 ≠ o) :
    jumpsOf (es ++ paths.map (o, ·)) = jumpsOf es + ((paths.filter (0 < ·)).length
      + if (paths.filter (0 < ·)).isEmpty then 0 else 1) := by
  have taken : takenOf (es ++ paths.map (o, ·))
      = takenOf es ++ (paths.filter (0 < ·)).map (o, ·) := by
    unfold takenOf
    rw [List.filter_append, List.filter_map]
    rfl
  have offsets : ((paths.filter (0 < ·)).map (o, ·)).map Prod.fst
      = List.replicate (paths.filter (0 < ·)).length o := by
    rw [List.map_map]
    exact List.map_const' ..
  have fresh : o ∉ ((takenOf es).map Prod.fst).toFinset := by
    rw [List.mem_toFinset, List.mem_map]
    rintro ⟨e, he, ho⟩
    exact new e (List.mem_of_mem_filter he) ho
  unfold jumpsOf
  rw [taken, List.length_append, List.length_map, List.map_append, offsets, List.toFinset_append]
  cases paths.filter (0 < ·) with
  | nil => simp
  | cons k ks =>
    rw [List.length_cons, List.toFinset_replicate_of_ne_zero (Nat.succ_ne_zero _),
      Finset.card_union_of_disjoint (Finset.disjoint_singleton_right.2 fresh),
      Finset.card_singleton]
    simp only [List.isEmpty_cons, Bool.false_eq_true, if_false]
    omega

/-- **What the pass over the branches has counted and put in** for the offsets that it has worked
through. -/
structure EdgesTally (d : ProbeDispatch) (m : Method) (ps : List BranchPoint) (done : List Nat)
    (r : Nat × Method) : Prop where
  count : r.1 = (edgesIn m ps done).length
  made : r.2.MadeOf d m ((edgesIn m ps done).filterMap (numberOf ps)) (jumpsOf (edgesIn m ps done))

theorem EdgesTally.start (ordered : m.Ordered) : EdgesTally d m ps [] (0, m) := by
  have nothing : edgesIn m ps [] = [] := by simp [edgesIn]
  refine ⟨by rw [nothing]; rfl, ?_⟩
  rw [nothing]
  exact madeOf_self ordered

theorem EdgesTally.step {count : Nat} {r : Nat × Method} (tally : EdgesTally d m ps done (count, m₁))
    (inv : EdgesDone d m ps done m₁) (closed : m.Closed) (todo : o ∉ done)
    (h : (Method.addBranchPoints ps d (count, m₁) o).Yields r) :
    EdgesTally d m ps (done ++ [o]) r := by
  have named : ∀ {a}, m₁.findOrigin? o = some a ↔ a < m.nextId ∧ m.origin? a = some o :=
    inv.extends_.findOrigin?_iff closed
  rcases addBranchPoints_cases h with ⟨rfl, skipped⟩ |
    ⟨a, i, next, ids, m₂, found, hi₁, branches, hn₁, ne, inserted, rfl⟩
  · -- A step that puts nothing in has found no edge that counts.
    have nothing : ∀ k, (o, k) ∉ m.countedEdges ps := by
      intro k hk
      obtain ⟨⟨a, ha, ho, i, hi, branches, last, bound⟩, numbered⟩ := mem_countedEdges.1 hk
      have ha := closed.ordered.mem_iff.1 ha
      obtain ⟨next, hn⟩ := Option.isSome_iff_exists.1 last
      obtain ⟨hi₁, hn₁⟩ := inv.untouched todo ha ho
      have counted : k ∈ numberedPaths (edgeId? ps o) i.targets :=
        mem_numberedPaths.2 ⟨bound, numbered⟩
      rw [numberedPaths_nil
        (skipped a i next (named.2 ⟨ha, ho⟩) (hi₁.trans hi) branches (hn₁.trans hn))] at counted
      cases counted
    obtain ⟨count, made⟩ := tally
    refine ⟨?_, ?_⟩ <;> rw [edgesIn_skip nothing] <;> assumption
  · obtain ⟨ha, ho⟩ := named.1 found
    obtain ⟨hi, hn⟩ := inv.untouched todo ha ho
    have perm : (edgesIn m ps (done ++ [o])).Perm
        (edgesIn m ps done ++ (numberedPaths (edgeId? ps o) i.targets).map (o, ·)) :=
      edgesIn_step closed todo (hi.symm.trans hi₁) branches (hn.symm.trans hn₁) ho
    have ins := Method.insert_after inv.extends_.ordered ne inserted
    have hi₂ : m₂.instruction? a = some i := by
      rw [ins.instruction a (Nat.lt_of_lt_of_le ha inv.extends_.grown), hi₁]
    have earlier : ∀ e ∈ edgesIn m ps done, e.1 ≠ o := by
      rintro e he rfl
      exact todo (by simpa using (List.mem_filter.1 he).2)
    have made := tally.made.insert inv.extends_ ha ne inserted
      (cuts_edgeCode d m.nextId (edgeId? ps o) i.targets next) (originals_edgeSegments _ _)
    refine ⟨?_, ?_⟩
    · rw [perm.length_eq, List.length_append, List.length_map, ← tally.count]
      exact congrArg (count + ·) (length_numberedPaths d (edgeId? ps o) i.targets next).symm
    · have jumps : jumpsOf (edgesIn m ps (done ++ [o])) = jumpsOf (edgesIn m ps done)
          + (edgeSegments (edgeId? ps o) i.targets).count .jump := by
        rw [jumpsOf_perm perm, jumpsOf_append earlier, taken_numberedPaths, jumps_edgeSegments]
        simp
      rw [jumps]
      refine (made.perm ?_).setInstruction ha hi₂
      refine .trans ?_ (perm.filterMap _).symm
      rw [List.filterMap_append, List.filterMap_map, probes_edgeSegments]
      exact .refl _

/-- **The first pass** counts the edges and puts in one probe for each. -/
theorem branch_tally (closed : m.Closed) {r : Nat × Method}
    (h : (m.addBranchCoverage ps d).Yields r) : r.1 = (m.countedEdges ps).length ∧
      r.2.MadeOf d m ((m.countedEdges ps).filterMap (numberOf ps)) (jumpsOf (m.countedEdges ps)) := by
  have finish : EdgesDone d m ps (branchOffsets ps) r.2 ∧ EdgesTally d m ps (branchOffsets ps) r := by
    unfold Method.addBranchCoverage at h
    refine yields_foldlM (P := fun done r => EdgesDone d m ps done r.2 ∧ EdgesTally d m ps done r) h
      ⟨.start closed, .start closed.ordered⟩ ?_
    rintro done o rest ⟨count, m₁⟩ r' split ⟨inv, tally⟩ step
    have todo := not_mem_done split
    exact ⟨inv.step closed todo step, tally.step inv closed todo step⟩
  have tally := finish.2
  rw [← edgesIn_all]
  exact ⟨tally.count, tally.made⟩

end

/-! ## The tally of the sequence points -/

section
variable {qs done : List SequencePoint} {q : SequencePoint}

/-- **What the pass over the sequence points has counted and put in** for the points that it has
worked through. -/
structure PointsTally (d : ProbeDispatch) (m : Method) (edges : List ProbeId) (jumps : Nat)
    (done : List SequencePoint) (r : Nat × Method) : Prop where
  extends_ : m.Extends r.2
  count : r.1 = (m.countedPoints done).length
  made : r.2.MadeOf d m (edges ++ (m.countedPoints done).map (·.id)) jumps

theorem PointsTally.step {edges : List ProbeId} {count : Nat} {r : Nat × Method}
    (tally : PointsTally d m edges jumps done (count, m₁)) (closed : m.Closed)
    (h : (Method.addSequencePoint d (count, m₁) q).Yields r) :
    PointsTally d m edges jumps (done ++ [q]) r := by
  obtain ⟨ext, counted, made⟩ := tally
  have split : m.countedPoints (done ++ [q]) = m.countedPoints done ++ m.countedPoints [q] :=
    List.filter_append ..
  rcases addSequencePoint_cases h with ⟨unknown, rfl⟩ | ⟨a, ids, m₂, found, inserted, rfl⟩
  · have none : m.countedPoints [q] = [] := by
      refine List.filter_eq_nil_iff.2 fun p hp starts => ?_
      obtain rfl := List.mem_singleton.1 hp
      obtain ⟨a, -, ho⟩ := of_decide_eq_true starts
      exact ext.unnamed closed unknown a ho
    rw [none, List.append_nil] at split
    exact ⟨ext, split ▸ counted, split ▸ made⟩
  · obtain ⟨ha, ho⟩ := (ext.findOrigin?_iff closed).1 found
    have one : m.countedPoints [q] = [q] :=
      List.filter_cons_of_pos (decide_eq_true ⟨a, closed.ordered.mem_iff.2 ha, ho⟩)
    rw [one] at split
    refine ⟨ext.addSequencePoint h, ?_, ?_⟩
    · rw [split, List.length_append, ← counted]
      rfl
    · rw [split, List.map_append, ← List.append_assoc]
      exact made.insert ext ha (List.cons_ne_nil _ _) inserted (cuts_probe q.id) rfl

/-- **The second pass** counts the points that name an instruction and puts in one probe for each. -/
theorem sequence_tally {edges : List ProbeId} (closed : m.Closed) (ext : m.Extends m₁)
    (made : m₁.MadeOf d m edges jumps) {r : Nat × Method}
    (h : (m₁.addSequenceCoverage qs d).Yields r) : m.Extends r.2 ∧
      r.1 = (m.countedPoints qs).length ∧
      r.2.MadeOf d m (edges ++ (m.countedPoints qs).map (·.id)) jumps := by
  have finish : PointsTally d m edges jumps (inOffsetOrder qs) r := by
    unfold Method.addSequenceCoverage at h
    refine yields_foldlM (P := fun done r => PointsTally d m edges jumps done r) h
      ⟨ext, rfl, ?_⟩ ?_
    · simpa [Method.countedPoints] using made
    rintro done q rest ⟨count, m₁⟩ r' - tally step
    exact tally.step closed step
  have perm : (m.countedPoints (inOffsetOrder qs)).Perm (m.countedPoints qs) :=
    (inOffsetOrder_perm qs).filter _
  exact ⟨finish.extends_, finish.count.trans perm.length_eq,
    finish.made.perm ((perm.map _).append_left _)⟩

end

/-! ## Points that can be left out -/

/-- The branch that an offset names, as the first pass looks for it: the instruction with its id and
the next one. -/
def Method.branchAt? (m : Method) (o : Nat) : Option (InstrId × Instruction × InstrId) :=
  match m.findOrigin? o with
  | none => none
  | some a =>
    match m.instruction? a, m.next? a with
    | some i, some next =>
      if i.flow = .conditional ∨ i.flow = .switch then some (a, i, next) else none
    | _, _ => none

/-- Puts code behind a branch and leads the branch to it, if there is code. -/
def Method.addBlocks (m : Method) (count : Nat) (a : InstrId) (i : Instruction) (edges : EdgeCode) :
    Logged (Nat × Method) :=
  if edges.code.isEmpty then pure (count, m)
  else do
    let (_, m') ← (m.insert a edges.code .after : Except Fault _)
    pure (count + edges.probes, m'.setInstruction a (i.led edges.blocks m.nextId))

section
variable {ps : List BranchPoint} {done : List Nat} {o count : Nat} {keep : BranchPoint → Bool}

/-- A step of the first pass depends on the code of its branch alone. -/
theorem same_branchPoints (ps : List BranchPoint) (d : ProbeDispatch) (count : Nat) (m : Method)
    (o : Nat) : (Method.addBranchPoints ps d (count, m) o).Same
      (match m.branchAt? o with
      | none => pure (count, m)
      | some (a, i, next) => m.addBlocks count a i (edgeCode d (edgeId? ps o) i.targets next)) := by
  have here : edgeId? (ps.filter (·.offset == o)) o = edgeId? ps o := by
    funext k
    exact edgeId?_filter ps o k
  unfold Method.addBranchPoints Method.branchAt?
  simp only [here]
  cases found : m.findOrigin? o with
  | none => exact same_noted _ (same_pure _)
  | some a =>
    cases hi : m.instruction? a with
    | none =>
      simp only [hi]
      exact same_pure _
    | some i =>
      cases hn : m.next? a with
      | none =>
        simp only [hi, hn]
        split <;> exact same_noted _ (same_pure _)
      | some next =>
        simp only [hi, hn]
        split
        · show Logged.Same _ (m.addBlocks count a i (edgeCode d (edgeId? ps o) i.targets next))
          unfold Method.addBlocks
          split
          · exact same_pure _
          · exact same_bind (same_lift _) fun _ _ => same_pure _
        · exact same_noted _ (same_pure _)

theorem branchAt?_eq_some {a next : InstrId} {i : Instruction}
    (h : m.branchAt? o = some (a, i, next)) : m.findOrigin? o = some a ∧
      m.instruction? a = some i ∧ m.next? a = some next ∧
      (i.flow = .conditional ∨ i.flow = .switch) := by
  unfold Method.branchAt? at h
  split at h
  · cases h
  · rename_i found
    split at h
    · rename_i hi hn
      split at h
      · rename_i branches
        cases h
        exact ⟨found, hi, hn, branches⟩
      · cases h
    · cases h

theorem same_sequencePoint (r : Nat × Method) (q : SequencePoint) :
    (Method.addSequencePoint d r q).Same (Method.addSequencePoint d r q) := by
  obtain ⟨count, m⟩ := r
  unfold Method.addSequencePoint
  cases found : m.findOrigin? q.offset with
  | none =>
    simp only [found]
    exact same_bind (same_noted _ (same_pure ())) fun _ _ => same_pure _
  | some a =>
    simp only [found]
    exact same_bind (same_lift _) fun _ _ => same_pure _

/-- Where no edge has a number a step of the first pass does nothing. -/
theorem same_unnumbered (none : ∀ k, edgeId? ps o k = none) :
    (Method.addBranchPoints ps d (count, m) o).Same (pure (count, m)) := by
  refine (same_branchPoints ps d count m o).trans ?_
  split
  · exact same_pure _
  · unfold Method.addBlocks
    rw [edgeCode_of_none none]
    exact same_pure _

/-- A step of the first pass is the same with the points that name an edge of its branch. -/
theorem EdgesDone.same_kept (inv : EdgesDone d m ps done m₁) (closed : m.Closed) (todo : o ∉ done)
    (kept : ∀ q ∈ ps, m.HasEdge (q.offset, q.path) → keep q = true) :
    (Method.addBranchPoints ps d (count, m₁) o).Same
      (Method.addBranchPoints (ps.filter keep) d (count, m₁) o) := by
  have edges : ∀ a i next, m₁.branchAt? o = some (a, i, next) →
      edgeCode d (edgeId? ps o) i.targets next
        = edgeCode d (edgeId? (ps.filter keep) o) i.targets next := by
    intro a i next h
    obtain ⟨found, hi₁, hn₁, branches⟩ := branchAt?_eq_some h
    obtain ⟨ha, ho⟩ := (inv.extends_.findOrigin?_iff closed).1 found
    obtain ⟨hi, hn⟩ := inv.untouched todo ha ho
    refine edgeCode_congr fun k bound => (edgeId?_kept fun q hq e e' => kept q hq ?_).symm
    rw [e, e']
    refine (hasEdge_iff closed (hi.symm.trans hi₁) ho).2 ⟨branches, ?_, bound⟩
    rw [← hn, hn₁]
    rfl
  have left := same_branchPoints ps d count m₁ o
  have right := same_branchPoints (ps.filter keep) d count m₁ o
  cases h : m₁.branchAt? o with
  | none =>
    rw [h] at left right
    exact left.trans right.symm
  | some b =>
    obtain ⟨a, i, next⟩ := b
    rw [h] at left right
    simp only [edges a i next h] at left
    exact left.trans right.symm

/-- The offsets of some of the points are among those of all, in the same order. -/
theorem branchOffsets_kept (ps : List BranchPoint) (keep : BranchPoint → Bool) :
    (branchOffsets ps).filter (· ∈ branchOffsets (ps.filter keep))
      = branchOffsets (ps.filter keep) := by
  refine ((branchOffsets_sorted ps).filter _).eq_of_mem_iff (branchOffsets_sorted _) fun o => ?_
  rw [List.mem_filter, decide_eq_true_iff, and_iff_right_of_imp]
  intro ho
  obtain ⟨p, hp, ho⟩ := mem_branchOffsets.1 ho
  exact mem_branchOffsets.2 ⟨p, List.mem_of_mem_filter hp, ho⟩

/-- **Points that name no edge of the method change nothing** in the first pass. -/
theorem same_branchCoverage (closed : m.Closed)
    (kept : ∀ q ∈ ps, m.HasEdge (q.offset, q.path) → keep q = true) :
    (m.addBranchCoverage ps d).Same (m.addBranchCoverage (ps.filter keep) d) := by
  unfold Method.addBranchCoverage
  rw [← branchOffsets_kept]
  refine same_foldlM_filter (P := fun done r => EdgesDone d m ps done r.2) (.start closed) ?_
  rintro done o rest ⟨count, m₁⟩ split inv
  have todo := not_mem_done split
  have same : (Method.addBranchPoints ps d (count, m₁) o).Same
      (Method.addBranchPoints (ps.filter keep) d (count, m₁) o) :=
    inv.same_kept closed todo kept
  refine ⟨fun r step => inv.step closed todo step, ?_⟩
  split
  · exact same
  · -- No point of this branch is kept.
    rename_i absent
    exact same.trans (same_unnumbered (edgeId?_of_not_mem (by simpa using absent)))

/-- **Points that name no edge of the method can be left out.** -/
theorem same_instrument (closed : m.Closed) {p : Points}
    (kept : ∀ q ∈ p.branches, m.HasEdge (q.offset, q.path) → keep q = true) :
    (m.instrument p d).Same (m.instrument ⟨p.sequence, p.branches.filter keep⟩ d) := by
  have guard : m.isInstrumented ⟨p.sequence, p.branches.filter keep⟩ d = m.isInstrumented p d := rfl
  unfold Method.instrument
  rw [guard]
  split
  · exact same_pure _
  · split
    · exact same_pure _
    · refine same_bind (same_branchCoverage closed kept) fun branches _ => ?_
      exact same_bind (same_foldlM same_sequencePoint _ _) fun sequence _ => same_pure _

end

/-! ## The tally -/

/-- **Nothing is lost or duplicated.** The numbers that instrumentation reports are those of the
sequence points that start an instruction and of the edges that can be covered. The method is made of
its instructions, in their order and up to the targets of branches, of one whole probe for each of
the points and edges that count, with its number, and of the jumps that the taken edges need. Branch
points that name no edge of the method can be left out. -/
theorem instrument_tallies {body : Bytes} {m m' : Method} {p : Points} {d : ProbeDispatch} {s b : Nat}
    (decoded : Method.decode body = .ok m)
    (applied : (m.instrument p d).runOn.1 = .ok (.applied s b, m')) :
    s = (m.countedPoints p.sequence).length ∧ b = (m.countedEdges p.branches).length ∧
    (∀ a ∈ m.order, ∃ i i', m.instruction? a = some i ∧ m'.instruction? a = some i' ∧
      i'.opcode = i.opcode ∧ i'.origin = i.origin ∧ (i.isBranch = false → i'.operand = i.operand)) ∧
    (∃ segs, CutInto m' d m.nextId m'.order segs ∧
      segs.filterMap Segment.original? = m.order ∧
      ((segs.filterMap Segment.probe?).map some).Perm
        ((m.countedEdges p.branches).map (fun e => edgeId? p.branches e.1 e.2)
          ++ (m.countedPoints p.sequence).map fun q => some q.id) ∧
      segs.count .jump = ((m.countedEdges p.branches).filter (0 < ·.2)).length
        + (((m.countedEdges p.branches).filter (0 < ·.2)).map Prod.fst).toFinset.card) ∧
    ∀ keep : BranchPoint → Bool,
      (∀ q ∈ p.branches, m.HasEdge (q.offset, q.path) → keep q = true) →
      (m.instrument ⟨p.sequence, p.branches.filter keep⟩ d).runOn.1 = .ok (.applied s b, m') := by
  have closed := closed_of_decode decoded
  have removed : ∀ keep : BranchPoint → Bool,
      (∀ q ∈ p.branches, m.HasEdge (q.offset, q.path) → keep q = true) →
      (m.instrument ⟨p.sequence, p.branches.filter keep⟩ d).runOn.1 = .ok (.applied s b, m') :=
    fun keep kept => (same_instrument closed kept).runOn.symm.trans applied
  rcases instrument_cases (yields_of_runOn applied) with ⟨-, h⟩ | ⟨-, -, h⟩ |
    ⟨-, -, branches, sequence, hb, hs, h⟩
  · cases h
  · cases h
  · cases h
    obtain ⟨extends₁, -, -⟩ := branch_pass closed hb
    obtain ⟨edges, made₁⟩ := branch_tally closed hb
    obtain ⟨extends₂, points, made₂⟩ := sequence_tally closed extends₁ made₁ hs
    obtain ⟨segs, cut, originals, perm, jumps⟩ := made₂.increaseMaxStack d.stackDepth
    refine ⟨points, edges, fun a ha => ?_, ⟨segs, cut, originals, ?_, jumps⟩, removed⟩
    · have bound : a < m.nextId := closed.ordered.mem_iff.1 ha
      obtain ⟨i, hi⟩ : ∃ i, m.instruction? a = some i := ⟨_, Array.getElem?_eq_getElem bound⟩
      obtain ⟨i', hi', same⟩ := Method.exists_of_erased (extends₂.kept a bound).symm hi
      obtain ⟨opcode, shape, origin, -⟩ := Instruction.erased_eq.1 same
      exact ⟨i, i', hi, hi', opcode, origin, Operand.eq_of_shape shape⟩
    · have := perm.map some
      rw [List.map_append, numbers_countedEdges, List.map_map] at this
      exact this

/-- Of three sequence points two name an instruction. Two of the branch points give the same edge a
number, and two name no edge: without these the outcome is the same. -/
theorem instrument_tallies_twoReturns :
    Method.decode [0x16, 0x02, 0x2D, 0x01, 0x2A, 0x2A] = .ok twoReturns ∧
    twoReturns.countedEdges [⟨1, 0, 8⟩, ⟨1, 1, 5⟩, ⟨1, 1, 9⟩, ⟨1, 2, 4⟩, ⟨0, 0, 3⟩]
      = [(1, 0), (1, 1)] ∧
    ∃ m', (twoReturns.instrument ⟨[⟨0, 7⟩, ⟨9, 1⟩, ⟨0, 8⟩],
          [⟨1, 0, 8⟩, ⟨1, 1, 5⟩, ⟨1, 1, 9⟩, ⟨1, 2, 4⟩, ⟨0, 0, 3⟩]⟩
          (.trampoline ⟨0x0A000001⟩)).runOn.1 = .ok (.applied 2 2, m') ∧
      (twoReturns.instrument ⟨[⟨0, 7⟩, ⟨9, 1⟩, ⟨0, 8⟩], [⟨1, 0, 8⟩, ⟨1, 1, 5⟩, ⟨1, 1, 9⟩]⟩
          (.trampoline ⟨0x0A000001⟩)).runOn.1 = .ok (.applied 2 2, m') ∧
      ∃ segs, CutInto m' (.trampoline ⟨0x0A000001⟩) 4 m'.order segs ∧
        segs.filterMap Segment.original? = [0, 1, 2, 3] ∧
        ((segs.filterMap Segment.probe?).map some).Perm [some 8, some 9, some 7, some 8] ∧
        segs.count .jump = 2 := by
  have counted : (twoReturns.instrument ⟨[⟨0, 7⟩, ⟨9, 1⟩, ⟨0, 8⟩],
      [⟨1, 0, 8⟩, ⟨1, 1, 5⟩, ⟨1, 1, 9⟩, ⟨1, 2, 4⟩, ⟨0, 0, 3⟩]⟩
      (.trampoline ⟨0x0A000001⟩)).runOn.1.toOption.map Prod.fst = some (.applied 2 2) := by
    decide +kernel
  have edges : twoReturns.countedEdges [⟨1, 0, 8⟩, ⟨1, 1, 5⟩, ⟨1, 1, 9⟩, ⟨1, 2, 4⟩, ⟨0, 0, 3⟩]
      = [(1, 0), (1, 1)] := by
    decide +kernel
  obtain ⟨m', applied⟩ := ok_of_fst counted
  obtain ⟨-, -, -, ⟨segs, cut, originals, perm, jumps⟩, removed⟩ :=
    instrument_tallies decode_twoReturns applied
  have left_out := removed (fun q => q.offset = 1 ∧ q.path ≤ 1) (by decide +kernel)
  have points : twoReturns.countedPoints [⟨0, 7⟩, ⟨9, 1⟩, ⟨0, 8⟩] = [⟨0, 7⟩, ⟨0, 8⟩] := by
    decide +kernel
  have needed : jumpsOf [(1, 0), (1, 1)] = 2 := by decide
  simp only [edges, points] at perm jumps
  exact ⟨decode_twoReturns, edges, m', applied, left_out, segs, cut, originals, perm,
    jumps.trans needed⟩

end CilProbes
