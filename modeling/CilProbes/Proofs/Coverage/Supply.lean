import CilProbes.Proofs.Coverage.Guard
import CilProbes.Proofs.Coverage.Safe
import Mathlib.Data.List.Sort

/-!
# The order of supply

Instrumentation works through the points by offset, so it does not see in which order they were
supplied, but for two things: the sequence points of one offset keep their order, and of the points
of one edge the last one counts. `Points.Agree` says that two sets of points differ in nothing else.

* `eq_of_filter_eq`: a list by offset is determined by its points of each offset.
* `Agree.inOffsetOrder_eq`, `Agree.branchOffsets_eq`, `Agree.addBranchPoints_eq`: what the passes work
  through, and what they do at a branch.
* `supply_order`: instrumentation with either set is the same computation.
-/

namespace CilProbes

/-- **Two supplies of the same points.** At each offset both have the same sequence points in the same
order, so one list is a rearrangement of the other; and for each edge the same number was supplied
last, if any was. -/
structure Points.Agree (p q : Points) : Prop where
  sequence : ∀ o, p.sequence.filter (·.offset = o) = q.sequence.filter (·.offset = o)
  edges : ∀ o k, edgeId? p.branches o k = edgeId? q.branches o k

/-- **A list by offset is determined by its points of each offset.** -/
theorem eq_of_filter_eq {xs ys : List SequencePoint}
    (hx : xs.Pairwise fun q r => q.offset ≤ r.offset) (hy : ys.Pairwise fun q r => q.offset ≤ r.offset)
    (same : ∀ o, xs.filter (·.offset = o) = ys.filter (·.offset = o)) : xs = ys := by
  have mem : ∀ z, z ∈ xs ↔ z ∈ ys := by
    intro z
    have := congrArg (z ∈ ·) (same z.offset)
    simpa [List.mem_filter] using this
  induction xs generalizing ys with
  | nil =>
    cases ys with
    | nil => rfl
    | cons y ys => exact absurd ((mem y).2 List.mem_cons_self) List.not_mem_nil
  | cons x xs ih =>
    cases ys with
    | nil => exact absurd ((mem x).1 List.mem_cons_self) List.not_mem_nil
    | cons y ys =>
      obtain ⟨hxs, sorted⟩ := List.pairwise_cons.1 hx
      obtain ⟨hys, sorted'⟩ := List.pairwise_cons.1 hy
      -- Each of the two first points is as low as any point of the other list.
      have offsets : x.offset = y.offset := by
        have le : x.offset ≤ y.offset := by
          rcases List.mem_cons.1 ((mem y).2 List.mem_cons_self) with rfl | later
          · exact Nat.le_refl _
          · exact hxs y later
        have ge : y.offset ≤ x.offset := by
          rcases List.mem_cons.1 ((mem x).1 List.mem_cons_self) with rfl | later
          · exact Nat.le_refl _
          · exact hys x later
        exact Nat.le_antisymm le ge
      have first := same x.offset
      rw [List.filter_cons_of_pos (by simp), List.filter_cons_of_pos (by simp [offsets])] at first
      obtain ⟨rfl, -⟩ := List.cons.inj first
      have rest : ∀ o, xs.filter (·.offset = o) = ys.filter (·.offset = o) := by
        intro o
        have := same o
        rw [List.filter_cons, List.filter_cons] at this
        split at this
        · exact (List.cons.inj this).2
        · exact this
      refine congrArg (x :: ·) (ih sorted sorted' rest fun z => ?_)
      have := congrArg (z ∈ ·) (rest z.offset)
      simpa [List.mem_filter] using this

section
variable {p q : Points} (agree : p.Agree q)

include agree

theorem Points.Agree.inOffsetOrder_eq : inOffsetOrder p.sequence = inOffsetOrder q.sequence := by
  refine eq_of_filter_eq (inOffsetOrder_sorted _) (inOffsetOrder_sorted _) fun o => ?_
  rw [inOffsetOrder_filter, inOffsetOrder_filter, agree.sequence]

/-- Nothing is supplied on one side alone. -/
theorem Points.Agree.perm : p.sequence.Perm q.sequence :=
  (inOffsetOrder_perm _).symm.trans (agree.inOffsetOrder_eq ▸ inOffsetOrder_perm _)

theorem Points.Agree.first?_eq : p.first? = q.first? := by
  rw [CilProbes.first?_eq, CilProbes.first?_eq, agree.inOffsetOrder_eq]

theorem Points.Agree.branchOffsets_eq : branchOffsets p.branches = branchOffsets q.branches := by
  refine (branchOffsets_sorted _).eq_of_mem_iff (branchOffsets_sorted _) fun o => ?_
  have named : ∀ ps, o ∈ branchOffsets ps ↔ ∃ k, (edgeId? ps o k).isSome := by
    intro ps
    simp only [mem_branchOffsets, isSome_edgeId?]
    exact ⟨fun ⟨b, hb, ho⟩ => ⟨b.path, b, hb, ho, rfl⟩, fun ⟨_, b, hb, ho, _⟩ => ⟨b, hb, ho⟩⟩
  simp only [named, agree.edges]

/-- At a branch only the numbers of its edges matter. -/
theorem Points.Agree.addBranchPoints_eq (d : ProbeDispatch) :
    Method.addBranchPoints p.branches d = Method.addBranchPoints q.branches d := by
  funext r o
  have here : ∀ ps : List BranchPoint,
      edgeId? (ps.filter (·.offset == o)) o = edgeId? ps o := by
    intro ps
    funext k
    exact edgeId?_filter ps o k
  have edges : edgeId? p.branches o = edgeId? q.branches o := funext (agree.edges o)
  unfold Method.addBranchPoints
  simp only [here, edges]

/-- **Instrumentation with either supply is the same computation**, whatever the method. -/
theorem Points.Agree.instrument_eq (m : Method) (d : ProbeDispatch) :
    m.instrument p d = m.instrument q d := by
  have empty : p.sequence.isEmpty = q.sequence.isEmpty := agree.perm.isEmpty_eq
  have guard : m.isInstrumented p d = m.isInstrumented q d := by
    unfold Method.isInstrumented
    rw [agree.first?_eq]
  have branches : m.addBranchCoverage p.branches d = m.addBranchCoverage q.branches d := by
    unfold Method.addBranchCoverage
    rw [agree.branchOffsets_eq, agree.addBranchPoints_eq]
  have sequence : ∀ m₁ : Method,
      m₁.addSequenceCoverage p.sequence d = m₁.addSequenceCoverage q.sequence d := by
    intro m₁
    unfold Method.addSequenceCoverage
    rw [agree.inOffsetOrder_eq]
  unfold Method.instrument
  simp only [empty, guard, branches, sequence]

end

/-- **The order of supply does not matter.** On any method, two supplies of the same points give the
same outcome, the same method and the same notes, and so the same bytes. -/
theorem supply_order (m : Method) (d : ProbeDispatch) {p q : Points} (agree : p.Agree q) :
    (∃ outcome m' log, (m.instrument p d).runOn = (.ok (outcome, m'), log) ∧
      (m.instrument q d).runOn = (.ok (outcome, m'), log)) ∧
    ∀ compact, ((m.instrument p d).runOn.1 >>= fun r => r.2.encode compact)
      = ((m.instrument q d).runOn.1 >>= fun r => r.2.encode compact) := by
  have same := agree.instrument_eq m d
  obtain ⟨⟨outcome, m'⟩, h⟩ := (total_instrument m p d).runOn
  refine ⟨⟨outcome, m', _, Prod.ext h rfl, ?_⟩, fun compact => by rw [same]⟩
  rw [← same]
  exact Prod.ext h rfl

/-- Three sequence points in two orders, and a number that another one replaces. -/
theorem supply_order_twoReturns :
    (Points.mk [⟨3, 1⟩, ⟨0, 7⟩, ⟨0, 8⟩] [⟨1, 0, 8⟩, ⟨1, 1, 5⟩, ⟨1, 1, 9⟩]).Agree
      ⟨[⟨0, 7⟩, ⟨3, 1⟩, ⟨0, 8⟩], [⟨1, 1, 9⟩, ⟨1, 0, 8⟩]⟩ ∧
    ∃ m' log, (twoReturns.instrument ⟨[⟨3, 1⟩, ⟨0, 7⟩, ⟨0, 8⟩], [⟨1, 0, 8⟩, ⟨1, 1, 5⟩, ⟨1, 1, 9⟩]⟩
        (.trampoline ⟨0x0A000001⟩)).runOn = (.ok (.applied 3 2, m'), log) ∧
      (twoReturns.instrument ⟨[⟨0, 7⟩, ⟨3, 1⟩, ⟨0, 8⟩], [⟨1, 1, 9⟩, ⟨1, 0, 8⟩]⟩
        (.trampoline ⟨0x0A000001⟩)).runOn = (.ok (.applied 3 2, m'), log) := by
  have agree : (Points.mk [⟨3, 1⟩, ⟨0, 7⟩, ⟨0, 8⟩] [⟨1, 0, 8⟩, ⟨1, 1, 5⟩, ⟨1, 1, 9⟩]).Agree
      ⟨[⟨0, 7⟩, ⟨3, 1⟩, ⟨0, 8⟩], [⟨1, 1, 9⟩, ⟨1, 0, 8⟩]⟩ := by
    refine ⟨fun o => ?_, fun o k => ?_⟩
    · by_cases low : 0 = o
      · simp [← low]
      · by_cases high : 3 = o <;> simp [low, high]
    · by_cases here : 1 = o
      · by_cases fall : 0 = k
        · simp [edgeId?, ← here, ← fall]
        · by_cases taken : 1 = k <;> simp [edgeId?, ← here, fall, taken]
      · simp [edgeId?, here]
  have counted : (twoReturns.instrument ⟨[⟨3, 1⟩, ⟨0, 7⟩, ⟨0, 8⟩],
      [⟨1, 0, 8⟩, ⟨1, 1, 5⟩, ⟨1, 1, 9⟩]⟩ (.trampoline ⟨0x0A000001⟩)).runOn.1.toOption.map Prod.fst
      = some (.applied 3 2) := by
    decide +kernel
  refine ⟨agree, ?_⟩
  obtain ⟨⟨outcome, m', log, e, e'⟩, -⟩ :=
    supply_order twoReturns (.trampoline ⟨0x0A000001⟩) agree
  rw [e] at counted
  cases counted
  exact ⟨m', log, e, e'⟩

end CilProbes
