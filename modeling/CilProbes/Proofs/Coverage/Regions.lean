import CilProbes.Proofs.Coverage.Passes
import CilProbes.Proofs.Method.Regions

/-!
# Instrumentation keeps exception regions

The passes put code in front of and behind the instructions of a method. What they have put around
each of them so far (`Filled`) follows from one insertion at a time, and it is in the regions of its
instruction whatever comes later.

* `Filled.insert`, `Filled.setInstruction`: what one insertion adds.
* `EdgesDone.filled`, `PointsDone.filled`: one step of each pass.
* `regions_kept`: insertions and instrumentation keep the regions of every clause.
-/

namespace CilProbes

open Logged

/-- An instruction up to its targets. -/
def Method.erased? (m : Method) (x : InstrId) : Option (OpCode × Operand Unit × Option Nat × Nat) :=
  (m.instruction? x).map Instruction.erased

/-- **The code around the instructions of a method**, up to the targets: `before` in front and `after`
behind. -/
structure Filled (m m₁ : Method) (s : Surround) (before after : InstrId → List Instruction) : Prop where
  extends_ : m.Extends m₁
  around : m.Around m₁ s
  new : ∀ a, ∀ x ∈ s.front a ++ s.behind a, m.nextId ≤ x
  front : ∀ a ∈ m.order, (s.front a).map m₁.erased? = (before a).map fun i => some i.erased
  behind : ∀ a ∈ m.order, (s.behind a).map m₁.erased? = (after a).map fun i => some i.erased

variable {m m₁ m₂ : Method} {s : Surround} {before after : InstrId → List Instruction} {a : InstrId}

theorem Filled.refl (ordered : m.Ordered) :
    Filled m m ⟨fun _ => [], fun _ => []⟩ (fun _ => []) (fun _ => []) where
  extends_ := .refl ordered
  around := by
    have block : (Surround.mk (fun _ => []) (fun _ => [])).block = fun a => [a] := rfl
    have head : (Surround.mk (fun _ => []) (fun _ => [])).head = id := rfl
    refine ⟨?_, ?_⟩
    · rw [block, List.flatMap_singleton']
    · rw [head]
      simp [Handler.mapBoundaries]
  new := by simp
  front := fun _ _ => rfl
  behind := fun _ _ => rfl

/-- What stands around an instruction is in the order. -/
theorem Method.Around.mem_order (around : m.Around m₁ s) {c x : InstrId} (hc : c ∈ m.order)
    (hx : x ∈ s.front c ++ s.behind c) : x ∈ m₁.order := by
  rw [around.order, List.mem_flatMap]
  refine ⟨c, hc, ?_⟩
  simp only [Surround.block, List.mem_append, List.mem_cons] at hx ⊢
  tauto

/-- **What one insertion adds**: its code, next to its anchor. -/
theorem Filled.insert (h : Filled m m₁ s before after) (ordered : m.Ordered) (ha : a ∈ m.order)
    {code : List Instruction} {side : Side} {ids : List InstrId} (ne : code ≠ [])
    (new : ∀ i ∈ code, i.New) (hi : m₁.insert a code side = .ok (ids, m₂)) :
    Filled m m₂ (s.comp (.beside a side ids))
      (fun c => before c ++ if c = a ∧ side = .before then code else [])
      (fun c => (if c = a ∧ side = .after then code else []) ++ after c) := by
  obtain ⟨rfl, beside⟩ := Method.insert_around h.extends_.ordered ne hi
  obtain ⟨-, placed⟩ := Method.insert_fresh h.extends_.ordered ne hi
  -- The code inserted before is nobody's anchor, and it stays what it was.
  have comp := fun c => Surround.comp_beside (s := s) side (m₁.freshIds code.length)
    fun hx => absurd (ordered.mem_iff.1 ha) (Nat.not_lt.2 (h.new c a hx))
  have stays : ∀ c ∈ m.order, ∀ x ∈ s.front c ++ s.behind c, m₂.erased? x = m₁.erased? x := by
    intro c hc x hx
    apply ((Method.Extends.refl h.extends_.ordered).insert ne new hi).kept
    exact h.extends_.ordered.mem_iff.1 (h.around.mem_order hc hx)
  have added : (m₁.freshIds code.length).map m₂.erased? = code.map fun i => some i.erased := by
    have := congrArg (List.map (Option.map Instruction.erased)) placed
    rwa [List.map_map, List.map_map] at this
  refine ⟨h.extends_.insert ne new hi, h.around.comp beside, fun c x hx => ?_, fun c hc => ?_,
    fun c hc => ?_⟩
  · rw [(comp c).1, (comp c).2] at hx
    by_cases fresh : x ∈ m₁.freshIds code.length
    · exact Nat.le_trans h.extends_.grown (Method.mem_freshIds.1 fresh).1
    · apply h.new c
      simp only [List.mem_append, List.mem_ite_nil_right, fresh, and_false, or_false,
        false_or] at hx ⊢
      exact hx
  · have old : (s.front c).map m₂.erased? = (s.front c).map m₁.erased? :=
      List.map_congr_left fun x hx => stays c hc x (List.mem_append_left _ hx)
    rw [(comp c).1, List.map_append, List.map_append, old, h.front c hc]
    split
    · rw [added]
    · rfl
  · have old : (s.behind c).map m₂.erased? = (s.behind c).map m₁.erased? :=
      List.map_congr_left fun x hx => stays c hc x (List.mem_append_right _ hx)
    rw [(comp c).2, List.map_append, List.map_append, old, h.behind c hc]
    split
    · rw [added]
    · rfl

theorem Filled.setInstruction (h : Filled m m₁ s before after) {i j : Instruction}
    (hi : m₁.instruction? a = some i) (same : j.erased = i.erased) :
    Filled m (m₁.setInstruction a j) s before after := by
  have erased : (m₁.setInstruction a j).erased? = m₁.erased? :=
    funext (Method.erased_setInstruction hi same)
  refine ⟨h.extends_.setInstruction hi same, ⟨h.around.order, h.around.handlers⟩, h.new, ?_, ?_⟩
  · rw [erased]
    exact h.front
  · rw [erased]
    exact h.behind

theorem Filled.congr {before' after' : InstrId → List Instruction} (h : Filled m m₁ s before after)
    (hb : ∀ a ∈ m.order, before a = before' a) (ha : ∀ a ∈ m.order, after a = after' a) :
    Filled m m₁ s before' after' where
  extends_ := h.extends_
  around := h.around
  new := h.new
  front := fun a hm => hb a hm ▸ h.front a hm
  behind := fun a hm => ha a hm ▸ h.behind a hm

/-! ## The passes -/

/-- The code behind an instruction whose edges have the given numbers. -/
def codeBehind (d : ProbeDispatch) (m : Method) (edges : InstrId → Nat → Option ProbeId)
    (a : InstrId) : List Instruction :=
  match m.instruction? a, m.next? a with
  | some i, some next => (edgeCode d (edges a) i.targets next).code
  | _, _ => []

variable {d : ProbeDispatch} {ps : List BranchPoint} {done : List Nat} {o : Nat}

theorem codeBehind_none {edges : InstrId → Nat → Option ProbeId} (h : ∀ k, edges a k = none) :
    codeBehind d m edges a = [] := by
  unfold codeBehind
  split
  · exact edgeCode_of_none h
  · rfl

theorem codeBehind_congr {edges edges' : InstrId → Nat → Option ProbeId}
    (h : ∀ k, edges a k = edges' a k) : codeBehind d m edges a = codeBehind d m edges' a := by
  unfold codeBehind
  rw [funext h]

theorem codeBehind_eq {a next : InstrId} {i : Instruction} (hi : m.instruction? a = some i)
    (branches : i.flow = .conditional ∨ i.flow = .switch) (hn : m.next? a = some next)
    (ho : m.origin? a = some o) :
    codeBehind d m (edgeIdAt m ps) a = (edgeCode d (edgeId? ps o) i.targets next).code := by
  have same : edgeIdAt m ps a = edgeId? ps o := funext fun k => edgeIdAt_eq hi branches hn ho k
  simp only [codeBehind, hi, hn, same]

/-- An instruction without an edge to cover has no code behind it. -/
theorem codeBehind_skipped (skipped : ∀ i next, m.instruction? a = some i →
      (i.flow = .conditional ∨ i.flow = .switch) → m.next? a = some next →
        (edgeCode d (edgeId? ps o) i.targets next).code = [])
    (ho : m.origin? a = some o) : codeBehind d m (edgeIdAt m ps) a = [] := by
  cases hi : m.instruction? a with
  | none => simp [codeBehind, hi]
  | some i =>
    cases hn : m.next? a with
    | none => simp [codeBehind, hi, hn]
    | some next =>
      by_cases branches : i.flow = .conditional ∨ i.flow = .switch
      · rw [codeBehind_eq hi branches hn ho, skipped i next hi branches hn]
      · apply codeBehind_none
        intro k
        simp [edgeIdAt, hi, branches]

/-- **A step of the first pass** puts the code of one branch behind it. -/
theorem EdgesDone.filled (inv : EdgesDone d m ps done m₁) (closed : m.Closed) (todo : o ∉ done)
    (filled : Filled m m₁ s before (codeBehind d m (edgesOf m ps done))) {count : Nat}
    {r : Nat × Method} (h : (Method.addBranchPoints ps d (count, m₁) o).Yields r) :
    ∃ s', Filled m r.2 s' before (codeBehind d m (edgesOf m ps (done ++ [o]))) := by
  have others : ∀ c, m.origin? c ≠ some o → codeBehind d m (edgesOf m ps done) c
      = codeBehind d m (edgesOf m ps (done ++ [o])) c :=
    fun c hc => codeBehind_congr fun k => (edgesOf_step_ne hc k).symm
  have empty : ∀ c, m.origin? c = some o → codeBehind d m (edgesOf m ps done) c = [] :=
    fun c hc => codeBehind_none fun k => edgesOf_todo hc todo k
  have full : ∀ c, m.origin? c = some o → codeBehind d m (edgesOf m ps (done ++ [o])) c
      = codeBehind d m (edgeIdAt m ps) c :=
    fun c hc => codeBehind_congr fun k => edgesOf_step_at hc k
  rcases addBranchPoints_cases h with ⟨rfl, skipped⟩ |
    ⟨a, i, next, ids, m₂, found, hi, branches, hn, ne, inserted, rfl⟩
  · refine ⟨s, filled.congr (fun _ _ => rfl) fun c hc => ?_⟩
    by_cases ho : m.origin? c = some o
    · have hc' := closed.ordered.mem_iff.1 hc
      obtain ⟨hi, hn⟩ := inv.untouched todo hc' ho
      rw [empty c ho, full c ho, codeBehind_skipped (fun i next hi' branches hn' => ?_) ho]
      exact skipped c i next ((inv.extends_.findOrigin?_iff closed).2 ⟨hc', ho⟩) (hi.trans hi')
        branches (hn.trans hn')
    · exact others c ho
  · obtain ⟨ha, ho⟩ := (inv.extends_.findOrigin?_iff closed).1 found
    obtain ⟨hi', hn'⟩ := inv.untouched todo ha ho
    rw [hi'] at hi
    rw [hn'] at hn
    have ins := Method.insert_after inv.extends_.ordered ne inserted
    have hi₂ : m₂.instruction? a = some i := by
      rw [ins.instruction a (Nat.lt_of_lt_of_le ha inv.extends_.grown), hi', hi]
    refine ⟨_, ((filled.insert closed.ordered (closed.ordered.mem_iff.2 ha) ne new_edgeCode
      inserted).setInstruction hi₂ (erased_led i _ _)).congr (fun c _ => by simp) fun c _ => ?_⟩
    by_cases hca : c = a
    · subst hca
      rw [empty c ho, full c ho, codeBehind_eq hi branches hn ho]
      simp
    · rw [if_neg (by simp [hca]), List.nil_append]
      exact others c fun e => hca (closed.distinct c a o e ho)

/-- **The first pass** puts the code of every branch behind it. -/
theorem branch_filled (closed : m.Closed) {r : Nat × Method}
    (h : (m.addBranchCoverage ps d).Yields r) :
    ∃ s, Filled m r.2 s (fun _ => []) (codeBehind d m (edgeIdAt m ps)) := by
  have start : ∃ s, Filled m m s (fun _ => []) (codeBehind d m (edgesOf m ps [])) := by
    refine ⟨_, (Filled.refl closed.ordered).congr (fun _ _ => rfl) fun a _ => ?_⟩
    exact (codeBehind_none fun k => by simp [edgesOf]).symm
  have finish : EdgesDone d m ps (branchOffsets ps) r.2 ∧
      ∃ s, Filled m r.2 s (fun _ => []) (codeBehind d m (edgesOf m ps (branchOffsets ps))) := by
    unfold Method.addBranchCoverage at h
    refine yields_foldlM (P := fun done r => EdgesDone d m ps done r.2 ∧
      ∃ s, Filled m r.2 s (fun _ => []) (codeBehind d m (edgesOf m ps done))) h
      ⟨.start closed, start⟩ ?_
    rintro done o rest ⟨count, m₁⟩ r' split ⟨inv, s, filled⟩ step
    have todo := not_mem_done split
    exact ⟨inv.step closed todo step, inv.filled closed todo filled step⟩
  rw [← edgesOf_branchOffsets]
  exact finish.2

/-- **A step of the second pass** puts the probe of one point in front of its instruction. -/
theorem Filled.point {qs : List SequencePoint} {q : SequencePoint} (closed : m.Closed)
    (filled : Filled m m₁ s (fun a => (pointsAt m qs a).flatMap d.probe) after) {count : Nat}
    {r : Nat × Method} (h : (Method.addSequencePoint d (count, m₁) q).Yields r) :
    ∃ s', Filled m r.2 s' (fun a => (pointsAt m (qs ++ [q]) a).flatMap d.probe) after := by
  rcases addSequencePoint_cases h with ⟨unknown, rfl⟩ | ⟨a, ids, m₂, found, inserted, rfl⟩
  · refine ⟨s, filled.congr (fun c _ => ?_) fun _ _ => rfl⟩
    rw [pointsAt_append, pointsAt_unnamed (filled.extends_.unnamed closed unknown c),
      List.append_nil]
  · obtain ⟨ha, ho⟩ := (filled.extends_.findOrigin?_iff closed).1 found
    refine ⟨_, (filled.insert closed.ordered (closed.ordered.mem_iff.2 ha) (List.cons_ne_nil _ _)
      (new_probe q.id) inserted).congr (fun c _ => ?_) fun c _ => by simp⟩
    rw [pointsAt_append, List.flatMap_append]
    congr 1
    by_cases hca : c = a
    · subst hca
      simp [pointsAt_named ho, ProbeDispatch.probe]
    · have unnamed : m.origin? c ≠ some q.offset := fun e => hca (closed.distinct c a _ e ho)
      simp [pointsAt_unnamed unnamed, hca]

/-- **The second pass** puts the probes of every instruction in front of it. -/
theorem sequence_filled {qs : List SequencePoint} (closed : m.Closed)
    (filled : Filled m m₁ s (fun _ => []) after) {r : Nat × Method}
    (h : (m₁.addSequenceCoverage qs d).Yields r) :
    ∃ s', Filled m r.2 s' (fun a => (pointsAt m qs a).flatMap d.probe) after := by
  rw [← pointsAt_inOffsetOrder]
  unfold Method.addSequenceCoverage at h
  refine yields_foldlM (P := fun done r => ∃ s', Filled m r.2 s'
    (fun a => (pointsAt m done a).flatMap d.probe) after) h ⟨s, filled⟩ ?_
  rintro done q rest ⟨count, m₁⟩ r' - ⟨s, filled⟩ step
  exact filled.point closed step

/-- **Insertions keep exception regions.** After any insertion, the instructions of the method are in
the regions of every clause in which they were, and the new code is in those of its anchor. So
instrumentation puts the probes of the sequence points in front of their instructions and the code
of the covered edges behind their branches, each in the regions of the instruction at which it
stands. -/
theorem regions_kept :
    (∀ m : Method, m.Built → (∀ h ∈ m.handlers, ∀ b ∈ h.boundaries, b ∈ m.order) →
      ∀ (anchor : InstrId) (code : List Instruction) (side : Side), anchor ∈ m.order → code ≠ [] →
      ∃ ids m', m.insert anchor code side = .ok (ids, m') ∧ ids.length = code.length ∧
        ids.map m'.instruction? = code.map some ∧
        (∀ x, x ∈ m'.order ↔ x ∈ m.order ∨ x ∈ ids) ∧
        List.Forall₂ (fun h h' => ∀ kind,
          (∀ x ∈ m.order, m'.InRegion h' kind x ↔ m.InRegion h kind x) ∧
          ∀ x ∈ ids, m'.InRegion h' kind x ↔ m.InRegion h kind anchor) m.handlers m'.handlers) ∧
    ∀ (body : Bytes) (m m' : Method) (p : Points) (d : ProbeDispatch) (s b : Nat),
      Method.decode body = .ok m → m.validate = .ok () →
      (m.instrument p d).runOn.1 = .ok (.applied s b, m') →
      ∃ front behind : InstrId → List InstrId,
        m'.order = m.order.flatMap (fun a => front a ++ a :: behind a) ∧
        (∀ a ∈ m.order,
          (front a).map m'.erased?
            = ((pointsAt m p.sequence a).flatMap d.probe).map (fun i => some i.erased) ∧
          (behind a).map m'.erased?
            = (codeBehind d m (edgeIdAt m p.branches) a).map fun i => some i.erased) ∧
        List.Forall₂ (fun h h' => ∀ kind, ∀ a ∈ m.order, ∀ x ∈ front a ++ a :: behind a,
          m'.InRegion h' kind x ↔ m.InRegion h kind a) m.handlers m'.handlers := by
  refine ⟨fun m built boundaries anchor code side ha ne =>
    Method.insert_regions built.ordered boundaries ha ne side, ?_⟩
  intro body m m' p d s b decoded valid applied
  have closed := closed_of_decode decoded
  have handlers := ((Method.validate_iff closed.ordered).1 valid).2
  rcases instrument_cases (yields_of_runOn applied) with ⟨-, h⟩ | ⟨-, -, h⟩ |
    ⟨-, -, branches, sequence, hb, hs, h⟩
  · cases h
  · cases h
  · cases h
    obtain ⟨s₁, filled₁⟩ := branch_filled closed hb
    obtain ⟨s₂, filled⟩ := sequence_filled closed filled₁ hs
    refine ⟨s₂.front, s₂.behind, filled.around.order,
      fun a ha => ⟨filled.front a ha, filled.behind a ha⟩, ?_⟩
    show List.Forall₂ _ m.handlers sequence.2.handlers
    rw [filled.around.handlers, List.forall₂_map_right_iff, List.forall₂_same]
    intro h hh kind a ha x hx
    exact filled.around.inRegion filled.extends_.ordered ha hx (handlers h hh).boundaries kind

/-- A block that is left for a return, and a handler that always runs, of one instruction. -/
def guarded : Method :=
  { Method.empty with
    stock := #[⟨.nop, .none, some 0, 0⟩, ⟨.single 0xDE, .target 3, some 1, 1⟩,
      ⟨.single 0xDC, .none, some 3, 3⟩, ⟨.ret, .none, some 4, 4⟩]
    order := [0, 1, 2, 3]
    handlers := [⟨⟨2⟩, 0, some 2, 2, some 3, none, .null⟩] }

theorem guarded_handler : guarded.InRegion ⟨⟨2⟩, 0, some 2, 2, some 3, none, .null⟩ .handlerBlock 2 :=
  ⟨_, rfl, by decide, by decide, fun stop h => by cases h; decide⟩

/-- Code put in front of the handler is in the handler, and so is the probe of its sequence point. -/
theorem regions_kept_guarded :
    Method.decode [0x0B, 0x30, 8, 0, 5, 0, 0, 0, 0, 0, 0, 0, 0x00, 0xDE, 0x01, 0xDC, 0x2A, 0, 0, 0,
      0x01, 0x10, 0, 0, 2, 0, 0, 0, 3, 3, 0, 1, 0, 0, 0, 0] = .ok guarded ∧
    guarded.validate = .ok () ∧
    (∃ ids m', guarded.insert 2 [.simple .nop] .before = .ok (ids, m') ∧
      ∃ h', m'.handlers = [h'] ∧ ∀ x ∈ ids, m'.InRegion h' .handlerBlock x) ∧
    ∃ m', (guarded.instrument ⟨[⟨0, 7⟩, ⟨3, 8⟩], []⟩ (.trampoline ⟨0x0A000001⟩)).runOn.1
        = .ok (.applied 2 0, m') ∧
      ∃ (front : InstrId → List InstrId) (h' : Handler), (front 2).length = 2 ∧ m'.handlers = [h'] ∧
        ∀ x ∈ front 2, m'.InRegion h' .handlerBlock x := by
  have decoded : Method.decode [0x0B, 0x30, 8, 0, 5, 0, 0, 0, 0, 0, 0, 0, 0x00, 0xDE, 0x01, 0xDC, 0x2A,
      0, 0, 0, 0x01, 0x10, 0, 0, 2, 0, 0, 0, 3, 3, 0, 1, 0, 0, 0, 0] = .ok guarded := by
    decide +kernel
  have valid : guarded.validate = .ok () := by decide +kernel
  have counted : (guarded.instrument ⟨[⟨0, 7⟩, ⟨3, 8⟩], []⟩
      (.trampoline ⟨0x0A000001⟩)).runOn.1.toOption.map Prod.fst = some (.applied 2 0) := by
    decide +kernel
  obtain ⟨m', applied⟩ := ok_of_fst counted
  refine ⟨decoded, valid, ?_, m', applied, ?_⟩
  · obtain ⟨ids, m₁, inserted, -, -, -, regions⟩ := regions_kept.1 guarded (.decoded decoded)
      (by decide) 2 [.simple .nop] .before (by decide) (by simp)
    obtain ⟨h', rest, kept, none, e⟩ := List.forall₂_cons_left_iff.1 regions
    rw [List.forall₂_nil_left_iff.1 none] at e
    exact ⟨ids, m₁, inserted, h', e, fun x hx => ((kept .handlerBlock).2 x hx).2 guarded_handler⟩
  · obtain ⟨front, behind, -, contents, regions⟩ :=
      regions_kept.2 _ _ _ _ _ _ _ decoded valid applied
    obtain ⟨h', rest, kept, none, e⟩ := List.forall₂_cons_left_iff.1 regions
    rw [List.forall₂_nil_left_iff.1 none] at e
    refine ⟨front, h', ?_, e, fun x hx =>
      (kept .handlerBlock 2 (by decide) x (List.mem_append_left _ hx)).2 guarded_handler⟩
    have length := congrArg List.length (contents 2 (by decide)).1
    rw [List.length_map, List.length_map] at length
    exact length.trans (by decide +kernel)

end CilProbes
