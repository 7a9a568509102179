import CilProbes.Proofs.Coverage.Blocks
import CilProbes.Proofs.Coverage.Extension
import CilProbes.Proofs.Method.Decoded

/-!
# Instrumentation records control flow

Each step of the two passes inserts code next to one instruction or leaves the method alone
(`addBranchPoints_cases`, `addSequencePoint_cases`). It keeps what covers the method and adds the
numbers of one branch or of one point, so the passes reach those of all points.

* `EdgesDone`, `EdgesDone.step`, `branch_pass`: the pass over the branches.
* `PointsDone`, `PointsDone.step`, `sequence_pass`: the pass over the sequence points.
* `instrument_records`: the paths of an instrumented method and what they report.
-/

namespace CilProbes

open Logged

variable {m m₁ : Method} {d : ProbeDispatch}

/-! ## What a step does -/

/-- A branch that leads to its blocks. -/
def Instruction.led (i : Instruction) (blocks : List (Nat × Nat)) (first : InstrId) : Instruction :=
  { i with operand := leadToBlocks blocks first i.operand }

section
variable {count : Nat} {r : Nat × Method}

/-- **A step of the second pass**: the point names no instruction, or its probe goes in front of the one
that it names. -/
theorem addSequencePoint_cases {q : SequencePoint}
    (h : (Method.addSequencePoint d (count, m₁) q).Yields r) :
    (m₁.findOrigin? q.offset = none ∧ r = (count, m₁)) ∨
    ∃ a ids m₂, m₁.findOrigin? q.offset = some a ∧
      m₁.insert a (d.probe q.id) .before = .ok (ids, m₂) ∧ r = (count + 1, m₂) := by
  unfold Method.addSequencePoint at h
  cases found : m₁.findOrigin? q.offset with
  | none =>
    simp only [found] at h
    obtain ⟨_, -, h⟩ := yields_bind h
    exact .inl ⟨rfl, yields_pure h⟩
  | some a =>
    simp only [found] at h
    obtain ⟨⟨ids, m₂⟩, inserted, h⟩ := yields_bind h
    exact .inr ⟨a, ids, m₂, rfl, yields_lift inserted, yields_pure h⟩

/-- **A step of the first pass**: the offset names no edge with a number, or the blocks go in behind its
branch, which leads to them. -/
theorem addBranchPoints_cases {ps : List BranchPoint} {o : Nat}
    (h : (Method.addBranchPoints ps d (count, m₁) o).Yields r) :
    (r = (count, m₁) ∧ ∀ a i next, m₁.findOrigin? o = some a → m₁.instruction? a = some i →
      (i.flow = .conditional ∨ i.flow = .switch) → m₁.next? a = some next →
        (edgeCode d (edgeId? ps o) i.targets next).code = []) ∨
    ∃ a i next ids m₂, m₁.findOrigin? o = some a ∧ m₁.instruction? a = some i ∧
      (i.flow = .conditional ∨ i.flow = .switch) ∧ m₁.next? a = some next ∧
      (edgeCode d (edgeId? ps o) i.targets next).code ≠ [] ∧
      m₁.insert a (edgeCode d (edgeId? ps o) i.targets next).code .after = .ok (ids, m₂) ∧
      r = (count + (edgeCode d (edgeId? ps o) i.targets next).probes, m₂.setInstruction a
        (i.led (edgeCode d (edgeId? ps o) i.targets next).blocks m₁.nextId)) := by
  have here : edgeId? (ps.filter (·.offset == o)) o = edgeId? ps o := by
    funext k
    exact edgeId?_filter ps o k
  unfold Method.addBranchPoints at h
  simp only [here] at h
  cases found : m₁.findOrigin? o with
  | none =>
    simp only [found] at h
    obtain ⟨_, -, h⟩ := yields_bind h
    exact .inl ⟨yields_pure h, fun a i next e => (by cases e)⟩
  | some a =>
    simp only [found] at h
    cases hi : m₁.instruction? a with
    | none =>
      simp only [hi] at h
      refine .inl ⟨yields_pure h, fun a' i next e e' => ?_⟩
      cases e
      rw [hi] at e'
      cases e'
    | some i =>
      simp only [hi] at h
      split at h
      · rename_i branches
        cases hn : m₁.next? a with
        | none =>
          simp only [hn] at h
          obtain ⟨_, -, h⟩ := yields_bind h
          refine .inl ⟨yields_pure h, fun a' i' next e _ _ e' => ?_⟩
          cases e
          rw [hn] at e'
          cases e'
        | some next =>
          simp only [hn] at h
          split at h
          · rename_i empty
            refine .inl ⟨yields_pure h, fun a' i' next' e e' _ e'' => ?_⟩
            cases e
            rw [hi] at e'
            rw [hn] at e''
            cases e'
            cases e''
            exact List.isEmpty_iff.1 empty
          · rename_i nonempty
            obtain ⟨⟨ids, m₂⟩, inserted, h⟩ := yields_bind h
            exact .inr ⟨a, i, next, ids, m₂, rfl, hi, branches, hn, mt List.isEmpty_iff.2 nonempty,
              yields_lift inserted, yields_pure h⟩
      · rename_i none
        obtain ⟨_, -, h⟩ := yields_bind h
        refine .inl ⟨yields_pure h, fun a' i' next e e' branches => ?_⟩
        cases e
        rw [hi] at e'
        cases e'
        exact absurd branches none

end

/-! ## The pass over the branches -/

theorem erased_led (i : Instruction) (blocks : List (Nat × Nat)) (first : InstrId) :
    (i.led blocks first).erased = i.erased := by
  obtain ⟨opcode, operand, origin, offset⟩ := i
  cases operand with
  | switch ts => simp [Instruction.erased, Instruction.led, leadToBlocks, Operand.map]
  | _ => rfl

theorem targets_led (i : Instruction) (blocks : List (Nat × Nat)) (first : InstrId) (slot : Nat) :
    (i.led blocks first).targets[slot]?
      = i.targets[slot]?.map fun t => ((blocks.lookup slot).map (first + ·)).getD t := by
  obtain ⟨opcode, operand, origin, offset⟩ := i
  cases operand with
  | target t =>
    cases slot <;> simp [Instruction.led, leadToBlocks, Instruction.targets, Operand.targets]
  | switch ts => simp [Instruction.led, leadToBlocks, Instruction.targets, Operand.targets]
  | _ => simp [Instruction.led, leadToBlocks, Instruction.targets, Operand.targets]

theorem not_terminal {i : Instruction} (h : i.flow = .conditional ∨ i.flow = .switch) :
    i.flow.isTerminal = false := by
  rcases h with h | h <;> rw [h] <;> rfl

/-- The instructions of a probe are new. -/
theorem new_probe (id : ProbeId) : ∀ i ∈ d.probe id, i.New := by
  have load4 : OpCode.ldcI4.info? = some ⟨"ldc.i4", .int32, .sequential⟩ := by decide +kernel
  have load8 : OpCode.ldcI8.info? = some ⟨"ldc.i8", .int64, .sequential⟩ := by decide +kernel
  have calli : OpCode.calli.info? = some ⟨"calli", .token, .call⟩ := by decide +kernel
  have call : OpCode.call.info? = some ⟨"call", .token, .call⟩ := by decide +kernel
  intro i hi
  rcases mem_probe hi with ⟨v, rfl⟩ | ⟨v, rfl⟩ | ⟨t, rfl⟩ | ⟨t, rfl⟩
  · exact ⟨rfl, _, load4, trivial⟩
  · exact ⟨rfl, _, load8, trivial⟩
  · exact ⟨rfl, _, calli, trivial⟩
  · exact ⟨rfl, _, call, trivial⟩

/-- The code of a branch is new. -/
theorem new_edgeCode {idOf : Nat → Option ProbeId} {targets : List InstrId} {next : InstrId} :
    ∀ i ∈ (edgeCode d idOf targets next).code, i.New := by
  have br : OpCode.br.info? = some ⟨"br", .branch, .unconditional⟩ := by decide +kernel
  have jump : ∀ t : InstrId, (Instruction.branch .br t).New := fun t => ⟨rfl, _, br, trivial⟩
  intro i hi
  rcases mem_edgeCode hi with ⟨id, hi⟩ | rfl | ⟨e, -, rfl⟩
  · exact new_probe id i hi
  · exact jump next
  · exact jump e.target

theorem edgeIdAt_eq {ps : List BranchPoint} {a next : InstrId} {i : Instruction} {o : Nat}
    (hi : m.instruction? a = some i) (branches : i.flow = .conditional ∨ i.flow = .switch)
    (hn : m.next? a = some next) (ho : m.origin? a = some o) (k : Nat) :
    edgeIdAt m ps a k = edgeId? ps o k := by
  have origin : i.origin = some o := by
    unfold Method.origin? at ho
    rwa [hi] at ho
  simp [edgeIdAt, hi, hn, branches, origin]

/-- The numbers of the edges of some branches. -/
def edgesOf (m : Method) (ps : List BranchPoint) (done : List Nat) (a : InstrId) (k : Nat) :
    Option ProbeId :=
  if ∃ o ∈ done, m.origin? a = some o then edgeIdAt m ps a k else none

/-- **What the pass over the branches keeps**: the edges of the branches that it has worked through
report their numbers, and the other instructions are as they were. -/
structure EdgesDone (d : ProbeDispatch) (m : Method) (ps : List BranchPoint) (done : List Nat)
    (m' : Method) : Prop where
  extends_ : m.Extends m'
  first : m'.first? = m.first?
  covers : Covers d m.nextId (fun _ => []) (edgesOf m ps done) m m'
  rest : ∀ a < m.nextId, (∀ o ∈ done, m.origin? a ≠ some o) →
    m'.instruction? a = m.instruction? a ∧ m'.next? a = m.next? a

variable {ps : List BranchPoint} {done : List Nat} {o : Nat}

theorem edgesOf_step_ne {a : InstrId} (h : m.origin? a ≠ some o) (k : Nat) :
    edgesOf m ps (done ++ [o]) a k = edgesOf m ps done a k := by
  simp [edgesOf, or_and_right, exists_or, h]

theorem edgesOf_step_at {a : InstrId} (h : m.origin? a = some o) (k : Nat) :
    edgesOf m ps (done ++ [o]) a k = edgeIdAt m ps a k := by
  simp [edgesOf, h]

theorem edgesOf_todo {a : InstrId} (h : m.origin? a = some o) (todo : o ∉ done) (k : Nat) :
    edgesOf m ps done a k = none := by
  rw [edgesOf, if_neg]
  rintro ⟨o', ho', h'⟩
  rw [h, Option.some.injEq] at h'
  exact todo (h' ▸ ho')

/-- The instruction of an offset that has not come yet is as it was. -/
theorem EdgesDone.untouched (inv : EdgesDone d m ps done m₁) (todo : o ∉ done) {a : InstrId}
    (ha : a < m.nextId) (ho : m.origin? a = some o) :
    m₁.instruction? a = m.instruction? a ∧ m₁.next? a = m.next? a := by
  refine inv.rest a ha fun o' ho' e => todo ?_
  rw [ho, Option.some.injEq] at e
  rwa [e]

/-- A branch without code has no edge with a number. -/
theorem EdgesDone.skip (inv : EdgesDone d m ps done m₁) (closed : m.Closed) (todo : o ∉ done)
    (skipped : ∀ a i next, m₁.findOrigin? o = some a → m₁.instruction? a = some i →
      (i.flow = .conditional ∨ i.flow = .switch) → m₁.next? a = some next →
        (edgeCode d (edgeId? ps o) i.targets next).code = []) :
    EdgesDone d m ps (done ++ [o]) m₁ where
  extends_ := inv.extends_
  first := inv.first
  covers := by
    refine inv.covers.congr fun a ha k b hb => ?_
    by_cases ho : m.origin? a = some o
    · rw [edgesOf_step_at ho, edgesOf_todo ho todo]
      obtain ⟨hi', hn'⟩ := inv.untouched todo ha ho
      have found := (inv.extends_.findOrigin?_iff closed).2 ⟨ha, ho⟩
      cases hi : m.instruction? a with
      | none => simp [edgeIdAt, hi]
      | some i =>
        by_cases branches : i.flow = .conditional ∨ i.flow = .switch
        · cases hn : m.next? a with
          | none => simp [edgeIdAt, hi, hn]
          | some next =>
            obtain ⟨fall, taken⟩ := edgeCode_nil
              (skipped a i next found (hi'.trans hi) branches (hn'.trans hn))
            rw [edgeIdAt_eq hi branches hn ho]
            cases k with
            | zero => exact fall.symm
            | succ k =>
              rw [Method.follow?, hi] at hb
              exact (taken k b hb).symm
        · simp [edgeIdAt, hi, branches]
    · rw [edgesOf_step_ne ho]
  rest := by
    intro a ha none
    exact inv.rest a ha fun o' ho' => none o' (List.mem_append_left _ ho')

/-- What it does to a method to put code behind a branch that leads to it. -/
structure Branched (m m' : Method) (a next : InstrId) (i : Instruction) (edges : EdgeCode) : Prop where
  anchor : m'.instruction? a = some (i.led edges.blocks m.nextId)
  instruction : ∀ x < m.nextId, x ≠ a → m'.instruction? x = m.instruction? x
  anchor_next : m'.next? a = some m.nextId
  others : ∀ x < m.nextId, x ≠ a → m'.next? x = m.next? x
  code : Inserted m' m.nextId edges.code (some next)
  entries : m'.entries = m.entries

theorem branched {m₂ : Method} {a next : InstrId} {i : Instruction} {edges : EdgeCode}
    (ha : a < m₁.nextId) (hn : m₁.next? a = some next)
    (ins : m₁.InsertedAfter m₂ a edges.code) :
    Branched m₁ (m₂.setInstruction a (i.led edges.blocks m₁.nextId)) a next i edges := by
  have ha₂ : a < m₂.nextId := by
    rw [ins.nextId]
    exact Nat.lt_of_lt_of_le ha (Nat.le_add_right ..)
  have set : ∀ x, (m₂.setInstruction a (i.led edges.blocks m₁.nextId)).instruction? x
      = if x = a then some (i.led edges.blocks m₁.nextId) else m₂.instruction? x :=
    fun x => Method.instruction?_setInstruction ha₂
  refine ⟨?_, fun x hx hxa => ?_, ins.next_anchor, ins.next, ⟨fun k hk => ?_, fun k hk => ?_⟩, ?_⟩
  · rw [set, if_pos rfl]
  · rw [set, if_neg hxa, ins.instruction x hx]
  · rw [set, if_neg (Nat.ne_of_gt (Nat.lt_of_lt_of_le ha (Nat.le_add_right ..))), ins.fresh k hk]
  · rw [← hn]
    exact ins.fresh_next k hk
  · show m₂.first? :: m₂.handlers.flatMap _ = _
    rw [ins.first, ins.handlers]
    rfl

section
variable {m₃ : Method} {a next : InstrId} {i : Instruction} {idOf : Nat → Option ProbeId}
  (placed : Branched m₁ m₃ a next i (edgeCode d idOf i.targets next))

include placed

/-- The code inserted before stays as it is. -/
theorem Branched.moved {n : Nat} (ha : a < n) : Moved d n (fun t => t) (fun _ => []) m₁ m₃ where
  instruction := by
    intro x j hx hj
    rw [placed.instruction x (Method.lt_of_instruction? hj) (Nat.ne_of_gt (Nat.lt_of_lt_of_le ha hx)),
      hj, Instruction.mapTargets, Operand.map_id]
  next := by
    intro x j hx hj
    rw [placed.others x (Method.lt_of_instruction? hj) (Nat.ne_of_gt (Nat.lt_of_lt_of_le ha hx)),
      Option.map_id']
  fixed := fun _ _ => rfl
  original := fun _ hv => .here hv

theorem Branched.follow?_ne {c : InstrId} (hc : c < m₁.nextId) (ne : c ≠ a) (k : Nat) :
    m₃.follow? c k = m₁.follow? c k := by
  cases k <;> simp only [Method.follow?, placed.instruction c hc ne, placed.others c hc ne]

/-- **The edges of the branch** lead to the probes of their numbers, and from there to where they
led. -/
theorem Branched.edge {n : Nat} (fresh : n ≤ m₁.nextId)
    (branches : i.flow = .conditional ∨ i.flow = .switch)
    (ne : (edgeCode d idOf i.targets next).code ≠ []) (hnext : next < n)
    (targets : ∀ t ∈ i.targets, t < n) (hi : m.instruction? a = some i)
    (hn : m.next? a = some next) (k : Nat) :
    (m.follow? a k = none → m₃.follow? a k = none) ∧ ∀ b, m.follow? a k = some b →
      ∃ x, m₃.follow? a k = some x ∧ Enter m₃ n d x (idOf k).toList b := by
  have goes_on := not_terminal branches
  cases k with
  | zero =>
    have before : m.follow? a 0 = some next := by
      simp [Method.follow?, hi, goes_on, hn]
    have after : m₃.follow? a 0 = some m₁.nextId := by
      have : (i.led (edgeCode d idOf i.targets next).blocks m₁.nextId).flow.isTerminal = false :=
        goes_on
      simp [Method.follow?, placed.anchor, this, placed.anchor_next]
    rw [before, after]
    refine ⟨fun e => (by cases e), fun b hb => ⟨_, rfl, ?_⟩⟩
    cases hb
    obtain ⟨blocks, code, jump⟩ := edgeCode_fall d idOf i.targets next
    exact enter_fall placed.code fresh (idOf 0) rfl code ne jump hnext
  | succ slot =>
    have before : m.follow? a (slot + 1) = i.targets[slot]? := by
      simp [Method.follow?, hi]
    have after : m₃.follow? a (slot + 1) = i.targets[slot]?.map fun t =>
        (((edgeCode d idOf i.targets next).blocks.lookup slot).map (m₁.nextId + ·)).getD t := by
      simp only [Method.follow?, placed.anchor, Option.bind_some, targets_led]
    rw [before, after]
    refine ⟨fun e => (by rw [e]; rfl), fun b hb => ?_⟩
    have hlt : b < n := targets b (List.mem_of_getElem? hb)
    rw [hb]
    cases hid : idOf (slot + 1) with
    | none =>
      rw [edgeCode_unnumbered hid]
      exact ⟨b, rfl, .here hlt⟩
    | some id =>
      obtain ⟨pre, post, code, block⟩ := edgeCode_block d next hb hid
      rw [block]
      exact ⟨_, rfl, enter_block placed.code fresh code hlt⟩

end

/-- **The blocks of a branch** report the numbers of its edges and lead on to where the edges led. -/
theorem EdgesDone.place (inv : EdgesDone d m ps done m₁) (closed : m.Closed) (todo : o ∉ done)
    {a next : InstrId} {i : Instruction} {ids : List InstrId} {m₂ : Method}
    (found : m₁.findOrigin? o = some a) (hi₁ : m₁.instruction? a = some i)
    (branches : i.flow = .conditional ∨ i.flow = .switch) (hn₁ : m₁.next? a = some next)
    (ne : (edgeCode d (edgeId? ps o) i.targets next).code ≠ [])
    (inserted : m₁.insert a (edgeCode d (edgeId? ps o) i.targets next).code .after = .ok (ids, m₂)) :
    EdgesDone d m ps (done ++ [o]) (m₂.setInstruction a
      (i.led (edgeCode d (edgeId? ps o) i.targets next).blocks m₁.nextId)) := by
  have ins := Method.insert_after inv.extends_.ordered ne inserted
  obtain ⟨ha, ho⟩ := (inv.extends_.findOrigin?_iff closed).1 found
  obtain ⟨hi, hn⟩ := inv.untouched todo ha ho
  rw [hi₁] at hi
  rw [hn₁] at hn
  have ha₁ : a < m₁.nextId := Nat.lt_of_lt_of_le ha inv.extends_.grown
  have hi₂ : m₂.instruction? a = some i := (ins.instruction a ha₁).trans hi₁
  have placed := branched (i := i) ha₁ hn₁ ins
  have alone : ∀ c ≠ a, m.origin? c ≠ some o :=
    fun c hc e => hc (closed.distinct c a o e ho)
  refine ⟨(inv.extends_.after ins new_edgeCode).setInstruction hi₂ (erased_led i _ _),
    ins.first.trans inv.first, ?_, ?_⟩
  · refine inv.covers.moved (placed.moved ha) ?_ fun c hc k => ?_
    · rw [placed.entries]
      simp
    · by_cases hca : c = a
      · subst hca
        right
        rw [edgesOf_step_at ho, edgeIdAt_eq hi.symm branches hn.symm ho]
        simpa using placed.edge inv.extends_.grown branches ne (closed.ordered.lt_of_next? hn.symm)
          (closed.targets c i hi.symm) hi.symm hn.symm k
      · left
        refine ⟨edgesOf_step_ne (alone c hca) k, ?_⟩
        rw [placed.follow?_ne (Nat.lt_of_lt_of_le hc inv.extends_.grown) hca]
        exact (Option.map_id' ..).symm
  · intro c hc none
    have hca : c ≠ a := by
      rintro rfl
      exact none o (List.mem_append_right _ List.mem_cons_self) ho
    have hc₁ := Nat.lt_of_lt_of_le hc inv.extends_.grown
    rw [placed.instruction c hc₁ hca, placed.others c hc₁ hca]
    exact inv.rest c hc fun o' ho' => none o' (List.mem_append_left _ ho')

theorem EdgesDone.step (inv : EdgesDone d m ps done m₁) (closed : m.Closed) (todo : o ∉ done)
    {count : Nat} {r : Nat × Method} (h : (Method.addBranchPoints ps d (count, m₁) o).Yields r) :
    EdgesDone d m ps (done ++ [o]) r.2 := by
  rcases addBranchPoints_cases h with ⟨rfl, skipped⟩ |
    ⟨a, i, next, ids, m₂, found, hi, branches, hn, ne, inserted, rfl⟩
  · exact inv.skip closed todo skipped
  · exact inv.place closed todo found hi branches hn ne inserted

theorem edgesOf_branchOffsets (m : Method) (ps : List BranchPoint) :
    edgesOf m ps (branchOffsets ps) = edgeIdAt m ps := by
  funext a k
  unfold edgesOf
  split
  · rfl
  · rename_i todo
    cases hi : m.instruction? a with
    | none => simp [edgeIdAt, hi]
    | some i =>
      cases ho : i.origin with
      | none => simp [edgeIdAt, hi, ho]
      | some o =>
        have ho' : m.origin? a = some o := by
          unfold Method.origin?
          rw [hi]
          exact ho
        have unknown : o ∉ branchOffsets ps := fun h => todo ⟨o, h, ho'⟩
        simp [edgeIdAt, hi, ho, edgeId?_of_not_mem unknown]

theorem EdgesDone.start (closed : m.Closed) : EdgesDone d m ps [] m := by
  refine ⟨.refl closed.ordered, rfl, ?_, fun _ _ _ => ⟨rfl, rfl⟩⟩
  have : edgesOf m ps [] = fun _ _ => none := by
    funext a k
    simp [edgesOf]
  rw [this]
  exact .refl closed

/-- No offset comes twice. -/
theorem not_mem_done {rest : List Nat} (h : branchOffsets ps = done ++ o :: rest) : o ∉ done := by
  have sorted := branchOffsets_sorted ps
  rw [h] at sorted
  exact fun ho => Nat.lt_irrefl o ((List.pairwise_append.1 sorted).2.2 o ho o List.mem_cons_self)

/-- **The first pass** makes the edges report their numbers. -/
theorem branch_pass (closed : m.Closed) {r : Nat × Method}
    (h : (m.addBranchCoverage ps d).Yields r) :
    m.Extends r.2 ∧ r.2.first? = m.first? ∧
      Covers d m.nextId (fun _ => []) (edgeIdAt m ps) m r.2 := by
  have finish : EdgesDone d m ps (branchOffsets ps) r.2 := by
    unfold Method.addBranchCoverage at h
    refine yields_foldlM (P := fun done r => EdgesDone d m ps done r.2) h (.start closed) ?_
    rintro done o rest ⟨count, m₁⟩ r' split inv step
    exact inv.step closed (not_mem_done split) step
  rw [← edgesOf_branchOffsets]
  exact ⟨finish.extends_, finish.first, finish.covers⟩

/-! ## The pass over the sequence points -/

theorem pointsAt_append (m : Method) (qs qs' : List SequencePoint) (a : InstrId) :
    pointsAt m (qs ++ qs') a = pointsAt m qs a ++ pointsAt m qs' a := by
  unfold pointsAt
  rw [List.filter_append, List.map_append]

theorem pointsAt_inOffsetOrder (m : Method) (qs : List SequencePoint) :
    pointsAt m (inOffsetOrder qs) = pointsAt m qs := by
  funext a
  unfold pointsAt
  cases m.origin? a with
  | none => simp
  | some o =>
    have same := inOffsetOrder_filter qs o
    simp only [Option.some.injEq, eq_comm (a := o)]
    rw [same]

theorem pointsAt_unnamed {q : SequencePoint} {a : InstrId} (h : m.origin? a ≠ some q.offset) :
    pointsAt m [q] a = [] := by
  simp [pointsAt, h]

theorem pointsAt_named {q : SequencePoint} {a : InstrId} (h : m.origin? a = some q.offset) :
    pointsAt m [q] a = [q.id] := by
  simp [pointsAt, h]

/-- **What the pass over the sequence points keeps**: those that it has worked through are reported in
front of their instructions. -/
structure PointsDone (d : ProbeDispatch) (m : Method) (edges : InstrId → Nat → Option ProbeId)
    (done : List SequencePoint) (m' : Method) : Prop where
  extends_ : m.Extends m'
  covers : Covers d m.nextId (pointsAt m done) edges m m'

variable {edges : InstrId → Nat → Option ProbeId} {qs : List SequencePoint} {q : SequencePoint}

theorem Method.InsertedBefore.entries {m₂ : Method} {a : InstrId} {code : List Instruction}
    (ins : m₁.InsertedBefore m₂ a code) :
    m₂.entries = m₁.entries.map (Option.map fun y => if y = a then m₁.nextId else y) := by
  unfold Method.entries
  rw [ins.first, ins.handlers, List.map_cons, List.flatMap_map, List.map_flatMap]
  rfl

/-- A probe in front of an instruction is on every way to it, and on no other. -/
theorem moved_before {m₂ : Method} {a : InstrId} (ha : a < m.nextId) (grown : m.nextId ≤ m₁.nextId)
    (distinct : ∀ b, m.origin? b = some q.offset ↔ b = a)
    (ins : m₁.InsertedBefore m₂ a (d.probe q.id)) :
    Moved d m.nextId (fun y => if y = a then m₁.nextId else y) (pointsAt m [q]) m₁ m₂ where
  instruction := by
    intro x i _ hi
    rw [ins.instruction x (Method.lt_of_instruction? hi), hi]
    rfl
  next := fun x i _ hi => ins.next x (Method.lt_of_instruction? hi)
  fixed := fun x hx => if_neg (Nat.ne_of_gt (Nat.lt_of_lt_of_le ha hx))
  original := by
    intro v hv
    by_cases hva : v = a
    · subst hva
      have asked : pointsAt m [q] v = [q.id] := pointsAt_named ((distinct v).2 rfl)
      have probe : Inserted m₂ m₁.nextId (d.probe q.id) (some v) := ⟨ins.fresh, ins.fresh_next⟩
      rw [if_pos rfl, asked]
      exact enter_fall probe grown (some q.id) rfl (List.append_nil _).symm
        (List.cons_ne_nil _ _) (.inl rfl) ha
    · have nothing : pointsAt m [q] v = [] := pointsAt_unnamed (mt (distinct v).1 hva)
      rw [if_neg hva, nothing]
      exact .here hv

/-- An offset that is not found names no instruction. -/
theorem Method.Extends.unnamed (h : m.Extends m₁) (closed : m.Closed) {o : Nat}
    (unknown : m₁.findOrigin? o = none) (a : InstrId) : m.origin? a ≠ some o := by
  intro ho
  have ha := ((Method.Extends.refl closed.ordered).origin?_iff.1 ho).1
  rw [(h.findOrigin?_iff closed).2 ⟨ha, ho⟩] at unknown
  cases unknown

theorem Method.Extends.addSequencePoint (h : m.Extends m₁) {count : Nat} {r : Nat × Method}
    (step : (Method.addSequencePoint d (count, m₁) q).Yields r) : m.Extends r.2 := by
  rcases addSequencePoint_cases step with ⟨-, rfl⟩ | ⟨a, ids, m₂, -, inserted, rfl⟩
  · exact h
  · have ins := Method.insert_before h.ordered (List.cons_ne_nil _ _) inserted
    exact h.before ins (new_probe q.id)

theorem PointsDone.step (inv : PointsDone d m edges qs m₁) (closed : m.Closed) {count : Nat}
    {r : Nat × Method} (h : (Method.addSequencePoint d (count, m₁) q).Yields r) :
    PointsDone d m edges (qs ++ [q]) r.2 := by
  have split : pointsAt m (qs ++ [q]) = fun a => pointsAt m qs a ++ pointsAt m [q] a := by
    funext a
    exact pointsAt_append m qs [q] a
  rcases addSequencePoint_cases h with ⟨unknown, rfl⟩ | ⟨a, ids, m₂, found, inserted, rfl⟩
  · have unnamed := inv.extends_.unnamed closed unknown
    have same : pointsAt m (qs ++ [q]) = pointsAt m qs := by
      funext a
      simp [pointsAt, unnamed a]
    exact ⟨inv.extends_, same ▸ inv.covers⟩
  · obtain ⟨ha, ho⟩ := (inv.extends_.findOrigin?_iff closed).1 found
    have ins := Method.insert_before inv.extends_.ordered (List.cons_ne_nil _ _) inserted
    have distinct : ∀ b, m.origin? b = some q.offset ↔ b = a :=
      fun b => ⟨fun hb => closed.distinct b a _ hb ho, fun e => e ▸ ho⟩
    refine ⟨inv.extends_.addSequencePoint h, ?_⟩
    rw [split]
    refine inv.covers.moved (moved_before ha inv.extends_.grown distinct ins) ?_
      fun c hc k => .inl ⟨rfl, ?_⟩
    · exact ins.entries
    · have hc₁ := Nat.lt_of_lt_of_le hc inv.extends_.grown
      exact follow?_mapTargets (ins.instruction c hc₁) (ins.next c hc₁) k

/-- **The second pass** puts the numbers of the sequence points in front of their instructions. -/
theorem sequence_pass (closed : m.Closed) (hext : m.Extends m₁)
    (covers : Covers d m.nextId (fun _ => []) edges m m₁) {r : Nat × Method}
    (h : (m₁.addSequenceCoverage qs d).Yields r) :
    m.Extends r.2 ∧ Covers d m.nextId (pointsAt m qs) edges m r.2 := by
  have finish : PointsDone d m edges (inOffsetOrder qs) r.2 := by
    unfold Method.addSequenceCoverage at h
    refine yields_foldlM (P := fun done r => PointsDone d m edges done r.2) h ⟨hext, ?_⟩ ?_
    · exact covers
    rintro done q rest ⟨count, m₁⟩ r' - inv step
    exact inv.step closed step
  rw [← pointsAt_inOffsetOrder]
  exact ⟨finish.extends_, finish.covers⟩

/-! ## Both passes -/

/-- The offset of an instruction of a body is where it starts. -/
theorem origin?_linked {h : Header} {rs : List Placed} {cs : List Clause} (a : InstrId) :
    (Method.linked h rs cs).origin? a = (starts rs)[a]? := by
  have instruction : (Method.linked h rs cs).instruction? a = rs[a]?.map (Placed.linked rs) := by
    simp [Method.instruction?, Method.linked]
  unfold Method.origin? starts
  rw [instruction, List.getElem?_map]
  cases rs[a]? <;> rfl

/-- Offsets tell the instructions of a body apart. -/
theorem distinct_of_decode {body : Bytes} (decoded : Method.decode body = .ok m) {a b : InstrId}
    {o : Nat} (ha : m.origin? a = some o) (hb : m.origin? b = some o) : a = b := by
  obtain ⟨h, rs, cs, isBody, rfl⟩ := (decode_iff body m).1 decoded
  rw [origin?_linked] at ha hb
  have bound := (List.getElem?_eq_some_iff.1 ha).1
  exact (List.getElem?_inj bound isBody.tiled.starts_nodup).1 (ha.trans hb.symm)

/-- A method whose references lead to its own instructions keeps to itself, if its offsets tell
instructions apart. -/
theorem closed_of_references (ordered : m.Ordered)
    (distinct : ∀ a b o, m.origin? a = some o → m.origin? b = some o → a = b)
    (targets : ∀ p ∈ m.sequence, ∀ t ∈ p.2.targets, t ∈ m.order)
    (boundaries : ∀ h ∈ m.handlers, ∀ b ∈ h.boundaries, b ∈ m.order) : m.Closed := by
  have inside : ∀ {a}, a ∈ m.order → a < m.nextId := ordered.mem_iff.1
  refine ⟨ordered, distinct, fun a i hi t ht => ?_, fun a ha => ?_⟩
  · exact inside (targets _ (ordered.mem_sequence.2 hi) t ht)
  · rcases List.mem_cons.1 ha with first | ha
    · exact inside (List.mem_of_mem_head? first.symm)
    · obtain ⟨h, hh, ha⟩ := List.mem_flatMap.1 ha
      obtain ⟨-, -, handlerStart, -, filterStart⟩ := Handler.forall_boundaries.1 (boundaries h hh)
      rcases List.mem_cons.1 ha with e | ha
      · cases e
        exact inside handlerStart
      · exact inside (filterStart a (List.mem_singleton.1 ha).symm)

/-- A valid method keeps to itself if its offsets tell instructions apart. -/
theorem closed_of_valid (ordered : m.Ordered)
    (distinct : ∀ a b o, m.origin? a = some o → m.origin? b = some o → a = b)
    (valid : m.validate = .ok ()) : m.Closed := by
  obtain ⟨targets, handlers⟩ := (Method.validate_iff ordered).1 valid
  exact closed_of_references ordered distinct targets fun h hh => (handlers h hh).boundaries

/-- **A decoded method keeps to itself**, valid or not: every reference in a body leads to one of its
instructions. -/
theorem closed_of_decode {body : Bytes} (decoded : Method.decode body = .ok m) : m.Closed :=
  closed_of_references (Method.ordered_of_range (Method.decode_order decoded))
    (fun _ _ _ => distinct_of_decode decoded) (Method.targets_of_decode decoded)
    (Method.boundaries_of_decode decoded)

/-- What instrumentation does: nothing, or both passes. -/
theorem instrument_cases {p : Points} {r : Instrumented × Method}
    (h : (m.instrument p d).Yields r) :
    (p.sequence = [] ∧ r = (.nothing, m)) ∨
    (p.sequence ≠ [] ∧ m.isInstrumented p d = true ∧ r = (.already, m)) ∨
    (p.sequence ≠ [] ∧ m.isInstrumented p d = false ∧ ∃ branches sequence : Nat × Method,
      (m.addBranchCoverage p.branches d).Yields branches ∧
      (branches.2.addSequenceCoverage p.sequence d).Yields sequence ∧
      r = (.applied sequence.1 branches.1, sequence.2.increaseMaxStack d.stackDepth)) := by
  unfold Method.instrument at h
  split at h
  · rename_i empty
    exact .inl ⟨List.isEmpty_iff.1 empty, yields_pure h⟩
  · rename_i nonempty
    have ne : p.sequence ≠ [] := mt List.isEmpty_iff.2 nonempty
    split at h
    · rename_i already
      exact .inr (.inl ⟨ne, already, yields_pure h⟩)
    · rename_i new
      obtain ⟨branches, hb, h⟩ := yields_bind h
      obtain ⟨sequence, hs, h⟩ := yields_bind h
      exact .inr (.inr ⟨ne, Bool.not_eq_true _ ▸ new, branches, sequence, hb, hs, yields_pure h⟩)

/-! ### The declared depth of the stack -/

/-- The declared depth of the stack says nothing about control. -/
theorem moved_increaseMaxStack (n : Nat) (depth : UInt16) :
    Moved d n (fun t => t) (fun _ => []) m₁ (m₁.increaseMaxStack depth) := by
  refine ⟨fun x i _ hi => ?_, fun x i _ _ => ?_, fun _ _ => rfl, fun v hv => .here hv⟩
  · rw [Instruction.mapTargets, Operand.map_id]
    exact hi
  · exact (Option.map_id' ..).symm

theorem Covers.increaseMaxStack {n : Nat} {points : InstrId → List ProbeId}
    (covers : Covers d n points edges m m₁) (depth : UInt16) :
    Covers d n points edges m (m₁.increaseMaxStack depth) := by
  have same : (m₁.increaseMaxStack depth).entries = m₁.entries.map (Option.map fun t => t) := by
    rw [show (Option.map fun t : InstrId => t) = id from Option.map_id, List.map_id]
    rfl
  have moved := covers.moved (moved_increaseMaxStack n depth) same
    fun a _ k => .inl ⟨rfl, (Option.map_id' ..).symm⟩
  simpa using moved

/-- **Instrumentation preserves control flow and records it.** The instructions of the method keep all
but their targets. From each entry, the paths of the new method that end at one of them are the
paths of the method with inserted instructions between the steps; and what is observed on such a
path is, in front of each instruction the numbers of its sequence points, and on each edge the
number of its branch point. -/
theorem instrument_records {body : Bytes} {m' : Method} {p : Points} {s b : Nat}
    (decoded : Method.decode body = .ok m) (valid : m.validate = .ok ())
    (applied : (m.instrument p d).runOn.1 = .ok (.applied s b, m')) :
    (∀ a < m.nextId,
      (m'.instruction? a).map Instruction.erased = (m.instruction? a).map Instruction.erased) ∧
    List.Forall₂ (Option.Rel fun a' a =>
        Set.BijOn (fun q : List (InstrId × Nat) × InstrId => (Method.originals m.nextId q.1, q.2))
          {q | m'.Path a' q.1 q.2 ∧ q.2 < m.nextId} {q | m.Path a q.1 q.2} ∧
        ∀ steps z, m'.Path a' steps z → z < m.nextId →
          observe m' d m.nextId (Method.visited steps z)
            = asked (pointsAt m p.sequence) (edgeIdAt m p.branches)
              (Method.originals m.nextId steps) z)
      m'.entries m.entries := by
  have closed := closed_of_valid (Method.ordered_of_range (Method.decode_order decoded))
    (fun _ _ _ => distinct_of_decode decoded) valid
  rcases instrument_cases (yields_of_runOn applied) with ⟨-, h⟩ | ⟨-, -, h⟩ |
    ⟨-, -, branches, sequence, hb, hs, h⟩
  · cases h
  · cases h
  · cases h
    obtain ⟨extends₁, -, covers₁⟩ := branch_pass closed hb
    obtain ⟨extends₂, covers₂⟩ := sequence_pass closed extends₁ covers₁ hs
    have covers := covers₂.increaseMaxStack d.stackDepth
    refine ⟨extends₂.kept, covers.entries.imp fun a' a enter => ?_⟩
    cases enter with
    | none => exact .none
    | some enter =>
      exact .some ⟨covers.bijOn enter, fun steps z hp hz => covers.observed enter hp hz⟩

/-- A branch on the first argument over a return to another one. -/
def twoReturns : Method :=
  { Method.empty with
    stock := #[⟨.ldarg0, .none, some 0, 0⟩, ⟨.single 0x2D, .target 3, some 1, 1⟩,
      ⟨.ret, .none, some 3, 3⟩, ⟨.ret, .none, some 4, 4⟩]
    order := [0, 1, 2, 3] }

theorem decode_twoReturns :
    Method.decode [0x16, 0x02, 0x2D, 0x01, 0x2A, 0x2A] = .ok twoReturns := by
  decide +kernel

/-- The method takes a probe at its start and one on each edge. -/
theorem instrument_twoReturns : ∃ m', (twoReturns.instrument ⟨[⟨0, 7⟩], [⟨1, 0, 8⟩, ⟨1, 1, 9⟩]⟩
    (.trampoline ⟨0x0A000001⟩)).runOn.1 = .ok (.applied 1 2, m') :=
  ok_of_fst (by decide +kernel)

/-- On the taken edge, the new method reports that it starts and which edge it takes. -/
theorem instrument_records_twoReturns :
    Method.decode [0x16, 0x02, 0x2D, 0x01, 0x2A, 0x2A] = .ok twoReturns ∧
    twoReturns.validate = .ok () ∧
    ∃ m', (twoReturns.instrument ⟨[⟨0, 7⟩], [⟨1, 0, 8⟩, ⟨1, 1, 9⟩]⟩
        (.trampoline ⟨0x0A000001⟩)).runOn.1 = .ok (.applied 1 2, m') ∧
      ∃ a' steps, m'.first? = some a' ∧ m'.Path a' steps 3 ∧
        observe m' (.trampoline ⟨0x0A000001⟩) 4 (Method.visited steps 3)
          = [.report 7, .reach 0, .reach 1, .report 9, .reach 3] := by
  have decoded : Method.decode [0x16, 0x02, 0x2D, 0x01, 0x2A, 0x2A] = .ok twoReturns := by
    decide +kernel
  have valid : twoReturns.validate = .ok () := by decide +kernel
  have counted : (twoReturns.instrument ⟨[⟨0, 7⟩], [⟨1, 0, 8⟩, ⟨1, 1, 9⟩]⟩
      (.trampoline ⟨0x0A000001⟩)).runOn.1.toOption.map Prod.fst = some (.applied 1 2) := by
    decide +kernel
  obtain ⟨m', applied⟩ := ok_of_fst counted
  refine ⟨decoded, valid, m', applied, ?_⟩
  have taken : twoReturns.Path 0 [(0, 0), (1, 1)] 3 :=
    .step (by decide +kernel) (.step (by decide +kernel) (.stop 3))
  have records := (instrument_records decoded valid applied).2
  have entries : twoReturns.entries = [some 0] := rfl
  rw [entries, Method.entries, List.forall₂_cons] at records
  generalize m'.first? = first at records ⊢
  obtain ⟨entry, -⟩ := records
  cases entry with
  | @some a' _ rel =>
    obtain ⟨bijection, observed⟩ := rel
    obtain ⟨⟨steps, z⟩, ⟨hp, hz⟩, same⟩ := bijection.surjOn (show ([(0, 0), (1, 1)], 3) ∈ _ from taken)
    obtain ⟨same, rfl⟩ := Prod.mk.inj same
    refine ⟨a', steps, rfl, hp, ?_⟩
    have reports := observed steps _ hp hz
    rw [same] at reports
    refine reports.trans ?_
    show asked _ _ _ 3 = _
    decide +kernel

end CilProbes
