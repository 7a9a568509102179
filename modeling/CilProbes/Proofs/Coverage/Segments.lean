import CilProbes.Proofs.Coverage.Blocks
import CilProbes.Proofs.Coverage.Extension
import CilProbes.Proofs.Method.InPlace

/-!
# What an instrumented method is made of

An instrumented method is cut into segments: the original instructions one by one, whole probes and
the jumps of the blocks. An insertion next to an original instruction adds the segments of its code
and leaves the others as they are.

* `CutInto`: the segments of a stretch of a method; `CutInto.split`: they part at the original
  instructions.
* `Cuts`, `cuts_edgeCode`: the segments of new code, and those of the code of a branch.
* `MadeOf.insert`: what one insertion adds to the probes and jumps of a method.
-/

namespace CilProbes

/-! ## Segments -/

/-- A part of an instrumented method. -/
inductive Segment where
  | original (id : InstrId)
  /-- All instructions of a probe. -/
  | probe (id : ProbeId)
  /-- A jump at the end of a block or over the blocks. -/
  | jump
deriving DecidableEq, Repr

def Segment.original? : Segment → Option InstrId
  | original a => some a
  | _ => none

def Segment.probe? : Segment → Option ProbeId
  | probe id => some id
  | _ => none

/-- **Instructions of a method cut into segments**, where those before `n` are the original ones. -/
inductive CutInto (m : Method) (d : ProbeDispatch) (n : Nat) : List InstrId → List Segment → Prop
  | nil : CutInto m d n [] []
  | original {a : InstrId} {xs : List InstrId} {segs : List Segment} : a < n →
      CutInto m d n xs segs → CutInto m d n (a :: xs) (.original a :: segs)
  | probe {ids xs : List InstrId} {id : ProbeId} {segs : List Segment} : (∀ x ∈ ids, n ≤ x) →
      ids.map m.instruction? = (d.probe id).map some → CutInto m d n xs segs →
        CutInto m d n (ids ++ xs) (.probe id :: segs)
  | jump {x t : InstrId} {xs : List InstrId} {segs : List Segment} : n ≤ x →
      m.instruction? x = some (.branch .br t) → CutInto m d n xs segs →
        CutInto m d n (x :: xs) (.jump :: segs)

/-- Code that cuts into segments wherever it has been put. -/
def Cuts (d : ProbeDispatch) (n : Nat) (code : List Instruction) (segs : List Segment) : Prop :=
  ∀ (m : Method) (xs : List InstrId), (∀ x ∈ xs, n ≤ x) → xs.map m.instruction? = code.map some →
    CutInto m d n xs segs

section
variable {m m' : Method} {d : ProbeDispatch} {n : Nat} {xs ys : List InstrId}
  {segs segs' : List Segment}

theorem CutInto.append (h : CutInto m d n xs segs) (h' : CutInto m d n ys segs') :
    CutInto m d n (xs ++ ys) (segs ++ segs') := by
  induction h with
  | nil => exact h'
  | original ha _ ih => exact .original ha ih
  | probe fresh instrs _ ih =>
    rw [List.append_assoc]
    exact .probe fresh instrs ih
  | jump hx hi _ ih => exact .jump hx hi ih

/-- At an original instruction the segments part. -/
theorem CutInto.split {pre post : List InstrId} {a : InstrId}
    (h : CutInto m d n (pre ++ a :: post) segs) (ha : a < n) : ∃ before after,
      segs = before ++ .original a :: after ∧ CutInto m d n pre before ∧
        CutInto m d n post after := by
  generalize e : pre ++ a :: post = xs at h
  induction h generalizing pre with
  | nil => simp at e
  | @original b xs segs hb rest ih =>
    cases pre with
    | nil =>
      obtain ⟨rfl, rfl⟩ := List.cons.inj e
      exact ⟨[], segs, rfl, .nil, rest⟩
    | cons c pre =>
      obtain ⟨rfl, rfl⟩ := List.cons.inj e
      obtain ⟨before, after, rfl, hbefore, hafter⟩ := ih rfl
      exact ⟨.original c :: before, after, rfl, .original hb hbefore, hafter⟩
  | @probe ids xs id segs fresh instrs rest ih =>
    -- No instruction of a probe is an original one, so `a` stands behind the probe.
    rcases List.append_eq_append_iff.1 e with ⟨inside, rfl, split⟩ | ⟨pre', rfl, split⟩
    · cases inside with
      | nil =>
        have rest : [] ++ a :: post = xs := by simpa using split
        obtain ⟨before, after, rfl, hbefore, hafter⟩ := ih rest
        exact ⟨.probe id :: before, after, rfl,
          by simpa using CutInto.probe fresh instrs hbefore, hafter⟩
      | cons c inside =>
        obtain ⟨rfl, -⟩ := List.cons.inj split
        exact absurd ha (Nat.not_lt.2 (fresh a (by simp)))
    · obtain ⟨before, after, rfl, hbefore, hafter⟩ := ih split.symm
      exact ⟨.probe id :: before, after, rfl, .probe fresh instrs hbefore, hafter⟩
  | @jump x t xs segs hx hi rest ih =>
    cases pre with
    | nil =>
      obtain ⟨rfl, -⟩ := List.cons.inj e
      exact absurd ha (Nat.not_lt.2 hx)
    | cons c pre =>
      obtain ⟨rfl, rfl⟩ := List.cons.inj e
      obtain ⟨before, after, rfl, hbefore, hafter⟩ := ih rfl
      exact ⟨.jump :: before, after, rfl, .jump hx hi hbefore, hafter⟩

/-- Segments stay if inserted instructions only lead elsewhere. -/
theorem CutInto.mono (h : CutInto m d n xs segs)
    (stays : ∀ x i, n ≤ x → m.instruction? x = some i →
      ∃ f, m'.instruction? x = some (i.mapTargets f)) : CutInto m' d n xs segs := by
  induction h with
  | nil => exact .nil
  | original ha _ ih => exact .original ha ih
  | @probe ids xs id segs fresh instrs _ ih =>
    refine .probe fresh ?_ ih
    rw [← instrs]
    refine List.map_congr_left fun x hx => ?_
    obtain ⟨i, hi, e⟩ : ∃ i ∈ d.probe id, some i = m.instruction? x :=
      List.mem_map.1 (instrs ▸ List.mem_map_of_mem hx)
    obtain ⟨f, hf⟩ := stays x i (fresh x hx) e.symm
    rw [hf, ← e, Instruction.mapTargets, Operand.map_of_targets_nil (probe_plain d id i hi).1]
  | jump hx hi _ ih =>
    obtain ⟨f, hf⟩ := stays _ _ hx hi
    exact .jump hx hf ih

theorem Cuts.nil : Cuts d n [] [] := by
  intro m xs _ instrs
  obtain rfl := List.map_eq_nil_iff.1 instrs
  exact .nil

theorem Cuts.append {code code' : List Instruction} (h : Cuts d n code segs)
    (h' : Cuts d n code' segs') : Cuts d n (code ++ code') (segs ++ segs') := by
  intro m xs fresh instrs
  rw [List.map_append, List.map_eq_append_iff] at instrs
  obtain ⟨ys, zs, rfl, hys, hzs⟩ := instrs
  exact (h m ys (fun x hx => fresh x (List.mem_append_left _ hx)) hys).append
    (h' m zs (fun x hx => fresh x (List.mem_append_right _ hx)) hzs)

theorem cuts_probe (id : ProbeId) : Cuts d n (d.probe id) [.probe id] := by
  intro m xs fresh instrs
  have : CutInto m d n (xs ++ []) [.probe id] := .probe fresh instrs .nil
  rwa [List.append_nil] at this

theorem cuts_jump (t : InstrId) : Cuts d n [.branch .br t] [.jump] := by
  intro m xs fresh instrs
  obtain ⟨x, ys, rfl, hx, none⟩ := List.map_eq_cons_iff.1 instrs
  obtain rfl := List.map_eq_nil_iff.1 none
  exact .jump (fresh x List.mem_cons_self) hx .nil

end

/-! ## The segments of a branch -/

section
variable (d : ProbeDispatch) (n : Nat) (idOf : Nat → Option ProbeId) (targets : List InstrId)
  (next : InstrId)

/-- The paths of a branch that have numbers: through first, then by target. -/
def numberedPaths : List Nat :=
  (if (idOf 0).isSome then [0] else []) ++ (takenEdges idOf targets).map (·.slot + 1)

def edgeSegments : List Segment :=
  (idOf 0).toList.map .probe ++ ((if (takenEdges idOf targets).isEmpty then [] else [.jump]) ++
    (takenEdges idOf targets).flatMap fun e => [.probe e.id, .jump])

theorem cuts_edgeCode :
    Cuts d n (edgeCode d idOf targets next).code (edgeSegments idOf targets) := by
  have fall : Cuts d n ((idOf 0).elim [] d.probe) ((idOf 0).toList.map .probe) := by
    cases idOf 0 with
    | none => exact .nil
    | some id => exact cuts_probe id
  have blocks : ∀ es : List TakenEdge,
      Cuts d n (es.flatMap (edgeBlock d)) (es.flatMap fun e => [.probe e.id, .jump]) := by
    intro es
    induction es with
    | nil => exact .nil
    | cons e es ih => exact ((cuts_probe e.id).append (cuts_jump e.target)).append ih
  unfold edgeCode edgeSegments
  cases takenEdges idOf targets with
  | nil => simpa using fall
  | cons e es =>
    have := fall.append ((cuts_jump next).append (blocks (e :: es)))
    simpa using this

theorem originals_edgeSegments : (edgeSegments idOf targets).filterMap Segment.original? = [] := by
  rw [List.filterMap_eq_nil_iff]
  intro g hg
  unfold edgeSegments at hg
  rcases List.mem_append.1 hg with hg | hg
  · obtain ⟨id, -, rfl⟩ := List.mem_map.1 hg
    rfl
  · rcases List.mem_append.1 hg with hg | hg
    · split at hg
      · cases hg
      · rw [List.mem_singleton.1 hg]
        rfl
    · obtain ⟨e, -, hg⟩ := List.mem_flatMap.1 hg
      rcases List.mem_pair.1 hg with rfl | rfl <;> rfl

/-- Every numbered path has its probe. -/
theorem probes_edgeSegments :
    (edgeSegments idOf targets).filterMap Segment.probe?
      = (numberedPaths idOf targets).filterMap idOf := by
  have taken : ∀ es : List TakenEdge, (∀ e ∈ es, idOf (e.slot + 1) = some e.id) →
      (es.flatMap fun e => [Segment.probe e.id, .jump]).filterMap Segment.probe?
        = (es.map (·.slot + 1)).filterMap idOf := by
    intro es numbered
    induction es with
    | nil => rfl
    | cons e es ih =>
      obtain ⟨he, hes⟩ := List.forall_mem_cons.1 numbered
      rw [List.flatMap_cons, List.filterMap_append, ih hes, List.map_cons,
        List.filterMap_cons_some he]
      rfl
  have unnumbered : (if (takenEdges idOf targets).isEmpty then [] else [Segment.jump]).filterMap
      Segment.probe? = [] := by
    split <;> rfl
  unfold edgeSegments numberedPaths
  rw [List.filterMap_append, List.filterMap_append, List.filterMap_append, unnumbered,
    List.nil_append, taken _ fun e he => (mem_takenEdges.1 he).2]
  congr 1
  cases h : idOf 0 <;> simp [h, Segment.probe?]

/-- The jumps of a branch: one for each taken path, and one over all blocks. -/
theorem jumps_edgeSegments : (edgeSegments idOf targets).count .jump
    = (takenEdges idOf targets).length + if (takenEdges idOf targets).isEmpty then 0 else 1 := by
  have blocks : ∀ es : List TakenEdge,
      (es.flatMap fun e => [Segment.probe e.id, .jump]).count .jump = es.length := by
    intro es
    induction es with
    | nil => rfl
    | cons e es ih =>
      rw [List.flatMap_cons, List.count_append, ih, List.length_cons, Nat.add_comm]
      rfl
  have fall : ((idOf 0).toList.map Segment.probe).count .jump = 0 := by
    cases idOf 0 <;> rfl
  unfold edgeSegments
  rw [List.count_append, List.count_append, blocks, fall]
  split
  · simp
  · simp [Nat.add_comm]

variable {idOf targets} in
theorem mem_numberedPaths {k : Nat} :
    k ∈ numberedPaths idOf targets ↔ k ≤ targets.length ∧ (idOf k).isSome := by
  unfold numberedPaths
  rw [List.mem_append, List.mem_map]
  cases k with
  | zero =>
    simp
  | succ k =>
    have first : k + 1 ∉ if (idOf 0).isSome then [0] else [] := by
      split <;> simp
    rw [or_iff_right first]
    constructor
    · rintro ⟨e, he, h⟩
      obtain ⟨ht, hid⟩ := mem_takenEdges.1 he
      obtain rfl := Nat.succ.inj h
      exact ⟨(List.getElem?_eq_some_iff.1 ht).1, by rw [hid]; rfl⟩
    · rintro ⟨lt, numbered⟩
      obtain ⟨id, hid⟩ := Option.isSome_iff_exists.1 numbered
      exact ⟨⟨k, targets[k], id⟩, mem_takenEdges.2 ⟨List.getElem?_eq_getElem lt, hid⟩, rfl⟩

/-- Without code no path has a number. -/
theorem numberedPaths_nil {d : ProbeDispatch} {idOf : Nat → Option ProbeId}
    {targets : List InstrId} {next : InstrId} (h : (edgeCode d idOf targets next).code = []) :
    numberedPaths idOf targets = [] := by
  obtain ⟨fall, taken⟩ := edgeCode_nil h
  refine List.eq_nil_iff_forall_not_mem.2 fun k hk => ?_
  obtain ⟨bound, numbered⟩ := mem_numberedPaths.1 hk
  cases k with
  | zero =>
    rw [fall] at numbered
    cases numbered
  | succ k =>
    rw [taken k _ (List.getElem?_eq_getElem bound)] at numbered
    cases numbered

theorem nodup_numberedPaths : (numberedPaths idOf targets).Nodup := by
  have taken : ((takenEdges idOf targets).map (·.slot + 1)).Nodup := by
    refine List.pairwise_map.2 ((takenEdges_sorted idOf targets).imp fun lt => ?_)
    omega
  unfold numberedPaths
  split
  · refine List.nodup_cons.2 ⟨?_, taken⟩
    simp
  · exact taken

theorem taken_numberedPaths : (numberedPaths idOf targets).filter (0 < ·)
    = (takenEdges idOf targets).map (·.slot + 1) := by
  have taken : ((takenEdges idOf targets).map (·.slot + 1)).filter (0 < ·)
      = (takenEdges idOf targets).map (·.slot + 1) := by
    rw [List.filter_eq_self]
    simp
  unfold numberedPaths
  rw [List.filter_append, taken]
  split <;> simp

theorem length_numberedPaths : (numberedPaths idOf targets).length
    = (edgeCode d idOf targets next).probes := by
  unfold numberedPaths edgeCode
  rw [List.length_append, List.length_map]
  split <;> rfl

end

/-! ## What a method is made of -/

/-- **A method is made of another one**, with some probes and a number of jumps put in. -/
def Method.MadeOf (m' : Method) (d : ProbeDispatch) (m : Method) (probes : List ProbeId)
    (jumps : Nat) : Prop :=
  ∃ segs, CutInto m' d m.nextId m'.order segs ∧ segs.filterMap Segment.original? = m.order ∧
    (segs.filterMap Segment.probe?).Perm probes ∧ segs.count .jump = jumps

variable {m m₁ m₂ : Method} {d : ProbeDispatch} {probes probes' : List ProbeId} {jumps : Nat}

theorem madeOf_self (ordered : m.Ordered) : m.MadeOf d m [] 0 := by
  refine ⟨m.order.map .original, ?_, ?_, ?_, ?_⟩
  · have originals : ∀ xs : List InstrId, (∀ x ∈ xs, x < m.nextId) →
        CutInto m d m.nextId xs (xs.map .original) := by
      intro xs
      induction xs with
      | nil => exact fun _ => .nil
      | cons x xs ih =>
        intro h
        obtain ⟨hx, hxs⟩ := List.forall_mem_cons.1 h
        exact .original hx (ih hxs)
    exact originals _ fun x hx => ordered.mem_iff.1 hx
  · rw [List.filterMap_map]
    exact List.filterMap_some
  · rw [List.filterMap_map]
    have : (Segment.probe? ∘ Segment.original) = fun _ => none := rfl
    rw [this, List.filterMap_none]
  · rw [List.count_eq_zero]
    simp

theorem Method.MadeOf.perm (h : m₁.MadeOf d m probes jumps) (same : probes.Perm probes') :
    m₁.MadeOf d m probes' jumps := by
  obtain ⟨segs, cut, originals, perm, count⟩ := h
  exact ⟨segs, cut, originals, perm.trans same, count⟩

/-- Next to an original instruction the order parts, and so do the segments. -/
theorem CutInto.part {n : Nat} {a : InstrId} {code : List Instruction} {side : Side}
    {all : List Segment} (spliced : m₁.Spliced m₂ a code side) (mem : a ∈ m₁.order)
    (cut : CutInto m₁ d n m₁.order all) (ha : a < n) :
    ∃ xs ys before after, m₂.order = xs ++ (m₁.freshIds code.length ++ ys) ∧
      all = before ++ after ∧ CutInto m₁ d n xs before ∧ CutInto m₁ d n ys after := by
  obtain ⟨pre, post, split⟩ := List.append_of_mem mem
  have order := spliced.order pre post split
  rw [split] at cut
  obtain ⟨before, after, rfl, hbefore, hafter⟩ := cut.split ha
  cases side with
  | before =>
    refine ⟨pre, a :: post, before, .original a :: after, ?_, rfl, hbefore, .original ha hafter⟩
    rw [order, List.append_assoc]
  | after =>
    refine ⟨pre ++ [a], post, before ++ [.original a], after, ?_, ?_,
      hbefore.append (.original ha .nil), hafter⟩
    · rw [order]
      simp
    · simp

/-- **What one insertion adds**: the segments of its code. -/
theorem Method.MadeOf.insert (h : m₁.MadeOf d m probes jumps) (ext : m.Extends m₁) {a : InstrId}
    (ha : a < m.nextId) {code : List Instruction} {side : Side} {ids : List InstrId}
    {segs : List Segment} (ne : code ≠ []) (hi : m₁.insert a code side = .ok (ids, m₂))
    (cuts : Cuts d m.nextId code segs) (new : segs.filterMap Segment.original? = []) :
    m₂.MadeOf d m (probes ++ segs.filterMap Segment.probe?) (jumps + segs.count .jump) := by
  obtain ⟨all, cut, originals, perm, count⟩ := h
  have spliced := Method.insert_spliced ext.ordered ne hi
  have mem : a ∈ m₁.order := ext.ordered.mem_iff.2 (Nat.lt_of_lt_of_le ha ext.grown)
  obtain ⟨xs, ys, before, after, order, rfl, hbefore, hafter⟩ := cut.part spliced mem ha
  -- In front of `a` the code also takes over the jumps that led to `a`.
  have stays : ∀ x i, m.nextId ≤ x → m₁.instruction? x = some i →
      ∃ f, m₂.instruction? x = some (i.mapTargets f) := by
    intro x i _ hx
    rw [spliced.kept x (Method.lt_of_instruction? hx), hx]
    cases side with
    | before => exact ⟨_, rfl⟩
    | after => exact ⟨fun t => t, by rw [Instruction.mapTargets, Operand.map_id]⟩
  have fresh : CutInto m₂ d m.nextId (m₁.freshIds code.length) segs := by
    refine cuts m₂ _ (fun x hx => Nat.le_trans ext.grown (Method.mem_freshIds.1 hx).1) ?_
    obtain ⟨rfl, -⟩ := Method.insert_around ext.ordered ne hi
    exact (Method.insert_fresh ext.ordered ne hi).2
  rw [List.filterMap_append] at originals perm
  rw [List.count_append] at count
  refine ⟨before ++ (segs ++ after), ?_, ?_, ?_, ?_⟩
  · rw [order]
    exact (hbefore.mono stays).append (fresh.append (hafter.mono stays))
  · rw [List.filterMap_append, List.filterMap_append, new, List.nil_append, originals]
  · rw [List.filterMap_append, List.filterMap_append]
    refine (List.perm_append_comm.append_left _).trans ?_
    rw [← List.append_assoc]
    exact perm.append_right _
  · rw [List.count_append, List.count_append]
    omega

/-- Leading an original branch elsewhere adds nothing. -/
theorem Method.MadeOf.setInstruction (h : m₁.MadeOf d m probes jumps) {a : InstrId}
    {i j : Instruction} (ha : a < m.nextId) (hi : m₁.instruction? a = some i) :
    (m₁.setInstruction a j).MadeOf d m probes jumps := by
  obtain ⟨segs, cut, counted⟩ := h
  refine ⟨segs, cut.mono fun x k hx hk => ⟨fun t => t, ?_⟩, counted⟩
  have other : x ≠ a := Nat.ne_of_gt (Nat.lt_of_lt_of_le ha hx)
  rw [Method.instruction?_setInstruction (Method.lt_of_instruction? hi), if_neg other, hk,
    Instruction.mapTargets, Operand.map_id]

theorem Method.MadeOf.increaseMaxStack (h : m₁.MadeOf d m probes jumps) (depth : UInt16) :
    (m₁.increaseMaxStack depth).MadeOf d m probes jumps := by
  obtain ⟨segs, cut, counted⟩ := h
  refine ⟨segs, cut.mono fun x i _ hi => ⟨fun t => t, ?_⟩, counted⟩
  rw [Instruction.mapTargets, Operand.map_id]
  exact hi

end CilProbes
