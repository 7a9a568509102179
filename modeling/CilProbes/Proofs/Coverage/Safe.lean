import CilProbes.Proofs.Coverage.Growth
import CilProbes.Proofs.Coverage.Passes
import CilProbes.Proofs.Writing.Total

/-!
# Instrumentation breaks no reference

An edit keeps a method valid if what it puts in refers to instructions of the method
(`insert_valid`, `setInstruction_valid`). The code of a branch refers to where the branch led or
behind it, and the branch then to that code, so each step of the two passes keeps the method valid
(`Probed`).

* `fillSlots?`, `Indexed`: the indices that the passes use.
* `encode_error_of_valid`: what can keep a valid method from being encoded.
* `instrument_intact`: instrumentation succeeds and breaks no reference.
-/

namespace CilProbes

namespace Method

/-! ## Edits of valid methods -/

variable {m m' m₁ m₂ : Method} {a : InstrId} {code : List Instruction} {side : Side}
  {ids : List InstrId} {s : Surround}

section
variable (around : m.Around m' s) (ordered : m'.Ordered)

include around

theorem Around.head_mem {b : InstrId} (hb : b ∈ m.order) : s.head b ∈ m'.order := by
  rw [around.order]
  exact List.mem_flatMap.2 ⟨b, hb, s.head_mem_block b⟩

include ordered

/-- A region that is not empty stays so, whatever code goes in. -/
theorem Around.regionValid {start : InstrId} {stop : Option InstrId} (hstart : start ∈ m.order)
    (hstop : ∀ e ∈ stop, e ∈ m.order) (valid : m.RegionValid start stop) :
    m'.RegionValid (s.head start) (stop.map s.head) := by
  unfold RegionValid at valid ⊢
  cases stop with
  | none => exact List.idxOf_lt_length_of_mem (around.head_mem hstart)
  | some e =>
    have nodup : (m.order.flatMap s.block).Nodup := around.order ▸ ordered.nodup
    have behind := s.idxOf_head_le nodup hstart (hstop e rfl) (s.head_mem_block start)
    rw [← around.order] at behind
    simp only [Option.map_some, Option.elim_some] at valid ⊢
    omega

theorem Around.handlerValid {h : Handler} (valid : m.HandlerValid h) :
    m'.HandlerValid (h.mapBoundaries s.head) := by
  obtain ⟨tryStart, tryEnd, handlerStart, handlerEnd, filterStart⟩ :=
    Handler.forall_boundaries.1 valid.boundaries
  refine ⟨Handler.forall_boundaries.2 ⟨?_, ?_, ?_, ?_, ?_⟩, ?_, ?_, fun isFilter => ?_⟩
  · exact around.head_mem tryStart
  · exact Option.forall_mem_map.2 fun e he => around.head_mem (tryEnd e he)
  · exact around.head_mem handlerStart
  · exact Option.forall_mem_map.2 fun e he => around.head_mem (handlerEnd e he)
  · exact Option.forall_mem_map.2 fun e he => around.head_mem (filterStart e he)
  · exact around.regionValid ordered tryStart tryEnd valid.tryRegion
  · exact around.regionValid ordered handlerStart handlerEnd valid.handlerRegion
  · exact Option.isSome_map.trans (valid.filter isFilter)

end

/-- **An insertion keeps a method valid** if the code refers to instructions of the method. -/
theorem insert_valid (ordered : m.Ordered) (valid : m.validate = .ok ())
    (inside : ∀ i ∈ code, ∀ t ∈ i.targets, t ∈ m.order)
    (hi : m.insert a code side = .ok (ids, m')) : m'.validate = .ok () := by
  by_cases ne : code = []
  · subst ne
    rwa [insert_nil hi]
  · obtain ⟨targets, handlers⟩ := (validate_iff ordered).1 valid
    have ordered' := ordered.insert hi
    obtain ⟨size, -⟩ := insert_fresh ordered ne hi
    have grown : m.nextId < m'.nextId := by
      rw [size]
      exact Nat.lt_add_of_pos_right (List.length_pos_of_ne_nil ne)
    have stays : ∀ t ∈ m.order, t ∈ m'.order :=
      fun t ht => ordered'.mem_iff.2 (Nat.lt_trans (ordered.mem_iff.1 ht) grown)
    refine (validate_iff ordered').2 ⟨?_, ?_⟩
    · rintro ⟨x, i⟩ hp t ht
      have hx := ordered'.mem_sequence.1 hp
      rcases Nat.lt_or_ge x m.nextId with lt | ge
      · cases side with
        | before =>
          rw [(insert_before ordered ne hi).instruction x lt] at hx
          obtain ⟨j, hj, rfl⟩ := Option.map_eq_some_iff.1 hx
          obtain ⟨u, hu, rfl⟩ : ∃ u ∈ j.targets, (if u = a then m.nextId else u) = t := by
            simpa [Instruction.retarget, Instruction.mapTargets, Instruction.targets] using ht
          split
          · exact ordered'.mem_iff.2 grown
          · exact stays u (targets _ (ordered.mem_sequence.2 hj) u hu)
        | after =>
          rw [(insert_after ordered ne hi).instruction x lt] at hx
          exact stays t (targets _ (ordered.mem_sequence.2 hx) t ht)
      · exact stays t (inside i ((insert_instruction ordered hi).2 x i ge hx) t ht)
    · rw [(insert_around ordered ne hi).2.handlers]
      intro h hh
      obtain ⟨h, hm, rfl⟩ := List.mem_map.1 hh
      exact (insert_around ordered ne hi).2.handlerValid ordered' (handlers h hm)

/-- An instruction may be replaced by one that refers to instructions of the method. -/
theorem setInstruction_valid (ordered : m.Ordered) (valid : m.validate = .ok ())
    {i j : Instruction} (hi : m.instruction? a = some i) (inside : ∀ t ∈ j.targets, t ∈ m.order) :
    (m.setInstruction a j).validate = .ok () := by
  obtain ⟨targets, handlers⟩ := (validate_iff ordered).1 valid
  have ordered' := ordered.setInstruction (a := a) j
  refine (validate_iff ordered').2 ⟨?_, fun h hh => ⟨?_, ?_, ?_, ?_⟩⟩
  · rintro ⟨x, k⟩ hp t ht
    have hx := ordered'.mem_sequence.1 hp
    rw [instruction?_setInstruction (lt_of_instruction? hi)] at hx
    split at hx
    · cases hx
      exact inside t ht
    · exact targets _ (ordered.mem_sequence.2 hx) t ht
  · exact (handlers h hh).boundaries
  · exact (handlers h hh).tryRegion
  · exact (handlers h hh).handlerRegion
  · exact (handlers h hh).filter

/-- A method with probes put in, which is valid if the method is. -/
structure Probed (m m' : Method) : Prop where
  grows : m.Grows Instruction.New m'
  valid : m.validate = .ok () → m'.validate = .ok ()

theorem Probed.refl : m.Probed m := ⟨.refl, id⟩

theorem Probed.trans (h : m.Probed m₁) (h' : m₁.Probed m₂) : m.Probed m₂ :=
  ⟨h.grows.trans h'.grows, fun valid => h'.valid (h.valid valid)⟩

end Method

open Logged

variable {m m₁ : Method} {d : ProbeDispatch}

/-! ## What a branch refers to -/

section
variable {idOf : Nat → Option ProbeId} {targets : List InstrId} {next : InstrId}

/-- The code of a branch leads to where the branch led, or behind it. -/
theorem targets_edgeCode : ∀ i ∈ (edgeCode d idOf targets next).code, ∀ t ∈ i.targets,
    t = next ∨ t ∈ targets := by
  intro i hi t ht
  rcases mem_edgeCode hi with ⟨id, hi⟩ | rfl | ⟨e, he, rfl⟩
  · rw [(probe_plain d id i hi).1] at ht
    cases ht
  · exact .inl (List.mem_singleton.1 ht)
  · rw [List.mem_singleton.1 ht]
    exact .inr (List.mem_of_getElem? (mem_takenEdges.1 he).1)

/-- A branch that leads to its blocks leads to where it led, or into the code. -/
theorem mem_targets_led {i : Instruction} {first t : InstrId}
    (h : t ∈ (i.led (edgeCode d idOf targets next).blocks first).targets) :
    t ∈ i.targets ∨ ∃ start < (edgeCode d idOf targets next).code.length, t = first + start := by
  obtain ⟨slot, hs⟩ := List.mem_iff_getElem?.1 h
  rw [targets_led] at hs
  obtain ⟨u, hu, rfl⟩ := Option.map_eq_some_iff.1 hs
  cases hb : (edgeCode d idOf targets next).blocks.lookup slot with
  | none => exact .inl (List.mem_of_getElem? hu)
  | some start =>
    obtain ⟨pre, post, split, -⟩ := List.lookup_eq_some_iff.1 hb
    have mem : (slot, start) ∈ (edgeCode d idOf targets next).blocks := by simp [split]
    exact .inr ⟨start, (lt_of_block mem).2, rfl⟩

end

/-! ## The steps of the two passes -/

section
variable {count : Nat}

theorem mem_of_findOrigin? {o : Nat} {a : InstrId} (h : m.findOrigin? o = some a) : a ∈ m.order :=
  List.mem_of_find?_eq_some h

theorem total_sequencePoint (d : ProbeDispatch) (r : Nat × Method) (q : SequencePoint) :
    (Method.addSequencePoint d r q).Total := by
  obtain ⟨count, m⟩ := r
  unfold Method.addSequencePoint
  cases found : m.findOrigin? q.offset with
  | none =>
    simp only [found]
    exact total_bind (total_note _) fun _ _ => total_pure _
  | some a =>
    obtain ⟨r, hr⟩ := Method.exists_insert (mem_of_findOrigin? found) (d.probe q.id) .before
    simp only [found]
    exact total_bind (total_lift hr) fun _ _ => total_pure _

theorem total_branchPoints (ps : List BranchPoint) (d : ProbeDispatch) (r : Nat × Method)
    (o : Nat) : (Method.addBranchPoints ps d r o).Total := by
  obtain ⟨count, m⟩ := r
  have skipped : ∀ e, (do Logged.note e; pure (count, m) : Logged (Nat × Method)).Total :=
    fun e => total_bind (total_note e) fun _ _ => total_pure _
  unfold Method.addBranchPoints
  cases found : m.findOrigin? o with
  | none =>
    simp only [found]
    exact skipped _
  | some a =>
    simp only [found]
    cases hi : m.instruction? a with
    | none =>
      exact total_pure _
    | some i =>
      simp only
      split
      · cases hn : m.next? a with
        | none =>
          exact skipped _
        | some next =>
          simp only
          split
          · exact total_pure _
          · obtain ⟨r, hr⟩ := Method.exists_insert (mem_of_findOrigin? found) _ .after
            exact total_bind (total_lift hr) fun _ _ => total_pure _
      · exact skipped _

theorem probed_sequencePoint {q : SequencePoint} {r : Nat × Method} (ordered : m.Ordered)
    (h : (Method.addSequencePoint d (count, m) q).Yields r) : m.Probed r.2 := by
  rcases addSequencePoint_cases h with ⟨-, rfl⟩ | ⟨a, ids, m₂, -, inserted, rfl⟩
  · exact .refl
  · refine ⟨.insert .refl (new_probe q.id) inserted, fun valid => ?_⟩
    refine Method.insert_valid ordered valid (fun i hi t ht => ?_) inserted
    rw [(probe_plain d q.id i hi).1] at ht
    cases ht

theorem probed_branchPoints {ps : List BranchPoint} {o : Nat} {r : Nat × Method}
    (ordered : m.Ordered) (h : (Method.addBranchPoints ps d (count, m) o).Yields r) :
    m.Probed r.2 := by
  rcases addBranchPoints_cases h with ⟨rfl, -⟩ |
    ⟨a, i, next, ids, m₂, -, hi, -, hn, ne, inserted, rfl⟩
  · exact .refl
  · have ins := Method.insert_after ordered ne inserted
    have hi₂ : m₂.instruction? a = some i := by
      rw [ins.instruction a (Method.lt_of_instruction? hi), hi]
    refine ⟨.lead (.insert .refl new_edgeCode inserted) hi₂ (erased_led i _ _), fun valid => ?_⟩
    have targets := ((Method.validate_iff ordered).1 valid).1 _ (ordered.mem_sequence.2 hi)
    have valid₂ := Method.insert_valid ordered valid (fun j hj t ht => ?_) inserted
    · refine Method.setInstruction_valid ins.ordered valid₂ hi₂ fun t ht => ins.ordered.mem_iff.2 ?_
      show t < m₂.nextId
      rw [ins.nextId]
      rcases mem_targets_led ht with ht | ⟨start, lt, rfl⟩
      · exact Nat.lt_of_lt_of_le (ordered.mem_iff.1 (targets t ht)) (Nat.le_add_right ..)
      · exact Nat.add_lt_add_left lt _
    · rcases targets_edgeCode j hj t ht with rfl | ht
      · exact ordered.mem_iff.2 (ordered.lt_of_next? hn)
      · exact targets t ht

theorem probed_foldlM {α : Type} {f : Nat × Method → α → Logged (Nat × Method)}
    (step : ∀ {count m a r}, m.Ordered → (f (count, m) a).Yields r → m.Probed r.2)
    (ordered : m.Ordered) {l : List α} {r : Nat × Method}
    (h : (l.foldlM f (count, m)).Yields r) : m.Probed r.2 :=
  yields_foldlM (P := fun _ r => m.Probed r.2) h .refl fun _ _ _ _ _ _ before last =>
    before.trans (step (before.grows.ordered ordered) last)

end

/-! ## Indices -/

/-- Puts the first instruction of each block into its slot, one block after the other. There is no
result if an index is out of range. -/
def fillSlots? (ids : List InstrId) : List (Nat × Nat) → List InstrId → Option (List InstrId)
  | [], slots => some slots
  | (slot, start) :: blocks, slots =>
    if slot < slots.length then
      ids[start]?.bind fun id => fillSlots? ids blocks (slots.set slot id)
    else none

theorem fillSlots?_range (first : InstrId) {count : Nat} {blocks : List (Nat × Nat)}
    (nodup : (blocks.map Prod.fst).Nodup) (slots : List InstrId)
    (inside : ∀ b ∈ blocks, b.1 < slots.length ∧ b.2 < count) :
    ∃ filled, fillSlots? (List.range' first count) blocks slots = some filled ∧
      ∀ k, filled[k]? = slots[k]?.map fun t => ((blocks.lookup k).map (first + ·)).getD t := by
  induction blocks generalizing slots with
  | nil => exact ⟨slots, rfl, by simp⟩
  | cons b blocks ih =>
    obtain ⟨slot, start⟩ := b
    obtain ⟨⟨hslot, hstart⟩, rest⟩ := List.forall_mem_cons.1 inside
    rw [List.map_cons, List.nodup_cons] at nodup
    have found : (List.range' first count)[start]? = some (first + start) := by simp [hstart]
    obtain ⟨filled, e, slotwise⟩ := ih nodup.2 (slots.set slot (first + start))
      fun b hb => by simpa using rest b hb
    refine ⟨filled, ?_, fun k => ?_⟩
    · rw [fillSlots?, if_pos hslot, found]
      exact e
    · rw [slotwise k, List.getElem?_set, List.lookup_cons]
      by_cases hk : slot = k
      · subst hk
        -- No later block goes into the same slot.
        have later : blocks.lookup slot = none := by
          rw [List.lookup_eq_none_iff]
          intro b hb
          rw [bne_iff_ne]
          exact fun e => nodup.1 (List.mem_map.2 ⟨b, hb, e.symm⟩)
        simp [hslot, later]
      · simp [hk, beq_eq_false_iff_ne.2 (Ne.symm hk)]

/-- **The indices that the passes use on a method are in range**: those of the stock, the places
where code goes in, and for the blocks of a branch the slots of its operand and the new
instructions. -/
structure Method.Indexed (m : Method) (d : ProbeDispatch) : Prop where
  stock : ∀ id ∈ m.order, ∃ i, m.instruction? id = some i
  place : ∀ id place, m.position? id = some place → place < m.size
  target : ∀ idOf targets, ∀ e ∈ takenEdges idOf targets, targets[e.slot]? = some e.target
  slots : ∀ (i : Instruction) idOf next,
    fillSlots? (m.freshIds (edgeCode d idOf i.targets next).code.length)
        (edgeCode d idOf i.targets next).blocks i.targets
      = some (i.led (edgeCode d idOf i.targets next).blocks m.nextId).targets

theorem indexed_of_ordered (ordered : m.Ordered) (d : ProbeDispatch) : m.Indexed d where
  stock := by
    intro id hm
    have bound : id < m.stock.size := ordered.mem_iff.1 hm
    exact ⟨m.stock[id], Array.getElem?_eq_getElem bound⟩
  place := by
    intro id place hp
    obtain ⟨mem, rfl⟩ := Locator.idxOf?_eq_some.1 hp
    exact List.idxOf_lt_length_of_mem mem
  target := fun _ _ e he => (mem_takenEdges.1 he).1
  slots := by
    intro i idOf next
    have nodup : ((edgeCode d idOf i.targets next).blocks.map Prod.fst).Nodup := by
      obtain ⟨head, -, blocks⟩ := edgeCode_eq d idOf i.targets next
      have slots : (edgeCode d idOf i.targets next).blocks.map Prod.fst
          = (takenEdges idOf i.targets).map (·.slot) := by
        rw [blocks, List.map_map]
        conv_rhs => rw [← List.zipIdx_map_fst 0 (takenEdges idOf i.targets), List.map_map]
        rfl
      rw [slots]
      exact List.pairwise_map.2 ((takenEdges_sorted idOf i.targets).imp Nat.ne_of_lt)
    obtain ⟨filled, e, slotwise⟩ := fillSlots?_range m.nextId nodup i.targets
      fun b hb => lt_of_block hb
    rw [Method.freshIds, e]
    congr 1
    refine List.ext_getElem? fun k => ?_
    rw [slotwise k, targets_led]

/-! ## Instrumentation as a whole -/

/-- A method as the passes leave it: they can go on, and no reference is broken that was not. -/
structure Method.Intact (m : Method) (d : ProbeDispatch) (m' : Method) : Prop where
  built : m'.Built
  indexed : m'.Indexed d
  valid : m.validate = .ok () → m'.validate = .ok ()

theorem Method.Probed.intact {m' : Method} (h : m.Probed m') (built : m.Built)
    (d : ProbeDispatch) : m.Intact d m' where
  built := h.grows.built built
  indexed := indexed_of_ordered (h.grows.ordered built.ordered) d
  valid := h.valid

/-- **Why a valid method is not encoded**: its code or its exception section is too long. -/
theorem encode_error_of_valid (ordered : m.Ordered) (valid : m.validate = .ok ()) {compact : Bool}
    {fault : Fault} (h : m.encode compact = .error fault) :
    (∃ size, fault = .encode (.codeSize size) ∧ m.TooLong) ∨
    fault = .encode (.sectionTooLarge m.handlers.length .fat) ∧
      0xFFFFFF < ClauseFormat.fat.dataSize m.handlers.length := by
  unfold Method.encode Method.bodySize at h
  rcases draft_cases ordered with ⟨cause, invalid, -⟩ | ⟨size, -, long, hd⟩ | ⟨d, hd, -, -⟩
  · rw [valid] at invalid
    cases invalid
  · rw [hd] at h
    cases h
    exact .inl ⟨size, rfl, long⟩
  · obtain ⟨front, hf⟩ := exists_front ordered hd
    have room : d.size compact ≤ (List.replicate (d.size compact) (0 : UInt8)).length := by simp
    have written := encodeInto_of_draft hd hf room
    rw [hd] at h
    rcases Nat.lt_or_ge 0xFFFFFF (ClauseFormat.fat.dataSize m.handlers.length) with many | few
    · rw [if_pos many] at written
      simp only [Except.map, bind, Except.bind, written] at h
      cases h
      exact .inr ⟨rfl, many⟩
    · rw [if_neg (Nat.not_lt.2 few)] at written
      simp only [Except.map, bind, Except.bind, written] at h
      cases h

theorem intact_of_probed (built : m.Built) {l : Logged (Nat × Method)} (total : l.Total)
    (probed : ∀ r, l.Yields r → m.Probed r.2) :
    ∃ count m', l.runOn.1 = .ok (count, m') ∧ m.Intact d m' := by
  obtain ⟨⟨count, m'⟩, h⟩ := total.runOn
  exact ⟨count, m', h, (probed _ (yields_of_runOn h)).intact built d⟩

theorem total_instrument (m : Method) (p : Points) (d : ProbeDispatch) :
    (m.instrument p d).Total := by
  unfold Method.instrument
  split
  · exact total_pure _
  · split
    · exact total_pure _
    · apply total_bind (total_foldlM (total_branchPoints p.branches d) _ _)
      intro branches _
      apply total_bind (total_foldlM (total_sequencePoint d) _ _)
      intro sequence _
      exact total_pure _

/-- Instrumentation puts in new code and breaks no reference. -/
theorem probed_instrument (ordered : m.Ordered) {p : Points} {r : Instrumented × Method}
    (h : (m.instrument p d).Yields r) : m.Probed r.2 := by
  rcases instrument_cases h with ⟨-, rfl⟩ | ⟨-, -, rfl⟩ | ⟨-, -, branches, sequence, hb, hs, rfl⟩
  · exact .refl
  · exact .refl
  · have first := probed_foldlM probed_branchPoints ordered hb
    have second := probed_foldlM probed_sequencePoint (first.grows.ordered ordered) hs
    have both := first.trans second
    exact ⟨.deepen d.stackDepth both.grows, both.valid⟩

/-- **Instrumentation breaks no reference.** Both passes and `instrument` succeed on every method,
as do the steps of the passes on any points: each index is in range, and a valid method stays valid.
What comes out of a valid method is then encoded, unless its code or its exception section is too
long. -/
theorem instrument_intact (built : m.Built) (d : ProbeDispatch) :
    (∀ ps (offsets : List Nat), ∃ count m',
      (offsets.foldlM (Method.addBranchPoints ps d) (0, m)).runOn.1 = .ok (count, m') ∧
      m.Intact d m') ∧
    (∀ points : List SequencePoint, ∃ count m',
      (points.foldlM (Method.addSequencePoint d) (0, m)).runOn.1 = .ok (count, m') ∧
      m.Intact d m') ∧
    (∀ ps, ∃ count m', (m.addBranchCoverage ps d).runOn.1 = .ok (count, m') ∧ m.Intact d m') ∧
    (∀ ps, ∃ count m', (m.addSequenceCoverage ps d).runOn.1 = .ok (count, m') ∧ m.Intact d m') ∧
    ∀ p, ∃ outcome m', (m.instrument p d).runOn.1 = .ok (outcome, m') ∧ m.Intact d m' ∧
      (m.validate = .ok () → ∀ compact fault, m'.encode compact = .error fault →
        (∃ size, fault = .encode (.codeSize size) ∧ m'.TooLong) ∨
        fault = .encode (.sectionTooLarge m'.handlers.length .fat) ∧
          0xFFFFFF < ClauseFormat.fat.dataSize m'.handlers.length) := by
  have ordered := built.ordered
  have branches : ∀ ps (offsets : List Nat), ∃ count m',
      (offsets.foldlM (Method.addBranchPoints ps d) (0, m)).runOn.1 = .ok (count, m') ∧
        m.Intact d m' :=
    fun ps offsets => intact_of_probed built (total_foldlM (total_branchPoints ps d) offsets (0, m))
      fun _ h => probed_foldlM probed_branchPoints ordered h
  have sequence : ∀ points : List SequencePoint, ∃ count m',
      (points.foldlM (Method.addSequencePoint d) (0, m)).runOn.1 = .ok (count, m') ∧
        m.Intact d m' :=
    fun points => intact_of_probed built (total_foldlM (total_sequencePoint d) points (0, m))
      fun _ h => probed_foldlM probed_sequencePoint ordered h
  refine ⟨branches, sequence, fun ps => branches ps _, fun ps => sequence _, fun p => ?_⟩
  obtain ⟨⟨outcome, m'⟩, h⟩ := (total_instrument m p d).runOn
  have probed := probed_instrument ordered (yields_of_runOn h)
  have ordered' := probed.grows.ordered ordered
  refine ⟨outcome, m', h, probed.intact built d, fun valid compact fault failed => ?_⟩
  exact encode_error_of_valid ordered' (probed.valid valid) failed

/-- All three probes go in, and the branch leads to instructions of the method. -/
theorem instrument_intact_twoReturns : twoReturns.Built ∧ twoReturns.validate = .ok () ∧
    ∃ m', (twoReturns.instrument ⟨[⟨0, 7⟩], [⟨1, 0, 8⟩, ⟨1, 1, 9⟩]⟩
        (.trampoline ⟨0x0A000001⟩)).runOn.1 = .ok (.applied 1 2, m') ∧
      twoReturns.Intact (.trampoline ⟨0x0A000001⟩) m' ∧ m'.validate = .ok () := by
  have built : twoReturns.Built := .decoded decode_twoReturns
  have valid : twoReturns.validate = .ok () := by decide +kernel
  obtain ⟨m₁, applied⟩ := instrument_twoReturns
  obtain ⟨-, -, -, -, whole⟩ := instrument_intact built (.trampoline ⟨0x0A000001⟩)
  obtain ⟨outcome, m', h, intact, -⟩ := whole ⟨[⟨0, 7⟩], [⟨1, 0, 8⟩, ⟨1, 1, 9⟩]⟩
  rw [applied] at h
  cases h
  exact ⟨built, valid, m₁, applied, intact, intact.valid valid⟩

end CilProbes
