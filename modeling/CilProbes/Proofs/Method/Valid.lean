import CilProbes.Method.Validity
import CilProbes.Proofs.Method.Built

/-!
# Valid methods

`validate_iff`: a method is valid if and only if every target and every boundary is an instruction
of the order, no region is empty and every filter clause has a filter block (`HandlerValid`).
-/

namespace CilProbes

theorem Handler.forall_boundaries {h : Handler} {P : InstrId → Prop} : (∀ b ∈ h.boundaries, P b) ↔
    P h.tryStart ∧ (∀ id ∈ h.tryEnd, P id) ∧ P h.handlerStart ∧ (∀ id ∈ h.handlerEnd, P id) ∧
      ∀ id ∈ h.filterStart, P id := by
  obtain ⟨flags, tryStart, tryEnd, handlerStart, handlerEnd, filterStart, token⟩ := h
  cases tryEnd <;> cases handlerEnd <;> cases filterStart <;> simp [boundaries]

namespace Method

/-- A region that starts before it ends; the end of the code is behind every instruction. -/
def RegionValid (m : Method) (start : InstrId) (stop : Option InstrId) : Prop :=
  m.order.idxOf start < stop.elim m.order.length m.order.idxOf

/-- A handler that names instructions of the order, with regions that are not empty. -/
structure HandlerValid (m : Method) (h : Handler) : Prop where
  boundaries : ∀ b ∈ h.boundaries, b ∈ m.order
  tryRegion : m.RegionValid h.tryStart h.tryEnd
  handlerRegion : m.RegionValid h.handlerStart h.handlerEnd
  filter : h.isFilter = true → h.filterStart.isSome = true

/-- A method is valid if no instruction and no handler has a fault. -/
theorem validate_iff_none {m : Method} : m.validate = .ok () ↔
    (m.sequence.findSome? fun p => targetFault? m.places p.1 p.2) = none ∧
    (m.handlers.zipIdx.findSome? fun e => handlerFault? m.places m.size e.1 e.2) = none := by
  have fault : m.validate = .ok () ↔ m.relocationFault? = none := by
    unfold validate
    cases m.relocationFault? with
    | none => simp
    | some fault => simp
  rw [fault]
  unfold relocationFault?
  cases ht : m.sequence.findSome? fun p => targetFault? m.places p.1 p.2 with
  | some fault => simp [ht]
  | none => simp [ht]

section
variable {m : Method} (ordered : m.Ordered)

include ordered

theorem find?_places {id : InstrId} {k : Nat} :
    m.places.find? id = some k ↔ id ∈ m.order ∧ k = m.order.idxOf id :=
  Locator.find?_eq_some ordered.nodup fun _ => ordered.mem_iff.1

theorem find?_places_of_mem {id : InstrId} (h : id ∈ m.order) :
    m.places.find? id = some (m.order.idxOf id) :=
  (find?_places ordered).2 ⟨h, rfl⟩

theorem isSome_places {id : InstrId} : (m.places.find? id).isSome = true ↔ id ∈ m.order := by
  rw [Option.isSome_iff_exists]
  simp [find?_places ordered]

theorem regionHolds_iff {start : InstrId} {stop : Option InstrId} (hstart : start ∈ m.order)
    (hstop : ∀ id ∈ stop, id ∈ m.order) :
    regionHolds m.places m.size start stop = true ↔ m.RegionValid start stop := by
  unfold regionHolds RegionValid
  rw [find?_places_of_mem ordered hstart]
  cases stop with
  | none => simp [Method.size]
  | some id => simp [find?_places_of_mem ordered (hstop id rfl)]

theorem handlerFault?_iff {h : Handler} {clause : Nat} :
    handlerFault? m.places m.size h clause = none ↔ m.HandlerValid h := by
  unfold handlerFault?
  cases hb : h.boundaries.find? fun b => (m.places.find? b).isNone with
  | some b =>
    refine ⟨fun e => (by cases e), fun valid => ?_⟩
    have mem := valid.boundaries b (List.mem_of_find?_eq_some hb)
    have := List.find?_some hb
    simp [find?_places_of_mem ordered mem] at this
  | none =>
    have boundaries : ∀ b ∈ h.boundaries, b ∈ m.order := by
      intro b hm
      have := List.find?_eq_none.1 hb b hm
      rw [← isSome_places ordered, Option.isSome_iff_ne_none]
      exact fun none => this (Option.isNone_iff_eq_none.2 none)
    obtain ⟨tryStart, tryEnd, handlerStart, handlerEnd, -⟩ := Handler.forall_boundaries.1 boundaries
    have regions : (regionHolds m.places m.size h.tryStart h.tryEnd &&
        regionHolds m.places m.size h.handlerStart h.handlerEnd) = true ↔
          m.RegionValid h.tryStart h.tryEnd ∧ m.RegionValid h.handlerStart h.handlerEnd := by
      rw [Bool.and_eq_true, regionHolds_iff ordered tryStart tryEnd,
        regionHolds_iff ordered handlerStart handlerEnd]
    by_cases hold : m.RegionValid h.tryStart h.tryEnd ∧ m.RegionValid h.handlerStart h.handlerEnd
    · rw [if_pos (regions.2 hold)]
      constructor
      · intro e
        refine ⟨boundaries, hold.1, hold.2, fun hf => ?_⟩
        cases hs : h.filterStart with
        | none => simp [hf, hs] at e
        | some f => rfl
      · intro valid
        rw [if_neg]
        rw [Bool.and_eq_true]
        rintro ⟨hf, hs⟩
        have := valid.filter hf
        simp [Option.isNone_iff_eq_none.1 hs] at this
    · rw [if_neg fun e => hold (regions.1 e)]
      refine ⟨fun e => (by cases e), fun valid => ?_⟩
      exact absurd ⟨valid.tryRegion, valid.handlerRegion⟩ hold

/-- **When a method is valid.** -/
theorem validate_iff : m.validate = .ok () ↔
    (∀ p ∈ m.sequence, ∀ t ∈ p.2.targets, t ∈ m.order) ∧ ∀ h ∈ m.handlers, m.HandlerValid h := by
  have targets : (m.sequence.findSome? fun p => targetFault? m.places p.1 p.2) = none ↔
      ∀ p ∈ m.sequence, ∀ t ∈ p.2.targets, t ∈ m.order := by
    simp only [List.findSome?_eq_none_iff, targetFault?, ite_eq_left_iff, reduceCtorEq, imp_false,
      not_not, isSome_places ordered]
  have handlers : (m.handlers.zipIdx.findSome? fun e => handlerFault? m.places m.size e.1 e.2) = none ↔
      ∀ h ∈ m.handlers, m.HandlerValid h := by
    simp only [List.findSome?_eq_none_iff, handlerFault?_iff ordered]
    constructor
    · intro all h hh
      obtain ⟨k, hk⟩ := List.mem_iff_getElem?.1 hh
      exact all (h, k) (List.mem_zipIdx_iff_getElem?.2 hk)
    · intro all e he
      exact all e.1 (List.mem_of_getElem? (List.mem_zipIdx_iff_getElem?.1 he))
  rw [validate_iff_none, targets, handlers]

end

end Method

end CilProbes
