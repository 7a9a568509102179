/-! # Coverage points

The points of a method say what to record. A sequence point is an instruction to record when it
is reached; a branch point is an edge out of a conditional branch or switch, where path 0 falls
through and path n takes the n-th target. Both go by offsets in the body before instrumentation.

* `Points.first?`: the sequence point whose probe comes first in the instrumented body.
* `le_maxSequenceId?`, `le_maxBranchId?`: the greatest numbers are bounds.
* `inOffsetOrder`: sequence points by offset, those of one offset in the order of supply.
* `branchOffsets`, `edgeId?`: the branches with points, and the point that counts for an edge.
-/

namespace CilProbes

abbrev ProbeId := UInt32

/-- An instruction to record. -/
structure SequencePoint where
  offset : Nat
  id : ProbeId
deriving DecidableEq, Repr

/-- An edge to record. -/
structure BranchPoint where
  offset : Nat
  path : Nat
  id : ProbeId
deriving DecidableEq, Repr

/-- The points of a method, in the order of supply. -/
structure Points where
  sequence : List SequencePoint
  branches : List BranchPoint
deriving DecidableEq, Repr

namespace Points

def none : Points := ⟨[], []⟩

instance : Inhabited Points := ⟨none⟩

variable (p : Points)

/-- Whether there is no point of either kind. -/
def isEmpty : Bool := p.sequence.isEmpty && p.branches.isEmpty

/-- **The sequence point of lowest offset**; of several, the one supplied first. -/
def first? : Option SequencePoint :=
  p.sequence.foldl (fun best q =>
    match best with
    | some b => if q.offset < b.offset then some q else some b
    | .none => some q) .none

private def greatest? : List ProbeId → Option ProbeId :=
  List.foldl (fun best id => some (best.elim id (max id))) .none

/-- The greatest number of a sequence point. -/
def maxSequenceId? : Option ProbeId := greatest? (p.sequence.map (·.id))

/-- The greatest number of a branch point. -/
def maxBranchId? : Option ProbeId := greatest? (p.branches.map (·.id))

private theorem le_max_id (a b : ProbeId) : a ≤ max a b ∧ b ≤ max a b := by
  change a ≤ (if a ≤ b then b else a) ∧ b ≤ (if a ≤ b then b else a)
  split
  · exact ⟨‹_›, UInt32.le_refl b⟩
  · exact ⟨UInt32.le_refl a, (UInt32.le_total a b).resolve_left ‹_›⟩

/-- The search never falls behind a number that it has met. -/
private theorem le_greatest?_from {ids : List ProbeId} {id : ProbeId} {best : Option ProbeId}
    (h : (∃ b, best = some b ∧ id ≤ b) ∨ id ∈ ids) :
    ∃ top, ids.foldl (fun best id => some (best.elim id (max id))) best = some top ∧ id ≤ top := by
  induction ids generalizing best with
  | nil => exact h.resolve_right List.not_mem_nil
  | cons i ids ih =>
    apply ih
    rcases h with ⟨b, rfl, below⟩ | h
    · exact .inl ⟨_, rfl, UInt32.le_trans below (le_max_id i b).2⟩
    · rcases List.mem_cons.1 h with rfl | later
      · refine .inl ⟨_, rfl, ?_⟩
        cases best with
        | none => exact UInt32.le_refl id
        | some b => exact (le_max_id id b).1
      · exact .inr later

theorem le_maxSequenceId? {q : SequencePoint} (h : q ∈ p.sequence) :
    ∃ top, p.maxSequenceId? = some top ∧ q.id ≤ top :=
  le_greatest?_from (.inr (List.mem_map_of_mem h))

theorem le_maxBranchId? {q : BranchPoint} (h : q ∈ p.branches) :
    ∃ top, p.maxBranchId? = some top ∧ q.id ≤ top :=
  le_greatest?_from (.inr (List.mem_map_of_mem h))

end Points

/-- Puts a point in front of the first one whose offset is not lower. -/
def SequencePoint.enter (p : SequencePoint) : List SequencePoint → List SequencePoint
  | [] => [p]
  | q :: qs => if p.offset ≤ q.offset then p :: q :: qs else q :: p.enter qs

/-- **Sequence points by offset**, and in the order of supply where offsets agree. -/
def inOffsetOrder (ps : List SequencePoint) : List SequencePoint :=
  ps.foldr SequencePoint.enter []

/-- Enters an offset into an ascending list without repetitions. -/
def enterOffset (offset : Nat) : List Nat → List Nat
  | [] => [offset]
  | o :: os =>
    if offset < o then offset :: o :: os
    else if offset = o then o :: os
    else o :: enterOffset offset os

/-- **The offsets of the branches with points**, ascending and each once. -/
def branchOffsets (ps : List BranchPoint) : List Nat :=
  ps.foldl (fun os p => enterOffset p.offset os) []

/-- The number to report on an edge: of several points the one supplied last counts. -/
def edgeId? (ps : List BranchPoint) (offset path : Nat) : Option ProbeId :=
  ps.foldl (fun found p => if p.offset = offset ∧ p.path = path then some p.id else found) .none

end CilProbes
