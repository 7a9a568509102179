import CilProbes.Log
import CilProbes.Method.Splice

/-! # Instrumentation

A method is instrumented in two passes. The first gives every covered edge of a branch a block of
its own behind the branch: the probe of the fall-through edge comes at once, then a jump over the
blocks of the taken edges, each of them a probe and a jump to the old target; the branch leads to
the blocks instead. The second pass puts the probes of the sequence points in front of their
instructions, which also covers the paths through those blocks.

* `Method.isInstrumented`: whether the probe of the first sequence point is in place.
* `Method.addBranchCoverage`, `Method.addSequenceCoverage`: the two passes.
* `Method.instrument`: both, unless there is nothing to record or the probes are in place.
-/

namespace CilProbes

/-- What instrumentation did to a method. -/
inductive Instrumented where
  /-- Probes went in, as many for sequence points and for edges. -/
  | applied (sequence branches : Nat)
  | already
  /-- There are no sequence points. -/
  | nothing
deriving DecidableEq, Repr

/-- The blocks behind a covered branch. -/
structure EdgeCode where
  /-- The code to insert behind the branch. -/
  code : List Instruction
  /-- For each covered taken edge its place in the operand and the place of its block in the
  code. -/
  blocks : List (Nat × Nat)
  probes : Nat
deriving DecidableEq, Repr

/-- A taken edge with a point. -/
structure TakenEdge where
  slot : Nat
  target : InstrId
  id : ProbeId
deriving DecidableEq, Repr

def takenEdges (idOf : Nat → Option ProbeId) (targets : List InstrId) : List TakenEdge :=
  targets.zipIdx.filterMap fun (target, slot) =>
    (idOf (slot + 1)).map fun id => ⟨slot, target, id⟩

def edgeBlock (d : ProbeDispatch) (e : TakenEdge) : List Instruction :=
  d.probe e.id ++ [.branch .br e.target]

/-- **The blocks of a branch** with the given targets, whose fall-through edge leads to `next`. -/
def edgeCode (d : ProbeDispatch) (idOf : Nat → Option ProbeId) (targets : List InstrId)
    (next : InstrId) : EdgeCode :=
  let fall := (idOf 0).elim [] d.probe
  let taken := takenEdges idOf targets
  let head := if taken.isEmpty then fall else fall ++ [.branch .br next]
  let step := d.callSequence.length + 2
  { code := head ++ taken.flatMap (edgeBlock d)
    blocks := taken.zipIdx.map fun (e, k) => (e.slot, head.length + k * step)
    probes := (if (idOf 0).isSome then 1 else 0) + taken.length }

/-- Leads the covered edges of an operand to their blocks, of which the code starts at `first`. -/
def leadToBlocks (blocks : List (Nat × Nat)) (first : InstrId) (o : Operand InstrId) :
    Operand InstrId :=
  let lead := fun slot dest => ((blocks.lookup slot).map (first + ·)).getD dest
  match o with
  | .target t => .target (lead 0 t)
  | .switch ts => .switch (ts.mapIdx lead)
  | o => o

/-- Whether a list of instructions starts with another, constants compared as numbers. -/
def startsWith : List Instruction → List Instruction → Bool
  | _, [] => true
  | [], _ :: _ => false
  | i :: is, j :: js => i.sameAs j && startsWith is js

namespace Method

/-- **Whether the probe of the first sequence point is in place.** -/
def isInstrumented (m : Method) (p : Points) (d : ProbeDispatch) : Bool :=
  match p.first? with
  | none => false
  | some first =>
    match m.findOrigin? first.offset with
    | none => false
    | some anchor => startsWith (m.sequenceFrom anchor) (d.probe first.id)

/-- Puts the probe of a sequence point in front of its instruction. -/
def addSequencePoint (d : ProbeDispatch) (done : Nat × Method) (p : SequencePoint) :
    Logged (Nat × Method) := do
  let (count, m) := done
  match m.findOrigin? p.offset with
  | none =>
    Logged.note (.sequencePointUnknown p.id p.offset)
    pure (count, m)
  | some anchor =>
    let (_, m) ← (m.insert anchor (d.probe p.id) .before : Except Fault _)
    pure (count + 1, m)

/-- **The probes of the sequence points**, each in front of its instruction. Points that name no
instruction are noted and skipped. -/
def addSequenceCoverage (m : Method) (ps : List SequencePoint) (d : ProbeDispatch) :
    Logged (Nat × Method) :=
  (inOffsetOrder ps).foldlM (addSequencePoint d) (0, m)

/-- Puts the blocks of the covered edges behind the branch at an offset. -/
def addBranchPoints (ps : List BranchPoint) (d : ProbeDispatch) (done : Nat × Method)
    (offset : Nat) : Logged (Nat × Method) := do
  let (count, m) := done
  let skip (e : LogEvent) : Logged (Nat × Method) := do
    Logged.note e
    pure (count, m)
  match m.findOrigin? offset with
  | none => skip (.branchPointUnknown offset)
  | some branch =>
    match m.instruction? branch with
    | none => pure (count, m)
    | some i =>
      if i.flow = .conditional ∨ i.flow = .switch then
        match m.next? branch with
        | none => skip (.branchPointAtEnd offset)
        | some next =>
          let here := ps.filter (·.offset == offset)
          let edges := edgeCode d (edgeId? here offset) i.targets next
          if edges.code.isEmpty then pure (count, m)
          else
            let first := m.nextId
            let (_, m) ← (m.insert branch edges.code .after : Except Fault _)
            let m := m.setInstruction branch
              { i with operand := leadToBlocks edges.blocks first i.operand }
            pure (count + edges.probes, m)
      else skip (.branchPointWithoutEdges offset i.mnemonic)

/-- **The probes of the edges**, in blocks behind their branches. Points that name no edge are
noted and skipped. -/
def addBranchCoverage (m : Method) (ps : List BranchPoint) (d : ProbeDispatch) :
    Logged (Nat × Method) :=
  (branchOffsets ps).foldlM (addBranchPoints ps d) (0, m)

/-- **Instruments a method.** Edges come first, so that the sequence probes in front of a branch
target stand on the way through its block too. The declared stack grows by what one probe
needs. -/
def instrument (m : Method) (p : Points) (d : ProbeDispatch) :
    Logged (Instrumented × Method) := do
  if p.sequence.isEmpty then return (.nothing, m)
  if m.isInstrumented p d then return (.already, m)
  let (branches, m) ← m.addBranchCoverage p.branches d
  let (sequence, m) ← m.addSequenceCoverage p.sequence d
  pure (.applied sequence branches, m.increaseMaxStack d.stackDepth)

end Method

end CilProbes
