import CilProbes.Proofs.Coverage.Growth
import CilProbes.Proofs.Coverage.Passes
import CilProbes.Proofs.Writing.Again
import CilProbes.Proofs.Writing.Reach

/-!
# Where the instructions went

An instruction that was decoded carries the offset at which it stood, and encoding writes down the
offset that it gets. The offset map pairs the two. Inserted code carries no offset and is not in the
map, and what was decoded stays in order, so both sides of the map go up.

An instruction has its id through all edits, and in the new body it has its place: that is how one
knows it again after the new body is decoded.

* `Method.Tabulates`: a map from the offsets of a body, in order.
* `Method.Relocated`, `Method.Relocates`: a map leads from each instruction to itself, which no
  other map does (`Relocates.unique`).
* `offsetMap_tabulates`, `offsetMap_relocates`: the offset map of a method with inserted code.
-/

namespace CilProbes

open Layout Relax

/-- Operands without targets have nothing but their shape. -/
theorem Operand.eq_of_shape {o o' : Operand InstrId}
    (h : (o.map fun _ => ()) = o'.map fun _ => ()) (plain : o'.isBranch = false) : o = o' := by
  cases o <;> cases o' <;> simp_all [Operand.map, Operand.isBranch]

namespace Method

/-- **A table of the offsets of a body**: each offset once, and both sides go up. -/
structure Tabulates (m : Method) (map : List OffsetPair) : Prop where
  before : map.map (·.before) = m.sequence.map (·.2.offset)
  sorted : map.Pairwise fun p q => p.before < q.before ∧ p.after < q.after

/-- **One instruction before and after.** The old offset finds it in the body, it has its id in the
method that was encoded, and the new offset finds in the new body what stands at its place. It is
the same up to the form of a branch and to where it leads. -/
structure Relocated (m encoded m' : Method) (p : OffsetPair) (id id' : InstrId)
    (i j : Instruction) : Prop where
  before : m.findOrigin? p.before = some id
  old : m.instruction? id = some i
  moved : ∃ e, encoded.instruction? id = some e ∧ e.origin = some p.before ∧ e.offset = p.after
  place : ∃ k, encoded.position? id = some k ∧ m'.position? id' = some k
  after : m'.findOrigin? p.after = some id'
  new : m'.instruction? id' = some j
  opcode : j.opcode ∈ [i.opcode, i.opcode.shortForm, i.opcode.longForm]
  shape : (j.operand.map fun _ => ()) = i.operand.map fun _ => ()
  operand : i.isBranch = false → j.operand = i.operand

/-- **A map leads from each instruction of a body to itself** in the new body of the method that
was encoded. -/
def Relocates (m encoded m' : Method) (map : List OffsetPair) : Prop :=
  ∀ p ∈ map, ∃ id id' i j, m.Relocated encoded m' p id id' i j

/-- An instruction is led to one offset. -/
theorem Relocated.eq {m encoded m' m'' : Method} {p q : OffsetPair} {a b c d : InstrId}
    {i j k l : Instruction} (h : m.Relocated encoded m' p a b i j)
    (h' : m.Relocated encoded m'' q c d k l) (before : p.before = q.before) : p = q := by
  have same := h.before
  rw [before, h'.before, Option.some.injEq] at same
  subst same
  obtain ⟨e, he, -, noted⟩ := h.moved
  obtain ⟨e', he', -, noted'⟩ := h'.moved
  cases he.symm.trans he'
  have after : p.after = q.after := noted.symm.trans noted'
  calc p = ⟨p.before, p.after⟩ := rfl
    _ = ⟨q.before, q.after⟩ := by rw [before, after]
    _ = q := rfl

/-- **No other map** of the same offsets leads from each instruction to itself. -/
theorem Relocates.unique {m encoded m' m'' : Method} {map map' : List OffsetPair}
    (h : m.Relocates encoded m' map) (h' : m.Relocates encoded m'' map')
    (offsets : map.map (·.before) = map'.map (·.before)) : map = map' := by
  induction map generalizing map' with
  | nil => exact (List.map_eq_nil_iff.1 offsets.symm).symm
  | cons p map ih =>
    obtain ⟨q, map', rfl, before, offsets⟩ := List.map_eq_cons_iff.1 offsets.symm
    obtain ⟨_, _, _, _, hp⟩ := h p List.mem_cons_self
    obtain ⟨_, _, _, _, hq⟩ := h' q List.mem_cons_self
    rw [hp.eq hq before.symm, ih (fun p hp => h p (List.mem_cons_of_mem _ hp))
      (fun q hq => h' q (List.mem_cons_of_mem _ hq)) offsets.symm]

/-- What was decoded of a method, from its instructions in order. -/
theorem fromBody_eq (m : Method) :
    m.fromBody = (m.sequence.map (·.2.erased)).filter (·.2.2.1.isSome) := by
  unfold fromBody sequence
  rw [List.map_filterMap, List.filter_filterMap]
  refine List.filterMap_congr fun id _ => ?_
  show ((m.stock[id]?).map Instruction.erased).filter _ = _
  cases m.stock[id]? <;> rfl

/-- The offsets at which the instructions of a method stood, in order. -/
def origins (m : Method) : List Nat := m.sequence.filterMap (·.2.origin)

theorem origins_eq (m : Method) : m.origins = m.fromBody.filterMap (·.2.2.1) := by
  rw [fromBody_eq, List.filterMap_filter, List.filterMap_map]
  refine List.filterMap_congr fun e _ => ?_
  show e.2.origin = if e.2.origin.isSome = true then e.2.origin else none
  cases e.2.origin <;> rfl

/-! ## Decoded methods -/

section
variable {m : Method} {body : Bytes} (decoded : Method.decode body = .ok m)

include decoded

/-- An offset of a body finds the instruction that stood there. -/
theorem findOrigin?_of_decode {id : InstrId} {i : Instruction} (hi : m.instruction? id = some i) :
    m.findOrigin? i.offset = some id := by
  have ordered := ordered_of_range (decode_order decoded)
  refine (ordered.findOrigin?_iff fun _ _ => distinct_of_decode decoded).2 ?_
  unfold origin?
  rw [hi]
  exact offset_of_decode decoded (id, i) (ordered.mem_sequence.2 hi)

theorem origins_of_decode : m.origins = m.sequence.map (·.2.offset) := by
  rw [origins, ← List.filterMap_eq_map]
  exact List.filterMap_congr (offset_of_decode decoded)

end

/-! ## Encoded methods -/

section
variable {m : Method} {l : Layout} (lays : Lays m l)

include lays

/-- The offset map, from the rows that were written. -/
theorem offsetMap_place (ordered : m.Ordered) : (m.place l).offsetMap
    = l.rows.filterMap fun r => r.instruction.origin.map fun o => ⟨o, r.offset⟩ := by
  unfold offsetMap
  rw [sequence_place lays ordered, List.filterMap_map]
  rfl

theorem before_offsetMap (ordered : m.Ordered) :
    (m.place l).offsetMap.map (·.before) = m.origins := by
  rw [offsetMap_place lays ordered, origins, ← lays.sequence, List.map_filterMap,
    List.filterMap_map]
  refine List.filterMap_congr fun r _ => ?_
  show _ = r.instruction.origin
  rw [Option.map_map]
  exact Option.map_id' ..

theorem after_offsetMap (ordered : m.Ordered) :
    (m.place l).offsetMap.Pairwise fun p q => p.after < q.after := by
  rw [offsetMap_place lays ordered, List.pairwise_filterMap]
  refine lays.run.pairwise.imp fun {r r'} behind p hp q hq => ?_
  obtain ⟨o, -, rfl⟩ := Option.map_eq_some_iff.1 hp
  obtain ⟨o', -, rfl⟩ := Option.map_eq_some_iff.1 hq
  exact Nat.lt_of_lt_of_le r.offset_lt_next behind

end

/-! ## The map of a body with inserted code -/

theorem Grows.writable {m m₁ : Method} {P : Instruction → Prop} (h : Grows P m m₁)
    (writable : m.Writable) (kinded : m₁.Kinded) : m₁.Writable where
  ordered := h.ordered writable.ordered
  kinded := kinded
  nonNull := by
    have locals : m₁.locals = m.locals := congrArg Prod.fst h.frame
    rw [locals]
    exact writable.nonNull
  known := h.known writable.known

section
variable {m m₁ m₂ : Method} {body c : Bytes} {compact : Bool}
  (decoded : Method.decode body = .ok m) (grows : m.Grows (·.origin = none) m₁)
  (encoded : m₁.encode compact = .ok (c, m₂))

include decoded grows encoded

/-- **The offset map is a table of the offsets of the body.** -/
theorem offsetMap_tabulates : m.Tabulates m₂.offsetMap := by
  have ordered := ordered_of_range (decode_order decoded)
  have ordered₁ := grows.ordered ordered
  obtain ⟨l, -, -, hl, -, -, -, -, rfl⟩ := encode_iff.1 encoded
  have lays := lays_of_layout hl
  have before : (m₁.place l).offsetMap.map (·.before) = m.sequence.map (·.2.offset) := by
    rw [before_offsetMap lays ordered₁, origins_eq, grows.fromBody (fun _ new => new) ordered,
      ← origins_eq, origins_of_decode decoded]
  refine ⟨before, .and (List.pairwise_map.1 ?_) (after_offsetMap lays ordered₁)⟩
  rw [before]
  exact (offsets_sorted decoded).1

omit encoded in
/-- An instruction of the body that got a row leads to itself. -/
theorem relocated_row {l : Layout} (lays : Lays m₁ l)
    (decoded₃ : Method.decode c = .ok (m₁.place l).renumbered) {r : Row} (hr : r ∈ l.rows) {o : Nat}
    (ho : r.instruction.origin = some o) : ∃ id id' i j,
      m.Relocated (m₁.place l) (m₁.place l).renumbered ⟨o, r.offset⟩ id id' i j := by
  have ordered := ordered_of_range (decode_order decoded)
  have ordered₁ := grows.ordered ordered
  have entry : m₁.instruction? r.id = some r.instruction := instruction_of_row lays hr
  have placed : r.id ∈ m₁.order := ordered₁.mem_iff.2 (lt_of_instruction? entry)
  obtain ⟨mem, self⟩ := mem_order_renumbered (l := l) placed
  have found := instruction?_renumbered lays ordered₁ hr
  -- In the body the id has the same instruction, up to its targets.
  obtain ⟨i, hi, same⟩ := grows.original (fun _ new => new) ordered entry ho
  obtain ⟨opcode, operand, origin, -⟩ := Instruction.erased_eq.1 same
  have offset : i.offset = o := by
    have stood := offset_of_decode decoded (r.id, i) (ordered.mem_sequence.2 hi)
    rw [origin, ho, Option.some.injEq] at stood
    exact stood.symm
  have shape : ((r.instruction.operand.map m₁.order.idxOf).map fun _ => ())
      = i.operand.map fun _ => () := by
    rw [Operand.map_map]
    exact operand.symm
  refine ⟨r.id, m₁.order.idxOf r.id, i, (r.renumbered m₁.order.idxOf).instruction, {
    before := offset ▸ findOrigin?_of_decode decoded hi
    old := hi
    moved := ⟨r.written, place_instruction lays ordered₁ hr, ho, rfl⟩
    place := ⟨_, Locator.idxOf?_eq_some.2 ⟨placed, rfl⟩, Locator.idxOf?_eq_some.2 ⟨mem, self.symm⟩⟩
    after := findOrigin?_of_decode decoded₃ found
    new := found
    opcode := ?_
    shape := shape
    operand := Operand.eq_of_shape shape }⟩
  obtain ⟨long, form⟩ := lays.forms r hr
  show r.opcode ∈ _
  rw [form, opcode]
  exact opcodeOf_mem r.instruction _

/-- **The offset map leads from each instruction of the body to itself** in the new body. -/
theorem offsetMap_relocates (kinded : m₁.Kinded) :
    ∃ m₃, Method.decode c = .ok m₃ ∧ m.Relocates m₂ m₃ m₂.offsetMap := by
  have writable := grows.writable (writable_of_decode decoded) kinded
  obtain ⟨decoded₃, -⟩ := decode_again writable encoded
  refine ⟨m₂.renumbered, decoded₃, fun p hp => ?_⟩
  obtain ⟨l, -, -, hl, -, -, -, -, rfl⟩ := encode_iff.1 encoded
  have lays := lays_of_layout hl
  rw [offsetMap_place lays writable.ordered] at hp
  obtain ⟨r, hr, hp⟩ := List.mem_filterMap.1 hp
  obtain ⟨o, ho, rfl⟩ := Option.map_eq_some_iff.1 hp
  exact relocated_row decoded grows lays decoded₃ hr ho

end

end Method

end CilProbes
