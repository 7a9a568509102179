import CilProbes.Method.Encode
import CilProbes.Proofs.Reading.Body
import CilProbes.Proofs.Writing.Layout

/-!
# Writing code

The code of a layout is a row of instructions as `Reading/Body.lean` asks for, if every instruction
has an operand of its kind: `Lays.tiled`. Every displacement in it leads to an instruction
(`Lays.targets`), and `placeOf` finds the instruction again (`Lays.placeOf_row`).
-/

namespace CilProbes

/-- An instruction with an operand of the kind that the table asks for. -/
def Instruction.HasKind (i : Instruction) : Prop :=
  ∃ info, i.opcode.info? = some info ∧ i.operand.HasKind info.operand

/-- Every instruction of a method has an operand of its kind. -/
def Method.Kinded (m : Method) : Prop := ∀ p ∈ m.sequence, p.2.HasKind

namespace Layout

/-- The offset of an instruction. -/
def offset (l : Layout) (id : InstrId) : Nat := (l.offsetOf? id).getD 0

/-- A row as the body holds it. -/
def codedOf (l : Layout) (r : Row) : Coded :=
  ⟨r.opcode, r.instruction.operand.map fun t => (l.offset t : Int) - (r.next : Int)⟩

/-- A row and where it stands. -/
def placed (l : Layout) (r : Row) : Placed := ⟨r.offset, r.next, l.codedOf r⟩

/-- The targets of a row have places that its displacements reach. -/
def Reaches (l : Layout) (r : Row) : Prop :=
  ∀ t ∈ r.instruction.operand.targets,
    (l.offsetOf? t).isSome ∧ Displacement.Fits r.isShort ((l.offset t : Int) - (r.next : Int))

theorem reaches_iff (short : Bool) (d : Int) :
    (if short then Relax.reachesShort d else Relax.reachesLong d : Bool) = true ↔
      Displacement.Fits short d := by
  cases short <;> simp [Displacement.Fits, Relax.reachesShort, Relax.reachesLong]

theorem displacement_computes (l : Layout) (next : Nat) (short : Bool) :
    Computes (l.displacement next short)
      (fun t => (l.offsetOf? t).isSome ∧ Displacement.Fits short ((l.offset t : Int) - (next : Int)))
      (fun t => (l.offset t : Int) - (next : Int)) := by
  intro t d
  show l.displacement next short t = .ok d ↔ ((l.offsetOf? t).isSome ∧
    Displacement.Fits short ((l.offset t : Int) - (next : Int))) ∧
    d = (l.offset t : Int) - (next : Int)
  unfold displacement offset
  cases l.offsetOf? t with
  | none => simp
  | some o =>
    simp only [Option.isSome_some, Option.getD_some, true_and]
    by_cases fits : Displacement.Fits short ((o : Int) - (next : Int))
    · rw [if_pos ((reaches_iff ..).2 fits)]
      exact ⟨fun e => ⟨fits, by cases e; rfl⟩, fun h => by rw [h.2]⟩
    · rw [if_neg fun h => fits ((reaches_iff ..).1 h)]
      exact ⟨nofun, fun h => absurd h.1 fits⟩

theorem coded_computes (l : Layout) : Computes l.coded l.Reaches l.codedOf := by
  intro r c
  unfold coded
  rw [map_ok]
  have operand := (displacement_computes l r.next r.isShort).operand
  constructor
  · rintro ⟨o, ho, rfl⟩
    obtain ⟨reaches, rfl⟩ := (operand _ _).1 ho
    exact ⟨reaches, rfl⟩
  · rintro ⟨reaches, rfl⟩
    exact ⟨_, operand.of_eq reaches, rfl⟩

/-- The code is there if and only if every displacement reaches. -/
theorem code_iff (l : Layout) (code : Bytes) : l.code = .ok code ↔
    (∀ r ∈ l.rows, l.Reaches r) ∧ code = l.rows.flatMap fun r => (l.codedOf r).bytes := by
  unfold Layout.code
  rw [map_ok]
  have rows := (coded_computes l).mapM
  constructor
  · rintro ⟨cs, hc, rfl⟩
    obtain ⟨reaches, rfl⟩ := (rows _ _).1 hc
    exact ⟨reaches, List.flatMap_map ..⟩
  · rintro ⟨reaches, rfl⟩
    exact ⟨_, rows.of_eq reaches, (List.flatMap_map ..).symm⟩

/-! ## The row of instructions -/

/-- Choosing a form keeps the operand of its kind. -/
theorem hasKind_form {i : Instruction} (h : i.HasKind) (places : Locator) (long : Bool) :
    ∃ info, (opcodeOf i ⟨pieceOf places i, long⟩).info? = some info ∧
      i.operand.HasKind info.operand := by
  by_cases hb : (∃ t, i.operand = .target t) ∧ (i.opcode.isShortBranch || i.opcode.isLongBranch) = true
  · obtain ⟨⟨t, ho⟩, hb⟩ := hb
    obtain ⟨⟨-, -, short⟩, -, -, -, wide⟩ := OpCode.forms_of_branch hb
    rw [ho]
    cases long with
    | false =>
      obtain ⟨info, hi, hk⟩ := Option.map_eq_some_iff.1 short
      refine ⟨info, ?_, by rw [hk]; trivial⟩
      simpa [opcodeOf, pieceOf, ho, hb] using hi
    | true =>
      obtain ⟨info, hi, hk⟩ := Option.map_eq_some_iff.1 wide
      refine ⟨info, ?_, by rw [hk]; trivial⟩
      simpa [opcodeOf, pieceOf, ho, hb] using hi
  · have same : opcodeOf i ⟨pieceOf places i, long⟩ = i.opcode := by
      cases ho : i.operand with
      | target t =>
        have : (i.opcode.isShortBranch || i.opcode.isLongBranch) = false := by
          simpa [ho] using hb
        simp [opcodeOf, pieceOf, ho, this]
      | _ => simp [opcodeOf, pieceOf, ho]
    rw [same]
    exact h

/-- The targets of a row can be counted in 32 bits: each takes room in the code. -/
theorem length_targets {r : Row} (limit : r.next ≤ Relax.codeLimit) :
    r.instruction.operand.targets.length < UInt32.size := by
  have len : r.instruction.operand.targets.length ≤ r.instruction.sizeWith r.opcode := by
    unfold Instruction.sizeWith
    cases r.instruction.operand with
    | target t => cases r.opcode.isShortBranch <;> simp [Operand.targets, Operand.size]
    | switch ts =>
      simp only [Operand.targets, Operand.size]
      omega
    | _ => exact Nat.zero_le _
  simp only [Row.next, Relax.codeLimit, UInt32.size] at *
  omega

/-- A row whose displacements reach is an instruction that a body can hold. -/
theorem wellFormed_codedOf {l : Layout} {r : Row} {info : OpCodeInfo}
    (hi : r.opcode.info? = some info) (hk : r.instruction.operand.HasKind info.operand)
    (reaches : l.Reaches r) (limit : r.next ≤ Relax.codeLimit) : (l.codedOf r).WellFormed := by
  refine ⟨info, hi, Operand.hasKind_map.2 hk, ?_, ?_⟩
  · rw [codedOf, Operand.targets_map, List.length_map]
    exact length_targets limit
  · intro d hd
    rw [codedOf, Operand.targets_map] at hd
    obtain ⟨t, ht, rfl⟩ := List.mem_map.1 hd
    have fits := (reaches t ht).2
    have short : r.isShort = r.opcode.isShortBranch := by
      unfold Row.isShort
      cases ho : r.instruction.operand with
      | target => simp
      | switch ts =>
        rw [ho] at hk
        have := (OpCode.info_branch hi).1
        cases hinfo : info.operand <;> simp [hinfo, Operand.HasKind] at hk this ⊢
        rw [← this]
        rfl
      | _ => simp [ho, Operand.targets] at ht
    rwa [short] at fits

theorem Run.next_le {p stop : Nat} {rs : List Row} (h : Run p rs stop) :
    p ≤ stop ∧ ∀ r ∈ rs, r.next ≤ stop := by
  induction h with
  | nil p => exact ⟨Nat.le_refl p, fun _ h => by cases h⟩
  | @cons p stop r rs hp _ ih =>
    refine ⟨?_, List.forall_mem_cons.2 ⟨ih.1, ih.2⟩⟩
    have := ih.1
    simp only [Row.next] at this
    omega

/-- Rows that stand one behind the other are, byte by byte, a row of instructions. -/
theorem Run.tiled {l : Layout} {p stop : Nat} {rs : List Row} (run : Run p rs stop)
    (wellFormed : ∀ r ∈ rs, (l.codedOf r).WellFormed) :
    Reader.Tiled Placed.Stands p (rs.flatMap fun r => (l.codedOf r).bytes) (rs.map l.placed) := by
  induction run with
  | nil p => exact .nil p
  | @cons p stop r rs hp _ ih =>
    obtain ⟨hr, hrs⟩ := List.forall_mem_cons.1 wellFormed
    have next : r.next = p + (l.codedOf r).bytes.length := by
      rw [Coded.length_bytes, codedOf, Operand.size_map, Row.next, hp]
      rfl
    rw [List.flatMap_cons, List.map_cons]
    refine .cons ⟨hp, next, hr, rfl⟩ ?_
    rw [← next]
    exact ih hrs

theorem Run.length {l : Layout} {p stop : Nat} {rs : List Row} (run : Run p rs stop) :
    p + (rs.flatMap fun r => (l.codedOf r).bytes).length = stop := by
  induction run with
  | nil p => rfl
  | @cons p stop r rs hp _ ih =>
    rw [List.flatMap_cons, List.length_append, ← Nat.add_assoc, Coded.length_bytes]
    rw [Row.next, hp] at ih
    simp only [codedOf, Operand.size_map] at ih ⊢
    exact ih

theorem starts_placed (l : Layout) : starts (l.rows.map l.placed) = l.rows.map (·.offset) := by
  unfold starts
  rw [List.map_map]
  rfl

section
variable {m : Method} {l : Layout} (lays : Lays m l) (ordered : m.Ordered)

include lays

/-- Every instruction of the code is one that a body can hold. -/
theorem Lays.wellFormed (kinded : m.Kinded) (reaches : ∀ r ∈ l.rows, l.Reaches r) :
    ∀ r ∈ l.rows, (l.codedOf r).WellFormed := by
  intro r hr
  obtain ⟨long, form⟩ := lays.forms r hr
  obtain ⟨info, hi, hk⟩ := hasKind_form (kinded _ (lays.mem_sequence hr)) m.places long
  rw [← form] at hi
  exact wellFormed_codedOf hi hk (reaches r hr)
    (Nat.le_trans (lays.run.next_le.2 r hr) lays.limit)

/-- The code is a row of instructions, as long as the layout says. -/
theorem Lays.tiled (kinded : m.Kinded) (reaches : ∀ r ∈ l.rows, l.Reaches r) :
    Reader.Tiled Placed.Stands 0 (l.rows.flatMap fun r => (l.codedOf r).bytes)
      (l.rows.map l.placed) :=
  lays.run.tiled (lays.wellFormed kinded reaches)

theorem Lays.length_code : (l.rows.flatMap fun r => (l.codedOf r).bytes).length = l.codeSize := by
  have := lays.run.length (l := l)
  rwa [Nat.zero_add] at this

include ordered

/-- The offset of an instruction is a start, at the place that the instruction has in the order. -/
theorem Lays.placeOf_offset (nodup : (starts (l.rows.map l.placed)).Nodup) {id : InstrId} {o : Nat}
    (h : l.offsetOf? id = some o) : o ∈ starts (l.rows.map l.placed) ∧
      placeOf (l.rows.map l.placed) o = m.order.idxOf id := by
  have mem : id ∈ m.order := by
    obtain ⟨place, found, -⟩ := Option.bind_eq_some_iff.1 h
    exact ((lays.find?_iff ordered).1 found).1
  obtain ⟨k, r, hk, rfl⟩ := lays.exists_row ordered mem
  obtain ⟨offset, place⟩ := lays.offsetOf?_row ordered hk
  rw [offset, Option.some.injEq] at h
  subst h
  unfold placeOf
  rw [starts_placed] at nodup ⊢
  have at_k : (l.rows.map (·.offset))[k]? = some r.offset := by
    rw [List.getElem?_map, hk]
    rfl
  refine ⟨List.mem_of_getElem? at_k, ?_⟩
  obtain ⟨lt, e⟩ := List.getElem?_eq_some_iff.1 at_k
  rw [place, ← e]
  exact nodup.idxOf_getElem k lt

/-- Every displacement of the code leads to an instruction. -/
theorem Lays.targets (nodup : (starts (l.rows.map l.placed)).Nodup)
    (reaches : ∀ r ∈ l.rows, l.Reaches r) :
    ∀ q ∈ l.rows.map l.placed, ∀ disp ∈ q.coded.operand.targets,
      ∃ start ∈ starts (l.rows.map l.placed), (start : Int) = q.next + disp := by
  intro q hq disp hd
  obtain ⟨r, hr, rfl⟩ := List.mem_map.1 hq
  rw [show (l.placed r).coded = l.codedOf r from rfl, codedOf, Operand.targets_map] at hd
  obtain ⟨t, ht, rfl⟩ := List.mem_map.1 hd
  obtain ⟨o, ho⟩ := Option.isSome_iff_exists.1 (reaches r hr t ht).1
  refine ⟨o, (lays.placeOf_offset ordered nodup ho).1, ?_⟩
  have : l.offset t = o := by rw [offset, ho]; rfl
  rw [this]
  show (o : Int) = (r.next : Int) + ((o : Int) - (r.next : Int))
  omega

/-- A row of the code is decoded into its instruction, with the targets by their places. -/
theorem Lays.linked_placed (nodup : (starts (l.rows.map l.placed)).Nodup) {r : Row}
    (reaches : l.Reaches r) : (l.placed r).linked (l.rows.map l.placed)
      = ⟨r.opcode, r.instruction.operand.map m.order.idxOf, some r.offset, r.offset⟩ := by
  have back : ∀ t ∈ r.instruction.operand.targets,
      placeOf (l.rows.map l.placed) ((r.next : Int) + ((l.offset t : Int) - (r.next : Int))).toNat
        = m.order.idxOf t := by
    intro t ht
    obtain ⟨o, ho⟩ := Option.isSome_iff_exists.1 (reaches t ht).1
    have offset : l.offset t = o := by rw [offset, ho]; rfl
    rw [offset, ← (lays.placeOf_offset ordered nodup ho).2]
    congr 1
    omega
  show (⟨r.opcode, (r.instruction.operand.map _).map _, some r.offset, r.offset⟩ : Instruction) = _
  rw [Operand.map_map]
  exact congrArg (fun o => (⟨r.opcode, o, some r.offset, r.offset⟩ : Instruction))
    (Operand.map_congr back)

end

/-! ## Writing back -/

/-- The instruction of a row with the opcode and the offset that were written. -/
def Row.written (r : Row) : Instruction :=
  { r.instruction with opcode := r.opcode, offset := r.offset }

/-- Writes the opcode and the offset of a row into a stock. -/
def writeBack (stock : Array Instruction) (r : Row) : Array Instruction :=
  stock.modify r.id fun i => { i with opcode := r.opcode, offset := r.offset }

theorem getElem?_writeBack_of_ne {rs : List Row} {stock : Array Instruction} {id : InstrId}
    (h : ∀ r ∈ rs, r.id ≠ id) : (rs.foldl writeBack stock)[id]? = stock[id]? := by
  induction rs generalizing stock with
  | nil => rfl
  | cons r rs ih =>
    obtain ⟨hr, hrs⟩ := List.forall_mem_cons.1 h
    rw [List.foldl_cons, ih hrs, writeBack, Array.getElem?_modify, if_neg hr]

/-- The entry of a row changes once. -/
theorem getElem?_writeBack {rs : List Row} (nodup : (rs.map (·.id)).Nodup) {r : Row} (hr : r ∈ rs)
    (stock : Array Instruction) : (rs.foldl writeBack stock)[r.id]?
      = (stock[r.id]?).map fun i => { i with opcode := r.opcode, offset := r.offset } := by
  induction rs generalizing stock with
  | nil => cases hr
  | cons r' rs ih =>
    obtain ⟨hr', hrs⟩ := List.nodup_cons.1 nodup
    have other : ∀ r ∈ rs, r.id ≠ r'.id := fun r hr e => hr' (List.mem_map.2 ⟨r, hr, e⟩)
    rw [List.foldl_cons]
    rcases List.mem_cons.1 hr with rfl | hr
    · rw [getElem?_writeBack_of_ne other, writeBack, Array.getElem?_modify, if_pos rfl]
    · rw [ih hrs hr, writeBack, Array.getElem?_modify, if_neg (other r hr).symm]

theorem size_writeBack (rs : List Row) (stock : Array Instruction) :
    (rs.foldl writeBack stock).size = stock.size := by
  induction rs generalizing stock with
  | nil => rfl
  | cons r rs ih => rw [List.foldl_cons, ih, writeBack, Array.size_modify]

end Layout

namespace Method

open Layout

variable {m : Method} {l : Layout}

theorem Ordered.place (h : m.Ordered) (l : Layout) : (m.place l).Ordered := by
  show m.order.Perm (List.range (l.rows.foldl writeBack m.stock).size)
  rw [size_writeBack]
  exact h

theorem instruction_of_row (lays : Lays m l) {r : Row} (hr : r ∈ l.rows) :
    m.stock[r.id]? = some r.instruction := by
  obtain ⟨id, -, h⟩ := List.mem_filterMap.1 (lays.mem_sequence hr)
  obtain ⟨i, hi, e⟩ := Option.map_eq_some_iff.1 h
  cases e
  exact hi

theorem place_instruction (lays : Lays m l) (ordered : m.Ordered) {r : Row} (hr : r ∈ l.rows) :
    (m.place l).stock[r.id]? = some r.written := by
  have nodup : (l.rows.map (·.id)).Nodup := by
    rw [lays.ids ordered]
    exact ordered.nodup
  show (l.rows.foldl writeBack m.stock)[r.id]? = _
  rw [getElem?_writeBack nodup hr, instruction_of_row lays hr]
  rfl

/-- **The instructions of an encoded method** are those of the rows, with the opcodes and offsets
that were written. -/
theorem sequence_place (lays : Lays m l) (ordered : m.Ordered) :
    (m.place l).sequence = l.rows.map fun r => (r.id, r.written) := by
  unfold Method.sequence
  rw [show (m.place l).order = l.rows.map (·.id) from (lays.ids ordered).symm, List.filterMap_map,
    ← List.filterMap_eq_map]
  refine List.filterMap_congr fun r hr => ?_
  simp only [Function.comp_apply, place_instruction lays ordered hr, Option.map_some]

/-- What writing back leaves in each row it leaves in the method. -/
theorem map_place {α : Type} {f : Instruction → α} (lays : Lays m l) (ordered : m.Ordered)
    (same : ∀ r ∈ l.rows, f r.written = f r.instruction) :
    (m.place l).stock.map f = m.stock.map f := by
  refine Array.ext_getElem? fun id => ?_
  rw [Array.getElem?_map, Array.getElem?_map]
  by_cases mem : id ∈ m.order
  · obtain ⟨k, r, hk, rfl⟩ := lays.exists_row ordered mem
    have hr := List.mem_of_getElem? hk
    rw [place_instruction lays ordered hr, instruction_of_row lays hr, Option.map_some,
      Option.map_some, same r hr]
  · have outside : m.stock.size ≤ id := Nat.not_lt.1 (mt ordered.mem_iff.2 mem)
    rw [Array.getElem?_eq_none outside, Array.getElem?_eq_none]
    show (l.rows.foldl writeBack m.stock).size ≤ id
    rwa [size_writeBack]

/-- A method that stands as a layout writes it does not change. -/
theorem place_self (lays : Lays m l) (ordered : m.Ordered)
    (same : ∀ r ∈ l.rows, r.written = r.instruction) : m.place l = m := by
  have stock := map_place (f := id) lays ordered same
  rw [Array.map_id, Array.map_id] at stock
  exact congrArg (fun stock => { m with stock := stock }) stock

end Method

end CilProbes
