import CilProbes.Method.Decode
import CilProbes.Method.Splice
import CilProbes.Proofs.Outcome
import Mathlib.Data.List.Basic

/-!
# Methods built by edits

`Built m`: `m` comes from an empty method, a listed one or a body by any sequence of pushes,
insertions and edits in place. Code may go in anywhere, so the order is not that of the stock; but
it still names each instruction of the stock exactly once (`Ordered`, `Built.ordered`), and the rest
of the development knows of the order only that.

* `insert_cases`: what an insertion does to a method.
* `Ordered.sequence_eq`: the instructions in order, each from the stock.
* `sequence_of_range`: in a method numbered in order they are the stock.
-/

namespace CilProbes.Method

/-- The order names every instruction of the stock exactly once. -/
def Ordered (m : Method) : Prop := m.order.Perm (List.range m.stock.size)

/-- **A method that comes about by edits.** An edit in place may change any instruction, the header
fields and the handlers. -/
inductive Built : Method → Prop
  | empty : Built .empty
  | ofInstructions (code : List Instruction) (locals : Option Token) (minStack : UInt16) :
      Built (.ofInstructions code locals minStack)
  | decoded {body : Bytes} {m : Method} : Method.decode body = .ok m → Built m
  | push {m : Method} (i : Instruction) : Built m → Built (m.push i)
  | insert {m m' : Method} {anchor : InstrId} {code : List Instruction} {side : Side}
      {ids : List InstrId} : Built m → m.insert anchor code side = .ok (ids, m') → Built m'
  | inPlace {m m' : Method} : Built m → m'.order = m.order → m'.stock.size = m.stock.size → Built m'

variable {m m' : Method}

theorem Ordered.mem_iff (h : m.Ordered) {id : InstrId} : id ∈ m.order ↔ id < m.stock.size :=
  (List.Perm.mem_iff h).trans List.mem_range

theorem Ordered.nodup (h : m.Ordered) : m.order.Nodup := (List.Perm.nodup_iff h).2 List.nodup_range

theorem ordered_of_range (h : m.order = List.range m.stock.size) : m.Ordered :=
  .of_eq h

/-! ## Edits keep the order -/

theorem Ordered.push (h : m.Ordered) (i : Instruction) : (m.push i).Ordered := by
  unfold Ordered Method.push
  rw [Array.size_push, List.range_succ]
  exact List.Perm.append_right _ h

theorem Ordered.splice (h : m.Ordered) (place : Nat) (code : List Instruction) :
    (m.splice place code).Ordered := by
  have fresh : List.range (m.stock.size + code.length)
      = List.range m.stock.size ++ m.freshIds code.length := by
    rw [List.range_add, freshIds, nextId, List.range'_eq_map_range]
  have moved : (m.order.take place ++ (m.freshIds code.length ++ m.order.drop place)).Perm
      ((m.order.take place ++ m.order.drop place) ++ m.freshIds code.length) := by
    rw [List.append_assoc]
    exact List.perm_append_comm.append_left _
  rw [List.take_append_drop] at moved
  unfold Ordered Method.splice
  simp only [Array.size_append, List.size_toArray]
  rw [fresh, List.append_assoc]
  exact moved.trans (List.Perm.append_right _ h)

/-- The method with code on one side of the instruction at a place. -/
def insertAt (m : Method) (anchor : InstrId) (place : Nat) (code : List Instruction) : Side → Method
  | .before => (m.redirect anchor m.nextId).splice place code
  | .after => m.splice (place + 1) code

/-- **What an insertion does**: nothing without code, otherwise it splices the code in. -/
theorem insert_cases {anchor : InstrId} {code : List Instruction} {side : Side}
    {ids : List InstrId} (hi : m.insert anchor code side = .ok (ids, m')) :
    (code = [] ∧ ids = [] ∧ m' = m) ∨
    code ≠ [] ∧ ids = m.freshIds code.length ∧ ∃ place, m.position? anchor = some place ∧
      m' = m.insertAt anchor place code side := by
  unfold Method.insert at hi
  cases hp : m.position? anchor with
  | none => simp [hp] at hi
  | some place =>
    simp only [hp] at hi
    split at hi
    · cases hi
      exact .inl ⟨List.isEmpty_iff.1 ‹_›, rfl, rfl⟩
    · cases hi
      refine .inr ⟨fun e => ‹¬_› (List.isEmpty_iff.2 e), rfl, place, rfl, ?_⟩
      cases side <;> rfl

theorem Ordered.insert (h : m.Ordered) {anchor : InstrId} {code : List Instruction} {side : Side}
    {ids : List InstrId} (hi : m.insert anchor code side = .ok (ids, m')) : m'.Ordered := by
  rcases insert_cases hi with ⟨-, -, rfl⟩ | ⟨-, -, place, -, rfl⟩
  · exact h
  · cases side with
    | before =>
      refine Ordered.splice (m := m.redirect anchor m.nextId) ?_ place code
      unfold Ordered redirect
      rwa [Array.size_map]
    | after => exact h.splice (place + 1) code

theorem decode_order {body : Bytes} (h : Method.decode body = .ok m) :
    m.order = List.range m.stock.size := by
  unfold Method.decode at h
  obtain ⟨header, -, h⟩ := bind_ok.1 h
  simp only at h
  split at h
  · obtain ⟨_, h, -⟩ := bind_ok.1 h
    cases h
  · obtain ⟨placed, -, h⟩ := bind_ok.1 h
    obtain ⟨code, -, h⟩ := bind_ok.1 h
    obtain ⟨clauses, -, h⟩ := bind_ok.1 h
    obtain ⟨handlers, -, h⟩ := bind_ok.1 h
    cases h
    rfl

/-- **The order of a built method names every instruction exactly once.** -/
theorem Built.ordered (h : m.Built) : m.Ordered := by
  induction h with
  | empty => exact .nil
  | ofInstructions code locals minStack => exact ordered_of_range (by simp [Method.ofInstructions])
  | decoded hd => exact ordered_of_range (decode_order hd)
  | push i _ ih => exact ih.push i
  | insert _ hi ih => exact ih.insert hi
  | inPlace _ ho hs ih => rwa [Ordered, ho, hs]

/-! ## Instructions in order -/

/-- The instructions in order, each from the stock. -/
theorem Ordered.sequence_eq (h : m.Ordered) :
    m.sequence = m.order.map fun id => (id, m.stock[id]!) := by
  have inside : ∀ id ∈ m.order, id < m.stock.size := fun _ => h.mem_iff.1
  unfold Method.sequence
  generalize m.order = order at inside
  induction order with
  | nil => rfl
  | cons id ids ih =>
    obtain ⟨hid, hids⟩ := List.forall_mem_cons.1 inside
    rw [List.map_cons, ← ih hids]
    simp [hid]

theorem Ordered.mem_sequence (h : m.Ordered) {id : InstrId} {i : Instruction} :
    (id, i) ∈ m.sequence ↔ m.instruction? id = some i := by
  unfold Method.sequence Method.instruction?
  rw [List.mem_filterMap]
  constructor
  · rintro ⟨_, -, e⟩
    obtain ⟨_, hi, e⟩ := Option.map_eq_some_iff.1 e
    cases e
    exact hi
  · intro hi
    refine ⟨id, h.mem_iff.2 (Array.getElem?_eq_some_iff.1 hi).1, ?_⟩
    rw [hi]
    rfl

theorem Ordered.sequence_ids (h : m.Ordered) : m.sequence.map Prod.fst = m.order := by
  rw [h.sequence_eq, List.map_map]
  exact List.map_id _

/-- In a method numbered in order, the instructions are the stock. -/
theorem sequence_of_range (h : m.order = List.range m.stock.size) :
    m.sequence.map Prod.snd = m.stock.toList := by
  rw [(ordered_of_range h).sequence_eq, h, List.map_map]
  refine List.ext_getElem (by simp) fun k hk _ => ?_
  have : k < m.stock.size := by simpa using hk
  simp [this]

end CilProbes.Method
