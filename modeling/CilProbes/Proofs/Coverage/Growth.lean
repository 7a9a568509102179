import CilProbes.Proofs.Coverage.Extension
import CilProbes.Proofs.Method.Regions

/-!
# Methods grown by insertions

Coverage goes into a method by three kinds of edits: code is inserted, a branch is led to inserted
code, and the stack is declared deeper. `Method.Grows P` says that one method comes from another by
any number of them, with inserted code of which each instruction has `P`.

* `Grows.kinded`, `Grows.frame`: what decides whether the method can be read back stays.
* `Grows.instruction`: each instruction keeps its id, and later ids are those of inserted code.
* `Grows.fromBody`: what was decoded stays in order, if the inserted code is in no body.
-/

namespace CilProbes.Method

/-- **A method that comes from another by edits that insert code**, each instruction with `P`. -/
inductive Grows (P : Instruction → Prop) (m : Method) : Method → Prop
  | refl : Grows P m m
  | insert {m₁ m₂ : Method} {a : InstrId} {code : List Instruction} {side : Side}
      {ids : List InstrId} : Grows P m m₁ → (∀ i ∈ code, P i) →
      m₁.insert a code side = .ok (ids, m₂) → Grows P m m₂
  /-- A branch leads elsewhere. -/
  | lead {m₁ : Method} {a : InstrId} {i j : Instruction} : Grows P m m₁ →
      m₁.instruction? a = some i → j.erased = i.erased → Grows P m (m₁.setInstruction a j)
  | deepen {m₁ : Method} (depth : UInt16) : Grows P m m₁ → Grows P m (m₁.increaseMaxStack depth)

variable {P Q : Instruction → Prop} {m m' m₁ m₂ : Method} {a : InstrId} {code : List Instruction}
  {side : Side} {ids : List InstrId}

theorem Grows.trans (h : Grows P m m₁) (h' : Grows P m₁ m₂) : Grows P m m₂ := by
  induction h' with
  | refl => exact h
  | insert _ new hi ih => exact .insert ih new hi
  | lead _ hi same ih => exact .lead ih hi same
  | deepen depth _ ih => exact .deepen depth ih

theorem Grows.mono (h : Grows P m m') (imp : ∀ i, P i → Q i) : Grows Q m m' := by
  induction h with
  | refl => exact .refl
  | insert _ new hi ih => exact .insert ih (fun i hm => imp i (new i hm)) hi
  | lead _ hi same ih => exact .lead ih hi same
  | deepen depth _ ih => exact .deepen depth ih

theorem size_setInstruction (i : Instruction) :
    (m.setInstruction a i).stock.size = m.stock.size := Array.size_setIfInBounds

theorem Ordered.setInstruction (h : m.Ordered) (i : Instruction) :
    (m.setInstruction a i).Ordered := by
  unfold Ordered
  rw [size_setInstruction]
  exact h

theorem Grows.ordered (h : Grows P m m') (ordered : m.Ordered) : m'.Ordered := by
  induction h with
  | refl => exact ordered
  | insert _ _ hi ih => exact ih.insert hi
  | lead _ _ _ ih => exact ih.setInstruction _
  | deepen _ _ ih => exact ih

theorem Grows.built (h : Grows P m m') (built : m.Built) : m'.Built := by
  induction h with
  | refl => exact built
  | insert _ _ hi ih => exact .insert ih hi
  | lead _ _ _ ih => exact .inPlace ih rfl (size_setInstruction _)
  | deepen _ _ ih => exact .inPlace ih rfl rfl

/-! ## One insertion -/

/-- Without code nothing is inserted. -/
theorem insert_nil (hi : m.insert a [] side = .ok (ids, m')) : m' = m := by
  rcases insert_cases hi with ⟨-, -, e⟩ | ⟨ne, -⟩
  · exact e
  · exact absurd rfl ne

/-- What stands in a method after an insertion: its instructions up to targets, and the code. -/
theorem insert_instruction (ordered : m.Ordered) (hi : m.insert a code side = .ok (ids, m')) :
    (∀ x < m.nextId, (m'.instruction? x).map Instruction.erased
      = (m.instruction? x).map Instruction.erased) ∧
    ∀ x i, m.nextId ≤ x → m'.instruction? x = some i → i ∈ code := by
  by_cases ne : code = []
  · subst ne
    rw [insert_nil hi]
    exact ⟨fun _ _ => rfl, fun x i hx hi => absurd (lt_of_instruction? hi) (Nat.not_lt.2 hx)⟩
  · obtain ⟨size, fresh⟩ := insert_fresh ordered ne hi
    refine ⟨fun x hx => ?_, fun x i hx hi' => ?_⟩
    · cases side with
      | before =>
        rw [(insert_before ordered ne hi).instruction x hx, Option.map_map]
        congr 1
        funext i
        exact erased_mapTargets i _
      | after => rw [(insert_after ordered ne hi).instruction x hx]
    · have mem : x ∈ m.freshIds code.length :=
        mem_freshIds.2 ⟨hx, size ▸ lt_of_instruction? hi'⟩
      have := List.mem_map_of_mem (f := m'.instruction?) mem
      rw [fresh, hi'] at this
      obtain ⟨j, hj, e⟩ := List.mem_map.1 this
      cases e
      exact hj

/-- The header of a method and the flags of its handlers. -/
def frame (m : Method) : Option Token × Bool × List ClauseFlags :=
  (m.locals, m.zeroLocals, m.handlers.map (·.flags))

theorem insert_frame (hi : m.insert a code side = .ok (ids, m')) : m'.frame = m.frame := by
  rcases insert_cases hi with ⟨-, -, rfl⟩ | ⟨-, -, place, -, rfl⟩
  · rfl
  · cases side with
    | before =>
      show (_, _, List.map _ (List.map _ _)) = _
      rw [List.map_map]
      rfl
    | after => rfl

/-- Edits that insert code keep the frame of the method. -/
theorem Grows.frame (h : Grows P m m') : m'.frame = m.frame := by
  induction h with
  | refl => rfl
  | insert _ _ hi ih => rw [insert_frame hi, ih]
  | lead _ _ _ ih => exact ih
  | deepen _ _ ih => exact ih

theorem Grows.known (h : Grows P m m') (known : ∀ h ∈ m.handlers, h.flags.masked = h.flags) :
    ∀ h ∈ m'.handlers, h.flags.masked = h.flags := by
  have flags : m'.handlers.map (·.flags) = m.handlers.map (·.flags) :=
    congrArg (fun f => f.2.2) h.frame
  intro handler hh
  obtain ⟨old, ho, same⟩ := List.mem_map.1 (flags ▸ List.mem_map_of_mem hh)
  rw [← same]
  exact known old ho

/-! ## The ids of the instructions -/

/-- An insertion frees no id. -/
theorem nextId_le_insert (ordered : m.Ordered) (hi : m.insert a code side = .ok (ids, m')) :
    m.nextId ≤ m'.nextId := by
  by_cases ne : code = []
  · subst ne
    rw [insert_nil hi]
  · rw [(insert_fresh ordered ne hi).1]
    exact Nat.le_add_right ..

/-- **Edits that insert code leave each instruction at its id**, up to its targets, and what has a
later id is inserted code. -/
theorem Grows.instruction (h : Grows P m m') (ordered : m.Ordered) :
    m.nextId ≤ m'.nextId ∧
    (∀ x < m.nextId, (m'.instruction? x).map Instruction.erased
      = (m.instruction? x).map Instruction.erased) ∧
    ∀ x i, m.nextId ≤ x → m'.instruction? x = some i → ∃ j, P j ∧ i.erased = j.erased := by
  induction h with
  | refl =>
    refine ⟨Nat.le_refl _, fun _ _ => rfl, fun x i hx hi => ?_⟩
    exact absurd (lt_of_instruction? hi) (Nat.not_lt.2 hx)
  | @insert m₁ m₂ a code side ids h new hi ih =>
    obtain ⟨grown, kept, inserted⟩ := ih
    obtain ⟨old, fresh⟩ := insert_instruction (h.ordered ordered) hi
    refine ⟨Nat.le_trans grown (nextId_le_insert (h.ordered ordered) hi), fun x hx => ?_,
      fun x i hx hi => ?_⟩
    · rw [old x (Nat.lt_of_lt_of_le hx grown), kept x hx]
    · rcases Nat.lt_or_ge x m₁.nextId with lt | ge
      · obtain ⟨j, hj, same⟩ := exists_of_erased (old x lt) hi
        obtain ⟨k, hk, alike⟩ := inserted x j hx hj
        exact ⟨k, hk, same.symm.trans alike⟩
      · exact ⟨i, new i (fresh x i ge hi), rfl⟩
  | @lead m₁ a i j h hi same ih =>
    obtain ⟨grown, kept, inserted⟩ := ih
    refine ⟨?_, fun x hx => ?_, fun x k hx hk => ?_⟩
    · unfold nextId
      rw [size_setInstruction]
      exact grown
    · rw [erased_setInstruction hi same, kept x hx]
    · obtain ⟨l, hl, kept⟩ := exists_of_erased (erased_setInstruction hi same x) hk
      obtain ⟨o, ho, alike⟩ := inserted x l hx hl
      exact ⟨o, ho, kept.symm.trans alike⟩
  | deepen _ _ ih => exact ih

/-- **An instruction that stood in a body** is in the method of that body, with the same id. -/
theorem Grows.original (h : Grows P m m') (new : ∀ i, P i → i.origin = none) (ordered : m.Ordered)
    {x : InstrId} {j : Instruction} {o : Nat} (hj : m'.instruction? x = some j)
    (ho : j.origin = some o) : ∃ i, m.instruction? x = some i ∧ i.erased = j.erased := by
  obtain ⟨-, kept, inserted⟩ := h.instruction ordered
  rcases Nat.lt_or_ge x m.nextId with lt | ge
  · exact exists_of_erased (kept x lt) hj
  · obtain ⟨k, hk, same⟩ := inserted x j ge hj
    obtain ⟨-, -, origin, -⟩ := Instruction.erased_eq.1 same
    rw [ho, new k hk] at origin
    cases origin

/-- A method with operands of the right kinds keeps them if the inserted code has such operands. -/
theorem Grows.kinded (h : Grows P m m') (kinds : ∀ i, P i → i.HasKind) (ordered : m.Ordered)
    (kinded : m.Kinded) : m'.Kinded := by
  obtain ⟨-, kept, inserted⟩ := h.instruction ordered
  rintro ⟨x, i⟩ hp
  have hx := (h.ordered ordered).mem_sequence.1 hp
  rcases Nat.lt_or_ge x m.nextId with lt | ge
  · obtain ⟨j, hj, same⟩ := exists_of_erased (kept x lt) hx
    exact hasKind_of_erased same.symm (kinded _ (ordered.mem_sequence.2 hj))
  · obtain ⟨j, hj, same⟩ := inserted x i ge hx
    exact hasKind_of_erased same (kinds j hj)

/-! ## The instructions of a body -/

/-- An instruction that was decoded, up to its targets. -/
def fromBody? (m : Method) (x : InstrId) : Option (OpCode × Operand Unit × Option Nat × Nat) :=
  ((m.instruction? x).map Instruction.erased).filter (·.2.2.1.isSome)

/-- **The instructions that were decoded**, in order and up to their targets. -/
def fromBody (m : Method) : List (OpCode × Operand Unit × Option Nat × Nat) :=
  m.order.filterMap m.fromBody?

theorem fromBody?_of_new {x : InstrId} {i : Instruction} (hi : m.instruction? x = some i)
    (new : i.origin = none) : m.fromBody? x = none := by
  unfold fromBody?
  rw [hi]
  simp [Instruction.erased, new]

/-- **Inserted code is not part of the body**, and what is stays in order. -/
theorem insert_fromBody (ordered : m.Ordered) (new : ∀ i ∈ code, i.origin = none)
    (hi : m.insert a code side = .ok (ids, m')) : m'.fromBody = m.fromBody := by
  by_cases ne : code = []
  · subst ne
    rw [insert_nil hi]
  · obtain ⟨kept, inserted⟩ := insert_instruction ordered hi
    obtain ⟨rfl, around⟩ := insert_around ordered ne hi
    have old : ∀ c < m.nextId, m'.fromBody? c = m.fromBody? c := by
      intro c hc
      unfold fromBody?
      rw [kept c hc]
    have none : ∀ x ∈ m.freshIds code.length, m'.fromBody? x = none := by
      intro x hx
      cases hi : m'.instruction? x with
      | none => simp [fromBody?, hi]
      | some i => exact fromBody?_of_new hi (new i (inserted x i (mem_freshIds.1 hx).1 hi))
    have silent : (m.freshIds code.length).filterMap m'.fromBody? = [] :=
      List.filterMap_eq_nil_iff.2 none
    have front : ∀ c, ((Surround.beside a side (m.freshIds code.length)).front c).filterMap
        m'.fromBody? = [] := by
      intro c
      simp only [Surround.beside]
      split
      · exact silent
      · rfl
    have behind : ∀ c, ((Surround.beside a side (m.freshIds code.length)).behind c).filterMap
        m'.fromBody? = [] := by
      intro c
      simp only [Surround.beside]
      split
      · exact silent
      · rfl
    have alone : ∀ c ∈ m.order,
        ((Surround.beside a side (m.freshIds code.length)).block c).filterMap m'.fromBody?
          = (m.fromBody? c).toList := by
      intro c hc
      rw [Surround.block, List.filterMap_append, front, List.nil_append, List.filterMap_cons,
        behind, old c (ordered.mem_iff.1 hc)]
      cases m.fromBody? c <;> rfl
    unfold fromBody
    rw [around.order, List.filterMap_flatMap, List.flatMap_congr alone,
      List.filterMap_eq_flatMap_toList]

/-- **What was decoded stays**, whatever code goes in. -/
theorem Grows.fromBody (h : Grows P m m') (new : ∀ i, P i → i.origin = none)
    (ordered : m.Ordered) : m'.fromBody = m.fromBody := by
  induction h with
  | refl => rfl
  | insert h code hi ih =>
    rw [insert_fromBody (h.ordered ordered) (fun i hm => new i (code i hm)) hi, ih]
  | @lead m₁ a i j h hi same ih =>
    have stays : (m₁.setInstruction a j).fromBody? = m₁.fromBody? := by
      funext x
      unfold fromBody?
      rw [erased_setInstruction hi same]
    unfold Method.fromBody at ih ⊢
    rw [stays]
    exact ih
  | deepen _ _ ih => exact ih

end CilProbes.Method
