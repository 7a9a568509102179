import CilProbes.Proofs.Coverage.Flow
import CilProbes.Proofs.Method.Insert
import CilProbes.Proofs.Writing.Code

/-!
# Methods with code inserted

What an insertion keeps: the instructions of the method up to their targets, the look-ups by offset,
and the ways through the code inserted before.

* `Method.Closed`: no reference leads out of the method, and offsets tell its instructions apart.
* `Method.Extends`: the method with code inserted; `Extends.before`, `Extends.after`.
* `Moved`, `Covers.moved`: an insertion keeps what covers the method.
-/

namespace CilProbes

/-! ## Methods with code inserted -/

/-- Everything in an instruction but the targets. -/
def Instruction.erased (i : Instruction) : OpCode × Operand Unit × Option Nat × Nat :=
  (i.opcode, i.operand.map fun _ => (), i.origin, i.offset)

theorem Instruction.erased_eq {i j : Instruction} : i.erased = j.erased ↔
    i.opcode = j.opcode ∧ (i.operand.map fun _ => ()) = (j.operand.map fun _ => ()) ∧
      i.origin = j.origin ∧ i.offset = j.offset := by
  simp [Instruction.erased]

/-- An instruction that stood in no body and that a body can hold. -/
def Instruction.New (i : Instruction) : Prop := i.origin = none ∧ i.HasKind

namespace Method

/-- **A method that keeps to itself**: no reference leads out, and offsets tell instructions apart. -/
structure Closed (m : Method) : Prop where
  ordered : m.Ordered
  distinct : ∀ a b o, m.origin? a = some o → m.origin? b = some o → a = b
  targets : ∀ a i, m.instruction? a = some i → ∀ t ∈ i.targets, t < m.nextId
  entries : ∀ a, some a ∈ m.entries → a < m.nextId

/-- **The method with code inserted.** -/
structure Extends (m m' : Method) : Prop where
  ordered : m'.Ordered
  grown : m.nextId ≤ m'.nextId
  kept : ∀ a < m.nextId,
    (m'.instruction? a).map Instruction.erased = (m.instruction? a).map Instruction.erased
  inserted : ∀ x i, m.nextId ≤ x → m'.instruction? x = some i → i.New
  locals : m'.locals = m.locals
  flags : m'.handlers.map (·.flags) = m.handlers.map (·.flags)

variable {m m' m₁ m₂ : Method} {a : InstrId} {code : List Instruction}

theorem lt_of_instruction? {x : InstrId} {i : Instruction} (h : m.instruction? x = some i) :
    x < m.nextId :=
  (Array.getElem?_eq_some_iff.1 h).1

theorem instruction?_setInstruction {x : InstrId} {i : Instruction} (ha : a < m.nextId) :
    (m.setInstruction a i).instruction? x = if x = a then some i else m.instruction? x := by
  have bound : a < m.stock.size := ha
  show (m.stock.setIfInBounds a i)[x]? = _
  rw [Array.getElem?_setIfInBounds]
  by_cases h : x = a
  · rw [if_pos h.symm, if_pos bound, if_pos h]
  · rw [if_neg (Ne.symm h), if_neg h]
    rfl

/-- An instruction put in place of one that differs in its targets only. -/
theorem erased_setInstruction {i j : Instruction} (hi : m.instruction? a = some i)
    (same : j.erased = i.erased) (x : InstrId) :
    ((m.setInstruction a j).instruction? x).map Instruction.erased
      = (m.instruction? x).map Instruction.erased := by
  rw [instruction?_setInstruction (lt_of_instruction? hi)]
  split
  · rename_i e
    rw [e, hi, Option.map_some, Option.map_some, same]
  · rfl

/-- An instruction stands where its like stands in another method. -/
theorem exists_of_erased {x : InstrId} {j : Instruction} (same : (m'.instruction? x).map
    Instruction.erased = (m.instruction? x).map Instruction.erased)
    (hj : m'.instruction? x = some j) : ∃ i, m.instruction? x = some i ∧ i.erased = j.erased := by
  rw [hj, Option.map_some] at same
  exact Option.map_eq_some_iff.1 same.symm

theorem Ordered.lt_of_next? (h : m.Ordered) {x y : InstrId} (hn : m.next? x = some y) :
    y < m.nextId := by
  rw [next?_eq] at hn
  have : ∀ l : List Nat, after? l x = some y → y ∈ l := by
    intro l hl
    cases l with
    | nil => cases hl
    | cons z l => exact List.mem_cons_of_mem _ (mem_of_after? hl)
  exact h.mem_iff.1 (this _ hn)

theorem Closed.lt_of_follow? (closed : m.Closed) {k : Nat} {b : InstrId}
    (h : m.follow? a k = some b) : b < m.nextId := by
  cases k with
  | zero =>
    rw [follow?] at h
    split at h
    · cases h
    · exact closed.ordered.lt_of_next? h
  | succ k =>
    obtain ⟨i, hi, hb⟩ := Option.bind_eq_some_iff.1 h
    exact closed.targets a i hi b (List.mem_of_getElem? hb)

/-! ## Look-ups by offset -/

theorem origin?_eq_some {o : Nat} :
    m.origin? a = some o ↔ ((m.instruction? a).any fun i => i.origin == some o) = true := by
  unfold origin?
  cases m.instruction? a with
  | none => simp
  | some i => simp

theorem origin?_of_erased (h : (m'.instruction? a).map Instruction.erased
    = (m.instruction? a).map Instruction.erased) : m'.origin? a = m.origin? a := by
  unfold origin?
  cases hi : m.instruction? a with
  | none =>
    rw [hi, Option.map_none, Option.map_eq_none_iff] at h
    rw [h]
  | some i =>
    obtain ⟨j, hj, e⟩ := exists_of_erased h.symm hi
    rw [hj]
    exact (Instruction.erased_eq.1 e).2.2.1

theorem Extends.refl (h : m.Ordered) : m.Extends m where
  ordered := h
  grown := Nat.le_refl _
  kept := fun _ _ => rfl
  inserted := fun _ _ hx hi => absurd (lt_of_instruction? hi) (Nat.not_lt.2 hx)
  locals := rfl
  flags := rfl

theorem Extends.origin?_iff (h : m.Extends m') {o : Nat} :
    m'.origin? a = some o ↔ a < m.nextId ∧ m.origin? a = some o := by
  by_cases ha : a < m.nextId
  · rw [origin?_of_erased (h.kept a ha)]
    exact ⟨fun e => ⟨ha, e⟩, And.right⟩
  · refine ⟨fun e => ?_, fun e => absurd e.1 ha⟩
    obtain ⟨i, hi, e⟩ := Option.bind_eq_some_iff.1 e
    rw [(h.inserted a i (Nat.not_lt.1 ha) hi).1] at e
    cases e

/-- **A look-up by offset finds its instruction** where offsets tell instructions apart. -/
theorem Ordered.findOrigin?_iff (ordered : m.Ordered) {o : Nat}
    (distinct : ∀ a b, m.origin? a = some o → m.origin? b = some o → a = b) :
    m.findOrigin? o = some a ↔ m.origin? a = some o := by
  have found : ∀ b, m.findOrigin? o = some b → m.origin? b = some o := by
    intro b hb
    have met := List.find?_some hb
    exact origin?_eq_some.2 met
  refine ⟨found a, fun ho => ?_⟩
  cases hb : m.findOrigin? o with
  | none =>
    obtain ⟨i, hi, -⟩ := Option.bind_eq_some_iff.1 ho
    have := List.find?_eq_none.1 hb a (ordered.mem_iff.2 (lt_of_instruction? hi))
    exact absurd (origin?_eq_some.1 ho) this
  | some b => rw [distinct a b ho (found b hb)]

/-- **A look-up by offset finds the original instruction.** -/
theorem Extends.findOrigin?_iff (h : m.Extends m') (closed : m.Closed) {o : Nat} :
    m'.findOrigin? o = some a ↔ a < m.nextId ∧ m.origin? a = some o := by
  rw [h.ordered.findOrigin?_iff, h.origin?_iff]
  intro b c hb hc
  exact closed.distinct b c o (h.origin?_iff.1 hb).2 (h.origin?_iff.1 hc).2

/-! ## Insertions extend a method -/

theorem erased_mapTargets (i : Instruction) (f : InstrId → InstrId) :
    (i.mapTargets f).erased = i.erased := by
  obtain ⟨opcode, operand, origin, offset⟩ := i
  cases operand <;> simp [Instruction.erased, Instruction.mapTargets, Operand.map, Function.comp_def]

theorem hasKind_of_erased {i j : Instruction} (same : j.erased = i.erased) (h : i.HasKind) :
    j.HasKind := by
  obtain ⟨info, hi, hk⟩ := h
  obtain ⟨opcode, shape, -⟩ := Instruction.erased_eq.1 same
  refine ⟨info, by rw [opcode, hi], ?_⟩
  rw [← Operand.hasKind_map (f := fun _ => ()), shape, Operand.hasKind_map]
  exact hk

/-- The instructions behind those of a method are the new ones. -/
theorem new_of_fresh {first x : InstrId} {i : Instruction} (new : ∀ i ∈ code, i.New)
    (instrs : ∀ i < code.length, m.instruction? (first + i) = code[i]?) (hx : first ≤ x)
    (hn : m.nextId = first + code.length) (hi : m.instruction? x = some i) : i.New := by
  obtain ⟨k, rfl⟩ := Nat.exists_eq_add_of_le hx
  have hk : k < code.length := by
    have := lt_of_instruction? hi
    rw [hn] at this
    exact Nat.lt_of_add_lt_add_left this
  rw [instrs k hk] at hi
  exact new i (List.mem_of_getElem? hi)

theorem Extends.before (h : m.Extends m₁) (ins : m₁.InsertedBefore m₂ a code)
    (new : ∀ i ∈ code, i.New) : m.Extends m₂ where
  ordered := ins.ordered
  grown := by
    rw [ins.nextId]
    exact Nat.le_trans h.grown (Nat.le_add_right ..)
  kept := by
    intro c hc
    rw [ins.instruction c (Nat.lt_of_lt_of_le hc h.grown), ← h.kept c hc, Option.map_map]
    congr 1
    funext i
    exact erased_mapTargets i _
  inserted := by
    intro x i hx hi
    by_cases hx₁ : x < m₁.nextId
    · rw [ins.instruction x hx₁] at hi
      obtain ⟨j, hj, rfl⟩ := Option.map_eq_some_iff.1 hi
      obtain ⟨origin, kind⟩ := h.inserted x j hx hj
      exact ⟨origin, hasKind_of_erased (erased_mapTargets j _) kind⟩
    · exact new_of_fresh new ins.fresh (Nat.not_lt.1 hx₁) ins.nextId hi
  locals := ins.frame.1.trans h.locals
  flags := by
    rw [ins.handlers, ← h.flags, List.map_map]
    rfl

theorem Extends.after (h : m.Extends m₁) (ins : m₁.InsertedAfter m₂ a code)
    (new : ∀ i ∈ code, i.New) : m.Extends m₂ where
  ordered := ins.ordered
  grown := by
    rw [ins.nextId]
    exact Nat.le_trans h.grown (Nat.le_add_right ..)
  kept := by
    intro c hc
    rw [ins.instruction c (Nat.lt_of_lt_of_le hc h.grown), h.kept c hc]
  inserted := by
    intro x i hx hi
    by_cases hx₁ : x < m₁.nextId
    · rw [ins.instruction x hx₁] at hi
      exact h.inserted x i hx hi
    · exact new_of_fresh new ins.fresh (Nat.not_lt.1 hx₁) ins.nextId hi
  locals := ins.frame.1.trans h.locals
  flags := by rw [ins.handlers, h.flags]

/-- Leading a branch elsewhere is no new code, whichever branch it is. -/
theorem Extends.setInstruction (h : m.Extends m₁) {i j : Instruction}
    (hi : m₁.instruction? a = some i) (same : j.erased = i.erased) :
    m.Extends (m₁.setInstruction a j) where
  ordered := by
    unfold Ordered Method.setInstruction
    rw [Array.size_setIfInBounds]
    exact h.ordered
  grown := by
    show _ ≤ (m₁.stock.setIfInBounds a j).size
    rw [Array.size_setIfInBounds]
    exact h.grown
  kept := by
    intro c hc
    rw [erased_setInstruction hi same, h.kept c hc]
  inserted := by
    intro x k hx hk
    obtain ⟨l, hl, alike⟩ := exists_of_erased (erased_setInstruction hi same x) hk
    obtain ⟨origin, kind⟩ := h.inserted x l hx hl
    obtain ⟨-, -, kept, -⟩ := Instruction.erased_eq.1 alike
    exact ⟨kept.symm.trans origin, hasKind_of_erased alike.symm kind⟩
  locals := h.locals
  flags := h.flags

theorem Extends.insert (h : m.Extends m₁) {side : Side} {ids : List InstrId} (ne : code ≠ [])
    (new : ∀ i ∈ code, i.New) (hi : m₁.insert a code side = .ok (ids, m₂)) : m.Extends m₂ := by
  cases side with
  | before => exact h.before (insert_before h.ordered ne hi) new
  | after => exact h.after (insert_after h.ordered ne hi) new

theorem Extends.increaseMaxStack (h : m.Extends m₁) (depth : UInt16) :
    m.Extends (m₁.increaseMaxStack depth) :=
  ⟨h.ordered, h.grown, h.kept, h.inserted, h.locals, h.flags⟩

end Method

/-! ## Ways through earlier code -/

section
variable {m m₁ m₂ : Method} {d : ProbeDispatch} {n : Nat} {ρ : InstrId → InstrId}
  {extra : InstrId → List ProbeId}

theorem Operand.map_of_targets_nil {o : Operand InstrId} (h : o.targets = []) (f : InstrId → InstrId) :
    o.map f = o := by
  cases o with
  | target t => cases h
  | switch ts =>
    cases h
    rfl
  | _ => rfl

/-- **An insertion next to an instruction**, as the code inserted before sees it: what led to `x` leads
to `ρ x`, and from there control still enters the original instructions, with some more numbers
reported. -/
structure Moved (d : ProbeDispatch) (n : Nat) (ρ : InstrId → InstrId)
    (extra : InstrId → List ProbeId) (m m' : Method) : Prop where
  instruction : ∀ x i, n ≤ x → m.instruction? x = some i →
    m'.instruction? x = some (i.mapTargets ρ)
  next : ∀ x i, n ≤ x → m.instruction? x = some i → m'.next? x = (m.next? x).map ρ
  fixed : ∀ x, n ≤ x → ρ x = x
  original : ∀ v < n, Enter m' n d (ρ v) (extra v) v

theorem Runs.moved (moved : Moved d n ρ extra m m₂) {x y : InstrId} {code : List Instruction}
    (plain : ∀ i ∈ code, i.Plain) (h : Runs m n x code y) : Runs m₂ n (ρ x) code (ρ y) := by
  induction h with
  | nil x => exact .nil (ρ x)
  | @cons x x' y i code hx hi hn _ ih =>
    obtain ⟨pi, pcode⟩ := List.forall_mem_cons.1 plain
    have same : i.mapTargets ρ = i := by
      unfold Instruction.mapTargets
      rw [Operand.map_of_targets_nil pi.1]
    have hi' := moved.instruction x i hx hi
    have hn' := moved.next x i hx hi
    rw [same] at hi'
    rw [hn, Option.map_some] at hn'
    rw [moved.fixed x hx]
    exact .cons hx hi' hn' (ih pcode)

/-- **The way to an original instruction** stays, and reports what is new at its end. -/
theorem Enter.moved (moved : Moved d n ρ extra m m₂) {x v : InstrId} {ids : List ProbeId}
    (h : Enter m n d x ids v) : Enter m₂ n d (ρ x) (ids ++ extra v) v := by
  induction h with
  | here hv => exact moved.original _ hv
  | @probe x y v id ids run _ ih => exact .probe (run.moved moved (probe_plain d id)) ih
  | @jump x y v ids hx hi _ ih =>
    rw [moved.fixed x hx]
    exact .jump hx (moved.instruction x _ hx hi) ih

variable {points : InstrId → List ProbeId} {edges edges' : InstrId → Nat → Option ProbeId}

/-- **Covering survives an insertion**: each edge leads where it led before, or it leads to new code
that reports its number. -/
theorem Covers.moved (covers : Covers d n points edges m m₁) (moved : Moved d n ρ extra m₁ m₂)
    (entries : m₂.entries = m₁.entries.map (Option.map ρ))
    (edge : ∀ a < n, ∀ k,
      (edges' a k = edges a k ∧ m₂.follow? a k = (m₁.follow? a k).map ρ) ∨
      ((m.follow? a k = none → m₂.follow? a k = none) ∧ ∀ b, m.follow? a k = some b →
        ∃ x, m₂.follow? a k = some x ∧
          Enter m₂ n d x ((edges' a k).toList ++ (points b ++ extra b)) b)) :
    Covers d n (fun a => points a ++ extra a) edges' m m₂ where
  entries := by
    rw [entries, List.forall₂_map_left_iff]
    refine covers.entries.imp fun a' a enter => ?_
    cases enter with
    | none => exact .none
    | some enter => exact .some (enter.moved moved)
  dead := by
    intro a ha k none
    rcases edge a ha k with ⟨-, follow⟩ | ⟨dead, -⟩
    · rw [follow, covers.dead a ha k none]
      rfl
    · exact dead none
  live := by
    intro a ha k b hb
    rcases edge a ha k with ⟨same, follow⟩ | ⟨-, live⟩
    · obtain ⟨x, hx, enter⟩ := covers.live a ha k b hb
      refine ⟨ρ x, by rw [follow, hx]; rfl, ?_⟩
      rw [same, ← List.append_assoc]
      exact enter.moved moved
    · exact live b hb

theorem Covers.congr (covers : Covers d n points edges m m₁)
    (same : ∀ a < n, ∀ k b, m.follow? a k = some b → edges a k = edges' a k) :
    Covers d n points edges' m m₁ where
  entries := covers.entries
  dead := covers.dead
  live := by
    intro a ha k b hb
    rw [← same a ha k b hb]
    exact covers.live a ha k b hb

/-- Nothing is inserted and nothing is asked for. -/
theorem Covers.refl (closed : m.Closed) :
    Covers d m.nextId (fun _ => []) (fun _ _ => none) m m where
  entries := by
    refine List.forall₂_same.2 fun a? ha => ?_
    cases a? with
    | none => exact .none
    | some a => exact .some (.here (closed.entries a ha))
  dead := fun _ _ _ none => none
  live := fun _ _ _ b hb => ⟨b, hb, .here (closed.lt_of_follow? hb)⟩

theorem follow?_mapTargets {a : InstrId}
    (hi : m₂.instruction? a = (m₁.instruction? a).map (·.mapTargets ρ))
    (hn : m₂.next? a = (m₁.next? a).map ρ) (k : Nat) :
    m₂.follow? a k = (m₁.follow? a k).map ρ := by
  cases k with
  | zero =>
    unfold Method.follow?
    rw [hi, hn]
    cases m₁.instruction? a with
    | none => rfl
    | some i =>
      show (if i.flow.isTerminal = true then none else _) = _
      cases hf : i.flow.isTerminal <;> simp [hf]
  | succ k =>
    unfold Method.follow?
    rw [hi]
    cases m₁.instruction? a with
    | none => rfl
    | some i => simp [Instruction.targets, Instruction.mapTargets]

end

end CilProbes
