import CilProbes.Proofs.Method.Built

/-!
# Insertions, one fact at a time

What an insertion does to the instructions, to the order and to the references, in the terms that
control flow needs: `next?`, the instruction of an id and the boundaries of handlers.

* `InsertedBefore`, `insert_before`: every reference to the anchor, and every step to it, leads to
  the new code instead, which ends at the anchor.
* `InsertedAfter`, `insert_after`: the step behind the anchor leads to the new code, which goes on
  where the anchor went; nothing else changes.
-/

namespace CilProbes

/-! ## The next entry of a list -/

/-- The entry behind the first occurrence of another one. -/
def after? : List Nat → Nat → Option Nat
  | [], _ => none
  | x :: l, k => if x = k then l.head? else after? l k

theorem Method.next?_eq (m : Method) (id : InstrId) : m.next? id = after? m.order id := by
  show (m.order.idxOf? id).bind (fun p => m.order[p + 1]?) = _
  generalize m.order = l
  induction l with
  | nil => rfl
  | cons x l ih =>
    rw [List.idxOf?_cons, after?]
    by_cases h : x = id
    · simp [h, List.head?_eq_getElem?]
    · rw [if_neg h, ← ih]
      simp only [beq_eq_false_iff_ne.2 h]
      cases l.idxOf? id <;> simp

/-- Entries in front do not matter to an entry that is not among them. -/
theorem after?_append {pre l : List Nat} {k : Nat} (h : k ∉ pre) :
    after? (pre ++ l) k = after? l k := by
  induction pre with
  | nil => rfl
  | cons x pre ih =>
    obtain ⟨hx, hpre⟩ := not_or.1 (mt List.mem_cons.2 h)
    rw [List.cons_append, after?, if_neg (Ne.symm hx), ih hpre]

theorem mem_of_after? {x k y : Nat} {l : List Nat} (h : after? (x :: l) k = some y) : y ∈ l := by
  induction l generalizing x with
  | nil =>
    rw [after?] at h
    split at h <;> cases h
  | cons z l ih =>
    rw [after?] at h
    split at h
    · cases h
      exact List.mem_cons_self
    · exact List.mem_cons_of_mem _ (ih h)

section
variable {pre fresh post : List Nat} {a n x : Nat}

/-- With entries put in front of `a`, what led to `a` leads to them. -/
theorem after?_insert_before (hpre : a ∉ pre) (hpost : a ∉ post) (hx : x ∉ fresh)
    (hn : fresh.head? = some n) : after? (pre ++ (fresh ++ a :: post)) x
      = (after? (pre ++ a :: post) x).map fun y => if y = a then n else y := by
  induction pre with
  | nil =>
    rw [List.nil_append, List.nil_append, after?_append hx]
    cases h : after? (a :: post) x with
    | none => rfl
    | some y =>
      have : y ≠ a := fun e => hpost (e ▸ mem_of_after? h)
      rw [Option.map_some, if_neg this]
  | cons w pre ih =>
    obtain ⟨-, hpre⟩ := not_or.1 (mt List.mem_cons.2 hpre)
    rw [List.cons_append, List.cons_append, after?, after?, ih hpre]
    split
    · cases pre with
      | nil => simp [List.head?_append, hn]
      | cons w' pre =>
        have : w' ≠ a := fun e => hpre (e ▸ List.mem_cons_self)
        simp [this]
    · rfl

/-- With entries put behind `a`, only `a` leads elsewhere. -/
theorem after?_insert_after (hxa : x ≠ a) (hx : x ∉ fresh) :
    after? (pre ++ a :: (fresh ++ post)) x = after? (pre ++ a :: post) x := by
  induction pre with
  | nil =>
    rw [List.nil_append, List.nil_append, after?, after?, if_neg hxa.symm, if_neg hxa.symm,
      after?_append hx]
  | cons w pre ih =>
    rw [List.cons_append, List.cons_append, after?, after?, ih]
    split
    · cases pre <;> rfl
    · rfl

theorem after?_at (hpre : a ∉ pre) : after? (pre ++ a :: post) a = post.head? := by
  rw [after?_append hpre, after?, if_pos rfl]

/-- Entries that count up lead to each other, and the last one on. -/
theorem after?_range' {len i : Nat} (hi : i < len) :
    after? (List.range' n len ++ post) (n + i)
      = if i + 1 < len then some (n + i + 1) else post.head? := by
  induction len generalizing n i with
  | zero => omega
  | succ len ih =>
    rw [List.range'_succ, List.cons_append, after?]
    cases i with
    | zero =>
      rw [Nat.add_zero, if_pos rfl]
      cases len with
      | zero => rfl
      | succ len => simp [List.range'_succ]
    | succ i =>
      have := ih (n := n + 1) (i := i) (by omega)
      rw [show n + 1 + i = n + (i + 1) by omega] at this
      rw [if_neg (by omega), this]
      by_cases h : i + 1 < len
      · rw [if_pos h, if_pos (by omega)]
      · rw [if_neg h, if_neg (by omega)]

end

/-! ## Insertions -/

namespace Method

variable {m m' : Method} {a : InstrId} {code : List Instruction} {ids : List InstrId}

/-- What an insertion in front of `a` does. The first new instruction takes the place of `a` in every
reference and on every way to `a`. -/
structure InsertedBefore (m m' : Method) (a : InstrId) (code : List Instruction) : Prop where
  ordered : m'.Ordered
  nextId : m'.nextId = m.nextId + code.length
  instruction : ∀ x < m.nextId, m'.instruction? x = (m.instruction? x).map (·.retarget a m.nextId)
  fresh : ∀ i < code.length, m'.instruction? (m.nextId + i) = code[i]?
  next : ∀ x < m.nextId, m'.next? x = (m.next? x).map fun y => if y = a then m.nextId else y
  fresh_next : ∀ i < code.length, m'.next? (m.nextId + i)
    = if i + 1 < code.length then some (m.nextId + i + 1) else some a
  first : m'.first? = m.first?.map fun y => if y = a then m.nextId else y
  handlers : m'.handlers = m.handlers.map (·.retarget a m.nextId)
  frame : m'.locals = m.locals ∧ m'.zeroLocals = m.zeroLocals ∧ m'.maxStack = m.maxStack

/-- What an insertion behind `a` does. -/
structure InsertedAfter (m m' : Method) (a : InstrId) (code : List Instruction) : Prop where
  ordered : m'.Ordered
  nextId : m'.nextId = m.nextId + code.length
  instruction : ∀ x < m.nextId, m'.instruction? x = m.instruction? x
  fresh : ∀ i < code.length, m'.instruction? (m.nextId + i) = code[i]?
  next : ∀ x < m.nextId, x ≠ a → m'.next? x = m.next? x
  next_anchor : m'.next? a = some m.nextId
  fresh_next : ∀ i < code.length, m'.next? (m.nextId + i)
    = if i + 1 < code.length then some (m.nextId + i + 1) else m.next? a
  first : m'.first? = m.first?
  handlers : m'.handlers = m.handlers
  frame : m'.locals = m.locals ∧ m'.zeroLocals = m.zeroLocals ∧ m'.maxStack = m.maxStack

/-- The order around an instruction. -/
theorem Ordered.split (h : m.Ordered) {place : Nat} (hp : m.position? a = some place) :
    ∃ pre post, m.order = pre ++ a :: post ∧ m.order.take place = pre ∧
      m.order.drop place = a :: post ∧ m.order.take (place + 1) = pre ++ [a] ∧
      m.order.drop (place + 1) = post ∧ a ∉ pre ∧ a ∉ post := by
  obtain ⟨mem, rfl⟩ := Locator.idxOf?_eq_some.1 hp
  obtain ⟨pre, post, e, hpre⟩ := List.eq_append_cons_of_mem mem
  have len : m.order.idxOf a = pre.length := by
    rw [e, List.idxOf_append_of_notMem hpre, List.idxOf_cons_self, Nat.add_zero]
  have hpost : a ∉ post := by
    have := h.nodup
    rw [e] at this
    exact (List.nodup_cons.1 (List.nodup_append.1 this).2.1).1
  refine ⟨pre, post, e, ?_, ?_, ?_, ?_, hpre, hpost⟩
  · rw [len, e, List.take_left']
    rfl
  · rw [len, e, List.drop_left']
    rfl
  · rw [len, e, ← List.singleton_append, ← List.append_assoc, List.take_left']
    simp
  · rw [len, e, ← List.singleton_append, ← List.append_assoc, List.drop_left']
    simp

theorem mem_freshIds {x count : Nat} :
    x ∈ m.freshIds count ↔ m.nextId ≤ x ∧ x < m.nextId + count := by
  unfold freshIds
  rw [List.mem_range'_1]

theorem not_mem_freshIds {x count : Nat} (h : x < m.nextId) : x ∉ m.freshIds count :=
  fun mem => Nat.not_le.2 h (mem_freshIds.1 mem).1

theorem head?_freshIds (ne : code ≠ []) : (m.freshIds code.length).head? = some m.nextId := by
  cases code with
  | nil => exact absurd rfl ne
  | cons i code => rfl

/-- New instructions do not stand in the method yet. -/
theorem Ordered.fresh_not_mem (h : m.Ordered) (i : Nat) : m.nextId + i ∉ m.order :=
  fun mem => Nat.not_le.2 (h.mem_iff.1 mem) (Nat.le_add_right ..)

theorem instruction?_splice {place : Nat} {x : InstrId} (hx : x < m.nextId) :
    (m.splice place code).instruction? x = m.instruction? x := by
  show (m.stock ++ code.toArray)[x]? = m.stock[x]?
  exact Array.getElem?_append_left hx

theorem instruction?_splice_fresh {place i : Nat} :
    (m.splice place code).instruction? (m.nextId + i) = code[i]? := by
  show (m.stock ++ code.toArray)[m.stock.size + i]? = code[i]?
  rw [Array.getElem?_append, if_neg (by omega)]
  simp

theorem instruction?_redirect {old new x : InstrId} :
    (m.redirect old new).instruction? x = (m.instruction? x).map (·.retarget old new) := by
  show (m.stock.map _)[x]? = _
  rw [Array.getElem?_map]
  rfl

/-- Code goes in next to any instruction of the order. -/
theorem exists_insert (ha : a ∈ m.order) (code : List Instruction) (side : Side) :
    ∃ r, m.insert a code side = .ok r := by
  unfold Method.insert position?
  rw [Locator.idxOf?_eq_some.2 ⟨ha, rfl⟩]
  simp only
  split <;> exact ⟨_, rfl⟩

/-- **An insertion in front of an instruction.** -/
theorem insert_before (h : m.Ordered) (ne : code ≠ [])
    (hi : m.insert a code .before = .ok (ids, m')) : m.InsertedBefore m' a code := by
  have ordered := h.insert hi
  obtain ⟨-, -, place, hp, rfl⟩ := (insert_cases hi).resolve_left fun h => ne h.1
  unfold insertAt at ordered ⊢
  obtain ⟨pre, post, e, ht, hd, -, -, hpre, hpost⟩ := h.split hp
  have order : ((m.redirect a m.nextId).splice place code).order
      = pre ++ (m.freshIds code.length ++ a :: post) := by
    show m.order.take place ++ _ ++ m.order.drop place = _
    rw [ht, hd, List.append_assoc]
    unfold freshIds nextId redirect
    rw [Array.size_map]
  have size : (m.redirect a m.nextId).nextId = m.nextId := Array.size_map
  have head := head?_freshIds (m := m) ne
  refine ⟨ordered, ?_, fun x hx => ?_, fun i _ => ?_, fun x hx => ?_, fun i hi => ?_, ?_, rfl,
    rfl, rfl, rfl⟩
  · show (Array.map _ m.stock ++ code.toArray).size = _
    rw [Array.size_append, Array.size_map]
    rfl
  · rw [instruction?_splice (size.symm ▸ hx), instruction?_redirect]
  · have := @instruction?_splice_fresh (m.redirect a m.nextId) code place i
    rwa [size] at this
  · rw [next?_eq, next?_eq, order, e]
    exact after?_insert_before hpre hpost (not_mem_freshIds hx) head
  · rw [next?_eq, order, after?_append, freshIds, after?_range' hi]
    · rfl
    · exact fun hm => h.fresh_not_mem i (e ▸ List.mem_append_left _ hm)
  · unfold first?
    rw [order, e]
    cases pre with
    | nil => simp [List.head?_append, head]
    | cons w pre =>
      have : w ≠ a := fun e => hpre (e ▸ List.mem_cons_self)
      simp [this]

/-- **An insertion behind an instruction.** -/
theorem insert_after (h : m.Ordered) (ne : code ≠ [])
    (hi : m.insert a code .after = .ok (ids, m')) : m.InsertedAfter m' a code := by
  have ordered := h.insert hi
  obtain ⟨-, -, place, hp, rfl⟩ := (insert_cases hi).resolve_left fun h => ne h.1
  unfold insertAt at ordered ⊢
  obtain ⟨pre, post, e, -, -, ht, hd, hpre, hpost⟩ := h.split hp
  have order : (m.splice (place + 1) code).order
      = pre ++ a :: (m.freshIds code.length ++ post) := by
    show m.order.take (place + 1) ++ _ ++ m.order.drop (place + 1) = _
    rw [ht, hd]
    simp
  have head := head?_freshIds (m := m) ne
  refine ⟨ordered, ?_, fun x hx => ?_, fun i _ => ?_, fun x hx hxa => ?_, ?_, fun i hi => ?_, ?_,
    rfl, rfl, rfl, rfl⟩
  · show (m.stock ++ code.toArray).size = _
    rw [Array.size_append]
    rfl
  · exact instruction?_splice hx
  · exact instruction?_splice_fresh
  · rw [next?_eq, next?_eq, order, e]
    exact after?_insert_after hxa (not_mem_freshIds hx)
  · rw [next?_eq, order, after?_at hpre]
    simp [List.head?_append, head]
  · have fresh : m.nextId + i ∉ pre ++ [a] := by
      intro hm
      have : m.nextId + i ∈ m.order := by
        rw [e]
        simp only [List.mem_append, List.mem_cons] at hm ⊢
        tauto
      exact h.fresh_not_mem i this
    rw [next?_eq, next?_eq, order, e, ← List.singleton_append, ← List.append_assoc,
      after?_append fresh, freshIds, after?_range' hi, after?_at hpre]
  · unfold first?
    rw [order, e]
    cases pre <;> rfl

end Method

end CilProbes
