import CilProbes.Proofs.Method.Regions

/-!
# Insertions in place

`insert` redirects the references to the anchor before the new code goes in. To edit a method in
place is to go the other way round: the code is stored, its ids go into the order, and then the
references are looked through instruction by instruction. The new code is in the order by then and
must keep its own references; it is told by its ids, which are the highest.

* `Method.insertInPlace`: the insertion in these steps, and the method that is left.
* `insertInPlace_of_insert`: the steps come to what `insert` gives.
* `Method.Spliced`: what an insertion makes of every part of a method.
* `insert_splices`: the outcome of an insertion, next to any anchor of any built method.
-/

namespace CilProbes

namespace Method

/-! ## The steps -/

/-- Leads the references of one stored instruction on, unless it is new. -/
def leadOlder (anchor first : InstrId) (stock : Array Instruction) (id : InstrId) :
    Array Instruction :=
  if first ≤ id then stock else stock.modify id (·.retarget anchor first)

/-- **The insertion in steps**, and the method that is left. -/
def insertInPlace (m : Method) (anchor : InstrId) (code : List Instruction) (side : Side) :
    Except Fault (List InstrId) × Method :=
  match m.position? anchor with
  | none => (.error (.relocation (.unknownAnchor anchor)), m)
  | some place =>
    let first := m.nextId
    let ids := m.freshIds code.length
    let m := { m with stock := m.stock ++ code.toArray }
    if code.isEmpty then (.ok ids, m)
    else
      let place := match side with
        | .before => place
        | .after => place + 1
      let m := { m with order := m.order.take place ++ ids ++ m.order.drop place }
      match side with
      | .before =>
        let m := { m with stock := m.order.foldl (leadOlder anchor first) m.stock }
        (.ok ids, m.retargetHandlers anchor first)
      | .after => (.ok ids, m)

/-- Each of the instructions that are not new is led on once. -/
theorem getElem?_foldl_leadOlder {anchor first : InstrId} {ids : List InstrId} (nodup : ids.Nodup)
    (stock : Array Instruction) (x : InstrId) : (ids.foldl (leadOlder anchor first) stock)[x]?
      = if x ∈ ids ∧ x < first then stock[x]?.map (·.retarget anchor first) else stock[x]? := by
  induction ids generalizing stock with
  | nil => simp
  | cons id ids ih =>
    obtain ⟨absent, nodup⟩ := List.nodup_cons.1 nodup
    rw [List.foldl_cons, ih nodup]
    by_cases same : x = id
    · subst same
      by_cases old : x < first
      · simp [leadOlder, absent, old, Nat.not_le.2 old, Array.getElem?_modify]
      · simp [leadOlder, absent, old, Nat.not_lt.1 old]
    · have other : (leadOlder anchor first stock id)[x]? = stock[x]? := by
        unfold leadOlder
        split
        · rfl
        · rw [Array.getElem?_modify, if_neg (Ne.symm same)]
      simp [other, same]

variable {m m' : Method} {a : InstrId} {code : List Instruction} {ids : List InstrId} {side : Side}

/-- In a method with the new code in place, leading the older instructions on is as good as
redirecting all of them beforehand. -/
theorem foldl_leadOlder_splice (ordered : m.Ordered) (place : Nat) (code : List Instruction)
    (anchor : InstrId) : (m.splice place code).order.foldl (leadOlder anchor m.nextId)
      (m.splice place code).stock = ((m.redirect anchor m.nextId).splice place code).stock := by
  refine Array.ext_getElem? fun x => ?_
  have ordered' := ordered.splice place code
  rw [getElem?_foldl_leadOlder ordered'.nodup]
  show _ = (m.stock.map _ ++ code.toArray)[x]?
  rw [Array.getElem?_append, Array.size_map, Array.getElem?_map]
  by_cases old : x < m.stock.size
  · have mem : x ∈ (m.splice place code).order := by
      rw [ordered'.mem_iff]
      exact Nat.lt_of_lt_of_le old (by simp [splice])
    rw [if_pos ⟨mem, old⟩, if_pos old]
    exact congrArg _ (Array.getElem?_append_left old)
  · rw [if_neg fun h => old h.2, if_neg old]
    exact Array.getElem?_append_right (Nat.not_lt.1 old)

/-- **The steps come to what `insert` gives.** -/
theorem insertInPlace_of_insert (ordered : m.Ordered)
    (hi : m.insert a code side = .ok (ids, m')) : m.insertInPlace a code side = (.ok ids, m') := by
  rcases insert_cases hi with ⟨rfl, rfl, rfl⟩ | ⟨ne, rfl, place, hp, rfl⟩
  · unfold Method.insert at hi
    unfold insertInPlace
    cases hp : m'.position? a with
    | none => simp [hp] at hi
    | some place => simp [freshIds]
  · have some_code : ¬ code.isEmpty := mt List.isEmpty_iff.1 ne
    unfold insertInPlace
    simp only [hp, if_neg some_code]
    cases side with
    | after => rfl
    | before =>
      have stock := foldl_leadOlder_splice ordered place code a
      refine Prod.ext rfl ?_
      show ({ m.splice place code with
        stock := (m.splice place code).order.foldl (leadOlder a m.nextId) (m.splice place code).stock
      } : Method).retargetHandlers a m.nextId = (m.redirect a m.nextId).splice place code
      rw [stock]
      simp [retargetHandlers, splice, redirect, freshIds, nextId]

/-! ## Part by part -/

/-- **What an insertion makes of a method**, part by part. In front of the anchor the first new
instruction takes over every reference to it, those of the new code apart. -/
structure Spliced (m m' : Method) (anchor : InstrId) (code : List Instruction) (side : Side) :
    Prop where
  order : ∀ pre post, m.order = pre ++ anchor :: post → m'.order = match side with
    | .before => pre ++ m.freshIds code.length ++ anchor :: post
    | .after => pre ++ anchor :: m.freshIds code.length ++ post
  stored : m'.stock.size = m.stock.size + code.length ∧
    ∀ k < code.length, m'.instruction? (m.nextId + k) = code[k]?
  kept : ∀ x < m.nextId, m'.instruction? x = match side with
    | .before => (m.instruction? x).map fun i =>
      { i with operand := i.operand.map fun t => if t = anchor then m.nextId else t }
    | .after => m.instruction? x
  handlers : m'.handlers = match side with
    | .before => m.handlers.map (·.mapBoundaries fun b => if b = anchor then m.nextId else b)
    | .after => m.handlers
  frame : m'.maxStack = m.maxStack ∧ m'.locals = m.locals ∧ m'.zeroLocals = m.zeroLocals

theorem insert_spliced (ordered : m.Ordered) (ne : code ≠ [])
    (hi : m.insert a code side = .ok (ids, m')) : m.Spliced m' a code side := by
  have order : ∀ pre post, m.order = pre ++ a :: post → m'.order = match side with
      | .before => pre ++ m.freshIds code.length ++ a :: post
      | .after => pre ++ a :: m.freshIds code.length ++ post := by
    intro pre post split
    obtain ⟨rfl, around⟩ := insert_around ordered ne hi
    have nodup := ordered.nodup
    rw [split] at nodup
    have in_front : a ∉ pre :=
      fun mem => (List.nodup_append.1 nodup).2.2 a mem a List.mem_cons_self rfl
    have behind : a ∉ post := (List.nodup_cons.1 (List.nodup_append.1 nodup).2.1).1
    rw [around.order, split, List.flatMap_append, List.flatMap_cons,
      Surround.flatMap_beside _ _ in_front, Surround.flatMap_beside _ _ behind]
    cases side <;> simp [Surround.block, Surround.beside]
  cases side with
  | before =>
    have ins := insert_before ordered ne hi
    obtain ⟨locals, zeroLocals, maxStack⟩ := ins.frame
    exact ⟨order, ⟨ins.nextId, ins.fresh⟩, ins.instruction, ins.handlers,
      maxStack, locals, zeroLocals⟩
  | after =>
    have ins := insert_after ordered ne hi
    obtain ⟨locals, zeroLocals, maxStack⟩ := ins.frame
    exact ⟨order, ⟨ins.nextId, ins.fresh⟩, ins.instruction, ins.handlers,
      maxStack, locals, zeroLocals⟩

/-- **Code from no body leaves the look-ups by offset alone**: the first instruction that was decoded
at an offset stays the first one. -/
theorem Spliced.findOrigin? (h : m.Spliced m' a code side) (ordered : m.Ordered) (ha : a ∈ m.order)
    (new : ∀ i ∈ code, i.origin = none) (offset : Nat) :
    m'.findOrigin? offset = m.findOrigin? offset := by
  obtain ⟨pre, post, split⟩ := List.append_of_mem ha
  let found (m : Method) (x : InstrId) : Bool := (m.instruction? x).any fun i =>
    i.origin == some offset
  have kept : m.order.filter (found m') = m.order.filter (found m) := by
    refine List.filter_congr fun x hx => ?_
    have same := h.kept x (ordered.mem_iff.1 hx)
    cases side with
    | before =>
      simp only [found, same]
      cases m.instruction? x <;> rfl
    | after => simp only [found, same]
  have silent : (m.freshIds code.length).filter (found m') = [] := by
    refine List.filter_eq_nil_iff.2 fun x hx => ?_
    obtain ⟨low, high⟩ := mem_freshIds.1 hx
    obtain ⟨k, rfl⟩ := Nat.exists_eq_add_of_le low
    have hk : k < code.length := Nat.lt_of_add_lt_add_left high
    simp only [found, h.stored.2 k hk, List.getElem?_eq_getElem hk, Option.any_some]
    simp [new _ (List.getElem_mem hk)]
  have old : m'.order.filter (found m') = m.order.filter (found m') := by
    rw [h.order pre post split, split]
    cases side with
    | before => simp [silent]
    | after => cases there : found m' a <;> simp [silent, there]
  show m'.order.find? (found m') = m.order.find? (found m)
  rw [← List.head?_filter, ← List.head?_filter, old, kept]

end Method

/-- **An insertion is exactly its splice.** In a method that comes about by edits each stored
instruction stands in the order once. Next to an unknown anchor nothing is inserted and the method
stays as it is, and without code nothing changes. Otherwise the new instructions get the next ids and
stand next to the anchor, as they were given; in front of it the first one takes over the references
of all older instructions and of the handlers; and all else stays, also which instruction is found at
an old offset if the code stood in no body. -/
theorem insert_splices {m : Method} (built : m.Built) :
    (∀ id, m.order.count id = if id < m.stock.size then 1 else 0) ∧
    ∀ (anchor : InstrId) (code : List Instruction) (side : Side),
      (anchor ∉ m.order →
        m.insert anchor code side = .error (.relocation (.unknownAnchor anchor)) ∧
        m.insertInPlace anchor code side
          = (.error (.relocation (.unknownAnchor anchor)), m)) ∧
      (anchor ∈ m.order →
        m.insert anchor [] side = .ok ([], m) ∧ m.insertInPlace anchor [] side = (.ok [], m)) ∧
      (anchor ∈ m.order → code ≠ [] → ∃ m',
        m.insert anchor code side = .ok (m.freshIds code.length, m') ∧
        m.insertInPlace anchor code side = (.ok (m.freshIds code.length), m') ∧
        m.Spliced m' anchor code side ∧
        ((∀ i ∈ code, i.origin = none) → ∀ offset, m'.findOrigin? offset = m.findOrigin? offset)) := by
  have ordered := built.ordered
  refine ⟨fun id => ?_, fun anchor code side => ⟨fun unknown => ?_, fun known => ?_,
    fun known ne => ?_⟩⟩
  · rw [List.Nodup.count ordered.nodup]
    simp only [ordered.mem_iff]
  · have nowhere : m.position? anchor = none := List.idxOf?_eq_none_iff.2 unknown
    simp [Method.insert, Method.insertInPlace, nowhere]
  · obtain ⟨⟨ids, m'⟩, hi⟩ := Method.exists_insert known [] side
    obtain ⟨-, rfl, rfl⟩ := (Method.insert_cases hi).resolve_right fun h => h.1 rfl
    exact ⟨hi, Method.insertInPlace_of_insert ordered hi⟩
  · obtain ⟨⟨ids, m'⟩, hi⟩ := Method.exists_insert known code side
    obtain ⟨-, rfl, -⟩ := (Method.insert_cases hi).resolve_left fun h => ne h.1
    have spliced := Method.insert_spliced ordered ne hi
    exact ⟨m', hi, Method.insertInPlace_of_insert ordered hi, spliced,
      spliced.findOrigin? ordered known⟩

/-- A switch that leads twice to an instruction at which a region ends and a filter block starts. -/
def switching : Method :=
  { Method.ofInstructions
      [.simple .ldarg0, .fresh (.single 0x45) (.switch [2, 3, 2]), .simple .nop, .simple .ret]
      none 8 with
    handlers := [⟨⟨1⟩, 0, some 2, 3, none, some 2, .null⟩] }

/-- A jump to that instruction goes in front of it: all references are led to the jump but its own. -/
theorem insert_splices_switching : switching.Built ∧ ∃ m',
    switching.insertInPlace 2 [.branch .br 2] .before = (.ok [4], m') ∧
    m'.order = [0, 1, 4, 2, 3] ∧ (m'.instruction? 1).map (·.targets) = some [4, 3, 4] ∧
    m'.instruction? 4 = some (.branch .br 2) ∧
    m'.handlers = [⟨⟨1⟩, 0, some 4, 3, none, some 4, .null⟩] ∧
    switching.insertInPlace 7 [.simple .nop] .after
      = (.error (.relocation (.unknownAnchor 7)), switching) := by
  have built : switching.Built := .inPlace (.ofInstructions
    [.simple .ldarg0, .fresh (.single 0x45) (.switch [2, 3, 2]), .simple .nop, .simple .ret] none 8)
    rfl rfl
  obtain ⟨-, inserts⟩ := insert_splices built
  obtain ⟨-, -, known⟩ := inserts 2 [.branch .br 2] .before
  obtain ⟨m', -, steps, spliced, -⟩ := known (by decide) (List.cons_ne_nil _ _)
  refine ⟨built, m', steps, spliced.order [0, 1] [3] rfl, ?_, spliced.stored.2 0 (by decide),
    spliced.handlers, ((inserts 7 _ .after).1 (by decide)).2⟩
  rw [spliced.kept 1 (by decide)]
  rfl

end CilProbes
