import CilProbes.Coverage.Instrument
import CilProbes.Proofs.Method.Built
import Mathlib.Data.Set.Function

/-!
# Control flow through inserted code

A path of a method follows numbered edges from one of its entries: edge 0 falls through, edge `n`
takes the `n`-th target. Inserted code is entered and left without a choice: `Enter m d n x ids v`
says that from `x` control runs through inserted instructions alone (those from `n` on), reports
`ids` on the way and arrives at the original instruction `v`.

* `Covers d n points edges m m'`: every entry and every edge of `m` is one of `m'` that enters the
  same instruction, and reports the numbers of the edge and of the instruction on the way.
* `Covers.bijOn`: then the paths of `m'` that end at an original instruction are the paths of `m`,
  with inserted instructions between the steps.
* `Covers.observed`: what such a path reports is what the points of its instructions and edges ask
  for, in this order.
-/

namespace CilProbes

/-! ## Paths -/

namespace Method

/-- The instruction that an edge leads to. -/
def follow? (m : Method) (id : InstrId) : Nat → Option InstrId
  | 0 => if (m.instruction? id).any fun i => i.flow.isTerminal then none else m.next? id
  | n + 1 => (m.instruction? id).bind fun i => i.targets[n]?

/-- Where control enters a method: at the first instruction, and at the handler and the filter block
of each clause. -/
def entries (m : Method) : List (Option InstrId) :=
  m.first? :: m.handlers.flatMap fun h => [some h.handlerStart, h.filterStart]

/-- **A path**: the steps, each an instruction with the number of the edge it is left by, and the
instruction at the end. -/
inductive Path (m : Method) : InstrId → List (InstrId × Nat) → InstrId → Prop
  | stop (a : InstrId) : Path m a [] a
  | step {a b z : InstrId} {k : Nat} {steps : List (InstrId × Nat)} :
      m.follow? a k = some b → Path m b steps z → Path m a ((a, k) :: steps) z

theorem Path.nil_iff {m : Method} {a z : InstrId} : m.Path a [] z ↔ z = a := by
  constructor
  · intro h
    cases h
    rfl
  · rintro rfl
    exact .stop z

theorem Path.cons_iff {m : Method} {a z : InstrId} {s : InstrId × Nat}
    {steps : List (InstrId × Nat)} : m.Path a (s :: steps) z ↔
      s.1 = a ∧ ∃ b, m.follow? a s.2 = some b ∧ m.Path b steps z := by
  constructor
  · intro h
    cases h with
    | step hf hp => exact ⟨rfl, _, hf, hp⟩
  · obtain ⟨c, k⟩ := s
    rintro ⟨rfl, b, hf, hp⟩
    exact .step hf hp

theorem Path.append {m : Method} {a b z : InstrId} {steps later : List (InstrId × Nat)}
    (h : m.Path a steps b) (h' : m.Path b later z) : m.Path a (steps ++ later) z := by
  induction h with
  | stop _ => exact h'
  | step hf _ ih => exact .step hf (ih h')

/-- The instructions of a path, in order. -/
def visited (steps : List (InstrId × Nat)) (z : InstrId) : List InstrId := steps.map Prod.fst ++ [z]

/-- The steps of a path that leave an original instruction. -/
def originals (n : Nat) (steps : List (InstrId × Nat)) : List (InstrId × Nat) :=
  steps.filter fun s => s.1 < n

end Method

/-! ## What a path reports -/

/-- Something to observe on a path. -/
inductive Event where
  /-- An original instruction is reached. -/
  | reach (id : InstrId)
  /-- A probe reports its number. -/
  | report (id : ProbeId)
deriving DecidableEq, Repr

/-- The number that is reported when a list of instructions is executed, if it starts with a
probe. -/
def reportAt? (d : ProbeDispatch) (code : List Instruction) : Option ProbeId :=
  match code.head?.map Instruction.operand with
  | some (.int32 v) => if (d.probe v.toUInt32).isPrefixOf code then some v.toUInt32 else none
  | _ => none

/-- **What is observed** when instructions are executed one after the other: each original
instruction, and each probe that was inserted. -/
def observe (m : Method) (d : ProbeDispatch) (n : Nat) : List InstrId → List Event
  | [] => []
  | x :: xs =>
    (if x < n then [.reach x]
      else ((reportAt? d ((x :: xs).filterMap m.instruction?)).map Event.report).toList)
    ++ observe m d n xs

/-- The offset in the decoded body of an instruction. -/
def Method.origin? (m : Method) (a : InstrId) : Option Nat := (m.instruction? a).bind (·.origin)

/-- The numbers of the sequence points of an instruction, in the order of supply. -/
def pointsAt (m : Method) (qs : List SequencePoint) (a : InstrId) : List ProbeId :=
  (qs.filter fun q => m.origin? a = some q.offset).map (·.id)

/-- The number of an edge: it leaves a conditional branch or a switch that is not the last
instruction, and has a branch point. -/
def edgeIdAt (m : Method) (ps : List BranchPoint) (a : InstrId) (k : Nat) : Option ProbeId :=
  (m.instruction? a).bind fun i =>
    if (i.flow = .conditional ∨ i.flow = .switch) ∧ (m.next? a).isSome then
      i.origin.bind fun offset => edgeId? ps offset k
    else none

/-- What the points ask for on a path: at each instruction its numbers and then itself, and the
number of an edge between the two instructions that it joins. -/
def asked (points : InstrId → List ProbeId) (edges : InstrId → Nat → Option ProbeId) :
    List (InstrId × Nat) → InstrId → List Event
  | [], z => (points z).map .report ++ [.reach z]
  | (a, k) :: steps, z => (points a).map .report ++ .reach a ::
      ((edges a k).toList.map .report ++ asked points edges steps z)

/-! ## Inserted code -/

/-- An instruction that goes on with the next one and does nothing else to control. -/
def Instruction.Plain (i : Instruction) : Prop := i.targets = [] ∧ i.flow.isTerminal = false

section
variable (m : Method) (n : Nat)

/-- Inserted instructions one behind the other, and the instruction that follows them. -/
inductive Runs : InstrId → List Instruction → InstrId → Prop
  | nil (x : InstrId) : Runs x [] x
  | cons {x x' y : InstrId} {i : Instruction} {code : List Instruction} :
      n ≤ x → m.instruction? x = some i → m.next? x = some x' → Runs x' code y →
        Runs x (i :: code) y

/-- **From `x` control runs through inserted code to the original instruction `v`**, and reports the
numbers `ids`. -/
inductive Enter (d : ProbeDispatch) : InstrId → List ProbeId → InstrId → Prop
  | here {v : InstrId} : v < n → Enter d v [] v
  | probe {x y v : InstrId} {id : ProbeId} {ids : List ProbeId} :
      Runs m n x (d.probe id) y → Enter d y ids v → Enter d x (id :: ids) v
  | jump {x y v : InstrId} {ids : List ProbeId} :
      n ≤ x → m.instruction? x = some (.branch .br y) → Enter d y ids v → Enter d x ids v

end

/-- **A method covers another one.** -/
structure Covers (d : ProbeDispatch) (n : Nat) (points : InstrId → List ProbeId)
    (edges : InstrId → Nat → Option ProbeId) (m m' : Method) : Prop where
  entries : List.Forall₂ (Option.Rel fun a' a => Enter m' n d a' (points a) a) m'.entries m.entries
  dead : ∀ a < n, ∀ k, m.follow? a k = none → m'.follow? a k = none
  live : ∀ a < n, ∀ k b, m.follow? a k = some b →
    ∃ x, m'.follow? a k = some x ∧ Enter m' n d x ((edges a k).toList ++ points b) b

/-! ## The way through inserted code -/

section
variable {m : Method} {d : ProbeDispatch} {n : Nat}

theorem follow?_plain {x y : InstrId} {i : Instruction} (plain : i.Plain)
    (hi : m.instruction? x = some i) (hn : m.next? x = some y) (j : Nat) (b : InstrId) :
    m.follow? x j = some b ↔ j = 0 ∧ b = y := by
  cases j with
  | zero => simp [Method.follow?, hi, plain.2, hn, eq_comm]
  | succ j => simp [Method.follow?, hi, plain.1]

theorem follow?_jump {x y : InstrId} (hi : m.instruction? x = some (.branch .br y)) (j : Nat)
    (b : InstrId) : m.follow? x j = some b ↔ j = 1 ∧ b = y := by
  have terminal : OpCode.br.flow.isTerminal = true := by decide +kernel
  cases j with
  | zero => simp [Method.follow?, hi, Instruction.flow, Instruction.branch, Instruction.fresh, terminal]
  | succ j =>
    cases j with
    | zero =>
      simp [Method.follow?, hi, Instruction.branch, Instruction.fresh, Instruction.targets,
        Operand.targets, eq_comm]
    | succ j =>
      simp [Method.follow?, hi, Instruction.branch, Instruction.fresh, Instruction.targets,
        Operand.targets]

/-- **Steps without a choice**: from `x` they lead to `v`, and each leaves its instruction by the only
edge. -/
structure Forced (m : Method) (x : InstrId) (way : List (InstrId × Nat)) (v : InstrId) : Prop where
  path : m.Path x way v
  only : ∀ s ∈ way, ∀ k b, m.follow? s.1 k = some b → k = s.2

theorem Forced.nil (v : InstrId) : Forced m v [] v := ⟨.stop v, fun _ h => by cases h⟩

theorem Forced.cons {x y v : InstrId} {k : Nat} {way : List (InstrId × Nat)}
    (single : ∀ j b, m.follow? x j = some b ↔ j = k ∧ b = y) (h : Forced m y way v) :
    Forced m x ((x, k) :: way) v where
  path := .step ((single k y).2 ⟨rfl, rfl⟩) h.path
  only := List.forall_mem_cons.2 ⟨fun j b hb => ((single j b).1 hb).1, h.only⟩

/-- **A path along a forced way** takes all of it and goes on, or it ends on it. -/
theorem Forced.cases {x v z : InstrId} {way tail : List (InstrId × Nat)} (h : Forced m x way v)
    (hp : m.Path x tail z) : (∃ rest, tail = way ++ rest ∧ m.Path v rest z) ∨
      ∃ k later, way = tail ++ (z, k) :: later := by
  obtain ⟨path, only⟩ := h
  induction path generalizing tail with
  | stop v => exact .inl ⟨tail, rfl, hp⟩
  | @step x y v k way hf _ ih =>
    obtain ⟨here, later⟩ := List.forall_mem_cons.1 only
    cases hp with
    | stop => exact .inr ⟨k, way, rfl⟩
    | @step _ b _ j tail hf' hp =>
      obtain rfl := here j b hf'
      rw [hf, Option.some.injEq] at hf'
      subst hf'
      rcases ih hp later with ⟨rest, rfl, hrest⟩ | ⟨k', behind, rfl⟩
      · exact .inl ⟨rest, rfl, hrest⟩
      · exact .inr ⟨k', behind, rfl⟩

/-- Where the way is inserted, every path that ends at an original instruction takes all of it. -/
theorem Forced.path_iff {x v : InstrId} {way : List (InstrId × Nat)} (h : Forced m x way v)
    (inserted : ∀ s ∈ way, n ≤ s.1) (tail : List (InstrId × Nat)) (z : InstrId) (hz : z < n) :
    m.Path x tail z ↔ ∃ rest, tail = way ++ rest ∧ m.Path v rest z := by
  constructor
  · intro hp
    rcases h.cases hp with through | ⟨k, later, split⟩
    · exact through
    · exact absurd hz (Nat.not_lt.2 (inserted (z, k) (by simp [split])))
  · rintro ⟨rest, rfl, hp⟩
    exact h.path.append hp

/-- The instructions of a run are a forced way. -/
theorem Runs.forced {x y v : InstrId} {code : List Instruction} {way : List (InstrId × Nat)}
    (h : Runs m n x code y) (plain : ∀ i ∈ code, i.Plain) (behind : Forced m y way v) :
    ∃ xs : List InstrId, (∀ x ∈ xs, n ≤ x) ∧ xs.map m.instruction? = code.map some ∧
      Forced m x (xs.map (·, 0) ++ way) v := by
  induction h with
  | nil => exact ⟨[], fun _ h => (by cases h), rfl, behind⟩
  | cons hx hi hn _ ih =>
    obtain ⟨pi, pcode⟩ := List.forall_mem_cons.1 plain
    obtain ⟨xs, fresh, instrs, forced⟩ := ih pcode behind
    refine ⟨_ :: xs, List.forall_mem_cons.2 ⟨hx, fresh⟩, ?_, .cons (follow?_plain pi hi hn) forced⟩
    rw [List.map_cons, List.map_cons, hi, instrs]

end

/-! ## What probes report -/

section
variable (d : ProbeDispatch)

variable {d} in
/-- The instructions of a probe. -/
theorem mem_probe {id : ProbeId} {i : Instruction} (hi : i ∈ d.probe id) :
    (∃ v, i = .loadInt32 v) ∨ (∃ v, i = .loadInt64 v) ∨ (∃ t, i = .withToken .calli t) ∨
      ∃ t, i = .withToken .call t := by
  cases d with
  | direct function signature width =>
    simp only [ProbeDispatch.probe, ProbeDispatch.callSequence, List.mem_cons, List.not_mem_nil,
      or_false] at hi
    rcases hi with rfl | rfl | rfl
    · exact .inl ⟨_, rfl⟩
    · cases width with
      | bits32 => exact .inl ⟨_, rfl⟩
      | bits64 => exact .inr (.inl ⟨_, rfl⟩)
    · exact .inr (.inr (.inl ⟨_, rfl⟩))
  | trampoline safe =>
    simp only [ProbeDispatch.probe, ProbeDispatch.callSequence, List.mem_cons, List.not_mem_nil,
      or_false] at hi
    rcases hi with rfl | rfl
    · exact .inl ⟨_, rfl⟩
    · exact .inr (.inr (.inr ⟨_, rfl⟩))

theorem probe_plain (id : ProbeId) : ∀ i ∈ d.probe id, i.Plain := by
  have load4 : OpCode.ldcI4.flow.isTerminal = false := by decide +kernel
  have load8 : OpCode.ldcI8.flow.isTerminal = false := by decide +kernel
  have calli : OpCode.calli.flow.isTerminal = false := by decide +kernel
  have call : OpCode.call.flow.isTerminal = false := by decide +kernel
  intro i hi
  rcases mem_probe hi with ⟨v, rfl⟩ | ⟨v, rfl⟩ | ⟨t, rfl⟩ | ⟨t, rfl⟩
  · exact ⟨rfl, load4⟩
  · exact ⟨rfl, load8⟩
  · exact ⟨rfl, calli⟩
  · exact ⟨rfl, call⟩

theorem reportAt?_probe (id : ProbeId) (rest : List Instruction) :
    reportAt? d (d.probe id ++ rest) = some id := by
  have head : (d.probe id ++ rest).head?.map Instruction.operand = some (.int32 id.toInt32) := rfl
  unfold reportAt?
  rw [head]
  simp

theorem prefix_of_reportAt? {d : ProbeDispatch} {code : List Instruction} {id : ProbeId}
    (h : reportAt? d code = some id) : d.probe id <+: code := by
  unfold reportAt? at h
  split at h
  · split at h
    · rename_i starts
      cases h
      exact List.isPrefixOf_iff_prefix.1 starts
    · cases h
  · cases h

/-- The call of a probe reports nothing on its own. -/
theorem reportAt?_call {code : List Instruction} (h : code <:+ d.callSequence) (ne : code ≠ [])
    (rest : List Instruction) : reportAt? d (code ++ rest) = none := by
  have token : ∀ (op : OpCode) (t : Token) (l : List Instruction),
      reportAt? d (.withToken op t :: l) = none := fun _ _ _ => rfl
  cases d with
  | direct function signature width =>
    simp only [ProbeDispatch.callSequence, List.suffix_cons_iff, List.suffix_nil, ne, or_false] at h
    rcases h with rfl | rfl
    · cases width with
      | bits64 => rfl
      | bits32 =>
        -- The pointer looks like a number, but no pointer follows it.
        rw [Option.eq_none_iff_forall_ne_some]
        intro id hid
        have := prefix_of_reportAt? hid
        simp [ProbeDispatch.probe, ProbeDispatch.callSequence, loadPointer, Instruction.loadInt32,
          Instruction.withToken, Instruction.fresh, OpCode.ldcI4, OpCode.calli] at this
    · exact token _ _ _
  | trampoline safe =>
    simp only [ProbeDispatch.callSequence, List.suffix_cons_iff, List.suffix_nil, ne, or_false] at h
    subst h
    exact token _ _ _

theorem filterMap_of_map_some {α β : Type} {f : α → Option β} {xs : List α} {ys : List β}
    (h : xs.map f = ys.map some) : xs.filterMap f = ys := by
  have := congrArg (List.filterMap fun o => o) h
  simpa [List.filterMap_map, Function.comp_def] using this

theorem observe_call {m : Method} {n : Nat} {xs rest : List InstrId} {code : List Instruction}
    (h : code <:+ d.callSequence) (fresh : ∀ x ∈ xs, n ≤ x)
    (instrs : xs.map m.instruction? = code.map some) :
    observe m d n (xs ++ rest) = observe m d n rest := by
  induction xs generalizing code with
  | nil => rfl
  | cons x xs ih =>
    cases code with
    | nil => cases instrs
    | cons i code =>
      obtain ⟨hx, fresh⟩ := List.forall_mem_cons.1 fresh
      obtain ⟨hi, instrs⟩ := List.cons.inj instrs
      have executed : (x :: (xs ++ rest)).filterMap m.instruction?
          = (i :: code) ++ rest.filterMap m.instruction? := by
        simp [hi, filterMap_of_map_some instrs, List.filterMap_append]
      rw [List.cons_append, observe, if_neg (Nat.not_lt.2 hx), executed,
        reportAt?_call d h (List.cons_ne_nil _ _),
        ih ((List.suffix_cons i code).trans h) fresh instrs]
      rfl

/-- **A probe reports its number.** -/
theorem observe_probe {m : Method} {n : Nat} {xs rest : List InstrId} {id : ProbeId}
    (fresh : ∀ x ∈ xs, n ≤ x) (instrs : xs.map m.instruction? = (d.probe id).map some) :
    observe m d n (xs ++ rest) = .report id :: observe m d n rest := by
  cases xs with
  | nil => cases instrs
  | cons x xs =>
    obtain ⟨hx, fresh⟩ := List.forall_mem_cons.1 fresh
    obtain ⟨hi, instrs⟩ := List.cons.inj instrs
    have executed : (x :: (xs ++ rest)).filterMap m.instruction?
        = d.probe id ++ rest.filterMap m.instruction? := by
      simp [hi, filterMap_of_map_some instrs, List.filterMap_append, ProbeDispatch.probe]
    rw [List.cons_append, observe, if_neg (Nat.not_lt.2 hx), executed, reportAt?_probe,
      observe_call d List.suffix_rfl fresh instrs]
    rfl

end

/-! ## Simulation -/

section
variable {m m' : Method} {d : ProbeDispatch} {n : Nat}

theorem Enter.original {x v : InstrId} {ids : List ProbeId} (h : Enter m n d x ids v) : v < n := by
  induction h with
  | here hv => exact hv
  | probe _ _ ih => exact ih
  | jump _ _ _ ih => exact ih

/-- **The way to an original instruction is forced**, and it is made of probes and jumps: what passes
over them holds of all its instructions. -/
theorem Enter.along {R : List InstrId → List ProbeId → Prop} (nil : R [] [])
    (probe : ∀ xs ys id ids, (∀ x ∈ xs, n ≤ x) → xs.map m.instruction? = (d.probe id).map some →
      R ys ids → R (xs ++ ys) (id :: ids))
    (jump : ∀ x t ys ids, n ≤ x → m.instruction? x = some (.branch .br t) → R ys ids →
      R (x :: ys) ids)
    {x v : InstrId} {ids : List ProbeId} (h : Enter m n d x ids v) :
    ∃ way, Forced m x way v ∧ (∀ s ∈ way, n ≤ s.1) ∧ R (way.map Prod.fst) ids := by
  induction h with
  | @here v _ => exact ⟨[], .nil v, fun _ h => (by cases h), nil⟩
  | @probe x y v id ids run _ ih =>
    obtain ⟨way, behind, inserted, holds⟩ := ih
    obtain ⟨xs, fresh, instrs, forced⟩ := run.forced (probe_plain d id) behind
    refine ⟨_, forced, fun s hs => ?_, ?_⟩
    · rcases List.mem_append.1 hs with hs | hs
      · obtain ⟨x, hx, rfl⟩ := List.mem_map.1 hs
        exact fresh x hx
      · exact inserted s hs
    · have nodes : (xs.map fun x => (x, 0)).map Prod.fst = xs := by
        simp [Function.comp_def]
      rw [List.map_append, nodes]
      exact probe xs _ id ids fresh instrs holds
  | @jump x y v ids hx hi _ ih =>
    obtain ⟨way, behind, inserted, holds⟩ := ih
    exact ⟨(x, 1) :: way, .cons (follow?_jump hi) behind,
      List.forall_mem_cons.2 ⟨hx, inserted⟩, jump x y _ ids hx hi holds⟩

/-- What is reported on the way to an original instruction is known. -/
theorem Enter.forced {x v : InstrId} {ids : List ProbeId} (h : Enter m n d x ids v) :
    ∃ way, Forced m x way v ∧ (∀ s ∈ way, n ≤ s.1) ∧ ∀ rest,
      observe m d n (way.map Prod.fst ++ rest) = ids.map .report ++ observe m d n rest := by
  refine h.along (R := fun ys ids => ∀ rest,
    observe m d n (ys ++ rest) = ids.map .report ++ observe m d n rest) (fun _ => rfl) ?_ ?_
  · intro xs ys id ids fresh instrs reports rest
    rw [List.append_assoc, observe_probe d fresh instrs, reports]
    rfl
  · intro x t ys ids hx hi reports rest
    have silent : reportAt? d ((x :: (ys ++ rest)).filterMap m.instruction?) = none := by
      simp only [List.filterMap_cons, hi]
      rfl
    rw [List.cons_append, observe, if_neg (Nat.not_lt.2 hx), silent, reports]
    rfl

variable {points : InstrId → List ProbeId} {edges : InstrId → Nat → Option ProbeId}

theorem Method.originals_inserted {way : List (InstrId × Nat)} (h : ∀ s ∈ way, n ≤ s.1) :
    originals n way = [] := by
  rw [originals, List.filter_eq_nil_iff]
  intro s hs
  simpa using h s hs

theorem Method.originals_append {way rest : List (InstrId × Nat)} (h : ∀ s ∈ way, n ≤ s.1) :
    originals n (way ++ rest) = originals n rest := by
  have split : originals n (way ++ rest) = originals n way ++ originals n rest :=
    List.filter_append ..
  rw [split, originals_inserted h, List.nil_append]

theorem Method.originals_cons {s : InstrId × Nat} {rest : List (InstrId × Nat)} (h : s.1 < n) :
    originals n (s :: rest) = s :: originals n rest := by
  unfold originals
  rw [List.filter_cons, if_pos (decide_eq_true h)]

theorem observe_original {x : InstrId} (hx : x < n) (rest : List InstrId) :
    observe m d n (x :: rest) = .reach x :: observe m d n rest := by
  rw [observe, if_pos hx]
  rfl

/-- **Every path of the original method is one of the covering method**, with one way to put inserted
instructions between the steps, and what it reports is what the points ask for. -/
theorem Covers.path (covers : Covers d n points edges m m') {a z : InstrId}
    {steps : List (InstrId × Nat)} (hp : m.Path a steps z) {x : InstrId} {pre : List ProbeId}
    (enter : Enter m' n d x (pre ++ points a) a) :
    z < n ∧ ∃ tail, m'.Path x tail z ∧ Method.originals n tail = steps ∧
      observe m' d n (Method.visited tail z) = pre.map .report ++ asked points edges steps z ∧
      ∀ other, m'.Path x other z → Method.originals n other = steps → other = tail := by
  induction hp generalizing x pre with
  | stop a =>
    have ha := enter.original
    obtain ⟨way, forced, inserted, reports⟩ := enter.forced
    have path := forced.path_iff inserted
    refine ⟨ha, way, (path _ _ ha).2 ⟨[], (List.append_nil _).symm, .stop a⟩, ?_, ?_, ?_⟩
    · rw [← List.append_nil way, Method.originals_append inserted]
      rfl
    · rw [Method.visited, reports, observe_original ha, List.map_append, List.append_assoc]
      rfl
    · intro other hother none
      obtain ⟨rest, rfl, hrest⟩ := (path _ _ ha).1 hother
      rw [Method.originals_append inserted] at none
      cases rest with
      | nil => exact List.append_nil way
      | cons s rest =>
        obtain ⟨rfl, -⟩ := Method.Path.cons_iff.1 hrest
        rw [Method.originals_cons ha] at none
        cases none
  | @step a b z k steps hf _ ih =>
    have ha := enter.original
    obtain ⟨way, forced, inserted, reports⟩ := enter.forced
    have path := forced.path_iff inserted
    obtain ⟨x', hf', enter'⟩ := covers.live a ha k b hf
    obtain ⟨hz, tail, hp, hsteps, observed, unique⟩ := ih enter'
    refine ⟨hz, way ++ (a, k) :: tail, (path _ _ hz).2 ⟨_, rfl, .step hf' hp⟩, ?_, ?_, ?_⟩
    · rw [Method.originals_append inserted, Method.originals_cons ha, hsteps]
    · have split : Method.visited (way ++ (a, k) :: tail) z
          = way.map Prod.fst ++ a :: Method.visited tail z := by
        simp [Method.visited]
      rw [split, reports, observe_original ha, observed, asked, List.map_append, List.append_assoc]
    · intro other hother horig
      obtain ⟨rest, rfl, hrest⟩ := (path _ _ hz).1 hother
      rw [Method.originals_append inserted] at horig
      cases rest with
      | nil => cases horig
      | cons s rest =>
        obtain ⟨c, j⟩ := s
        obtain ⟨rfl, y, hy, hrest⟩ := Method.Path.cons_iff.1 hrest
        rw [Method.originals_cons ha] at horig
        obtain ⟨edge, later⟩ := List.cons.inj horig
        obtain ⟨-, rfl⟩ := Prod.mk.inj edge
        rw [hf', Option.some.injEq] at hy
        subst hy
        rw [unique rest hrest later]

/-- **A path cut at the original instructions**: between the steps of a path of the original method are
ways through inserted code, with `L`, and it may end on such a way. -/
inductive Retraces (m : Method) (n : Nat) (L : List InstrId → Prop) :
    InstrId → List (InstrId × Nat) → InstrId → Prop
  | onWay {a z : InstrId} {tail : List (InstrId × Nat)} {later : List InstrId} :
      (∀ s ∈ tail, n ≤ s.1) → n ≤ z → L (Method.visited tail z ++ later) → Retraces m n L a tail z
  | arrive {a : InstrId} {way : List (InstrId × Nat)} : (∀ s ∈ way, n ≤ s.1) → a < n →
      L (way.map Prod.fst) → Retraces m n L a way a
  | step {a b z : InstrId} {k : Nat} {way rest : List (InstrId × Nat)} : (∀ s ∈ way, n ≤ s.1) →
      a < n → L (way.map Prod.fst) → m.follow? a k = some b → Retraces m n L b rest z →
        Retraces m n L a (way ++ (a, k) :: rest) z

/-- The steps at original instructions are a path of the original method. -/
theorem Retraces.path {L : List InstrId → Prop} {a z : InstrId} {tail : List (InstrId × Nat)}
    (h : Retraces m n L a tail z) :
    ∃ v, m.Path a (Method.originals n tail) v ∧ (z < n → v = z) := by
  induction h with
  | @onWay a _ _ _ inserted hz _ =>
    rw [Method.originals_inserted inserted]
    exact ⟨a, .stop a, fun lt => absurd lt (Nat.not_lt.2 hz)⟩
  | @arrive a _ inserted _ _ =>
    rw [Method.originals_inserted inserted]
    exact ⟨a, .stop a, fun _ => rfl⟩
  | step inserted ha _ hf _ ih =>
    obtain ⟨v, hv, last⟩ := ih
    rw [Method.originals_append inserted, Method.originals_cons ha]
    exact ⟨v, .step hf hv, last⟩

/-- **Every path of the covering method** retraces one of the original method. -/
theorem Covers.retraces (covers : Covers d n points edges m m') {L : List InstrId → Prop}
    (along : ∀ {x v ids}, Enter m' n d x ids v →
      ∃ way, Forced m' x way v ∧ (∀ s ∈ way, n ≤ s.1) ∧ L (way.map Prod.fst))
    {tail : List (InstrId × Nat)} {a x z : InstrId} {ids : List ProbeId}
    (enter : Enter m' n d x ids a) (hp : m'.Path x tail z) : Retraces m n L a tail z := by
  -- The way to `a` may be empty, so the induction is on the length of what is left.
  induction hlen : tail.length using Nat.strong_induction_on generalizing tail a x ids with
  | _ length ih =>
    have ha := enter.original
    obtain ⟨way, forced, inserted, holds⟩ := along enter
    rcases forced.cases hp with ⟨rest, rfl, hrest⟩ | ⟨k, later, rfl⟩
    · cases rest with
      | nil =>
        rw [Method.Path.nil_iff] at hrest
        subst hrest
        rw [List.append_nil]
        exact .arrive inserted ha holds
      | cons s rest =>
        obtain ⟨rfl, x', hf, hrest⟩ := Method.Path.cons_iff.1 hrest
        cases hm : m.follow? s.1 s.2 with
        | none =>
          rw [covers.dead _ ha _ hm] at hf
          cases hf
        | some b =>
          obtain ⟨y, hy, enter'⟩ := covers.live _ ha _ b hm
          rw [hf, Option.some.injEq] at hy
          subst hy
          have shorter : rest.length < length := by
            rw [← hlen, List.length_append, List.length_cons]
            omega
          exact .step inserted ha holds hm (ih _ shorter enter' hrest rfl)
    · have split : (tail ++ (z, k) :: later).map Prod.fst
          = Method.visited tail z ++ later.map Prod.fst := by
        simp [Method.visited]
      rw [split] at holds
      refine .onWay (fun s hs => inserted s (List.mem_append_left _ hs)) ?_ holds
      exact inserted (z, k) (List.mem_append_right _ List.mem_cons_self)

/-- **Every path that ends at an original instruction** takes original steps along a path of the
original method. -/
theorem Covers.path_back (covers : Covers d n points edges m m') {z : InstrId} (hz : z < n)
    {tail : List (InstrId × Nat)} {a x : InstrId} {ids : List ProbeId} (enter : Enter m' n d x ids a)
    (hp : m'.Path x tail z) : m.Path a (Method.originals n tail) z := by
  have retraces : Retraces m n (fun _ => True) a tail z := by
    refine covers.retraces (fun enter => ?_) enter hp
    obtain ⟨way, forced, inserted, -⟩ := enter.forced
    exact ⟨way, forced, inserted, trivial⟩
  obtain ⟨v, hv, last⟩ := retraces.path
  rwa [last hz] at hv

/-- **The paths of the covering method** that end at an original instruction are the paths of the
original method. -/
theorem Covers.bijOn (covers : Covers d n points edges m m') {x a : InstrId}
    (enter : Enter m' n d x (points a) a) :
    Set.BijOn (fun p : List (InstrId × Nat) × InstrId => (Method.originals n p.1, p.2))
      {p | m'.Path x p.1 p.2 ∧ p.2 < n} {p | m.Path a p.1 p.2} := by
  have enter' : Enter m' n d x ([] ++ points a) a := enter
  refine ⟨?_, ?_, ?_⟩
  · rintro ⟨tail, z⟩ ⟨hp, hz⟩
    exact covers.path_back hz enter hp
  · rintro ⟨tail₁, z₁⟩ ⟨hp₁, hz₁⟩ ⟨tail₂, z₂⟩ ⟨hp₂, -⟩ same
    obtain ⟨same, rfl⟩ := Prod.mk.inj same
    obtain ⟨-, tail, -, -, -, unique⟩ := covers.path (covers.path_back hz₁ enter hp₁) enter'
    rw [unique tail₁ hp₁ rfl, unique tail₂ hp₂ same.symm]
  · rintro ⟨steps, z⟩ hp
    obtain ⟨hz, tail, hp', rfl, -⟩ := covers.path hp enter'
    exact ⟨(tail, z), ⟨hp', hz⟩, rfl⟩

/-- **What is observed on a path** of the covering method is what the points ask for. -/
theorem Covers.observed (covers : Covers d n points edges m m') {x a z : InstrId}
    (enter : Enter m' n d x (points a) a) {tail : List (InstrId × Nat)} (hp : m'.Path x tail z)
    (hz : z < n) : observe m' d n (Method.visited tail z)
      = asked points edges (Method.originals n tail) z := by
  have enter' : Enter m' n d x ([] ++ points a) a := enter
  obtain ⟨-, tail', -, -, observed, unique⟩ := covers.path (covers.path_back hz enter hp) enter'
  rw [unique tail hp rfl]
  rw [unique tail hp rfl] at observed
  exact observed

end

end CilProbes
