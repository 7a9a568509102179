import CilProbes.Proofs.Coverage.Passes
import CilProbes.Proofs.Writing.Again

/-!
# Instrumentation of an instrumented body

The guard looks for the probe of the lowest point at the offset that the point names. In a body
that was instrumented this is an offset of the new code, while the point goes by the old one: the
guard holds if and only if the probe stands at that very offset (`CarriesAt`), and blocks and wider
branches in front of it move it away.

* `isInstrumented_iff`: what the guard asks of a body that was written.
* `first_probe`: a probe at the first instruction is the first thing in the new code.
* `guard_of_written`: the guard of a body that was instrumented and written.
* `instrument_again`: when a second pass leaves the body alone.
-/

namespace CilProbes

open Logged Layout

/-- What an instruction is, wherever it stands. -/
def Instruction.text (i : Instruction) : OpCode × Operand InstrId := (i.opcode, i.operand)

/-- **The method has some code at an offset**, by the offsets of its last encoding. -/
def Method.CarriesAt (m : Method) (offset : Nat) (code : List Instruction) : Prop :=
  ∃ pre i post, m.sequence.map Prod.snd = pre ++ i :: post ∧ i.offset = offset ∧
    code.map Instruction.text <+: (i :: post).map Instruction.text

/-! ## Comparing with a probe -/

/-- An instruction with a whole number or a token. -/
def Instruction.Constant (i : Instruction) : Prop :=
  (∃ v, i.operand = .int32 v) ∨ (∃ v, i.operand = .int64 v) ∨ ∃ t, i.operand = .token t

theorem constant_probe (d : ProbeDispatch) (id : ProbeId) : ∀ i ∈ d.probe id, i.Constant := by
  intro i hi
  rcases mem_probe hi with ⟨v, rfl⟩ | ⟨v, rfl⟩ | ⟨t, rfl⟩ | ⟨t, rfl⟩
  · exact .inl ⟨v, rfl⟩
  · exact .inr (.inl ⟨v, rfl⟩)
  · exact .inr (.inr ⟨t, rfl⟩)
  · exact .inr (.inr ⟨t, rfl⟩)

/-- An instruction of a body is compared with a constant one as if its targets were not renumbered. -/
theorem sameAs_iff {i j : Instruction} {place : InstrId → InstrId} {origin : Option Nat}
    (hj : j.Constant) :
    Instruction.sameAs { i with operand := i.operand.map place, origin := origin } j = true ↔
      j.text = i.text := by
  have operand : (i.operand.map place).sameAs j.operand = true ↔ i.operand = j.operand := by
    rcases hj with ⟨v, hv⟩ | ⟨v, hv⟩ | ⟨t, ht⟩
    · rw [hv]
      cases i.operand <;> simp [Operand.map, Operand.sameAs]
    · rw [hv]
      cases i.operand <;> simp [Operand.map, Operand.sameAs]
    · rw [ht]
      cases i.operand <;> simp [Operand.map, Operand.sameAs]
  unfold Instruction.sameAs Instruction.text
  rw [Bool.and_eq_true, operand, beq_iff_eq, Prod.mk.injEq, eq_comm, eq_comm (a := i.operand)]

theorem startsWith_iff {is js : List Instruction} {place : InstrId → InstrId}
    (constant : ∀ j ∈ js, j.Constant) :
    startsWith (is.map fun i =>
        { i with operand := i.operand.map place, origin := some i.offset }) js = true ↔
      js.map Instruction.text <+: is.map Instruction.text := by
  induction js generalizing is with
  | nil => simp [startsWith]
  | cons j js ih =>
    obtain ⟨hj, hjs⟩ := List.forall_mem_cons.1 constant
    cases is with
    | nil => simp [startsWith]
    | cons i is =>
      rw [List.map_cons, startsWith, Bool.and_eq_true, ih hjs, List.map_cons, List.map_cons,
        List.cons_prefix_cons]
      exact and_congr_left' (sameAs_iff hj)

/-! ## The guard -/

/-- In a method numbered in order, the instructions from one on are the rest of the stock. -/
theorem sequenceFrom_of_range {m : Method} (range : m.order = List.range m.stock.size) {k : Nat}
    (hk : k < m.stock.size) : m.sequenceFrom k = m.stock.toList.drop k := by
  have behind : m.order.dropWhile (· != k) = (List.range m.stock.size).drop k := by
    have before : ∀ j ∈ (List.range m.stock.size).take k, (j != k) = true := by
      intro j hj
      rw [List.take_range, List.mem_range] at hj
      rw [bne_iff_ne]
      omega
    have from_k : (List.range m.stock.size).drop k
        = k :: (List.range m.stock.size).drop (k + 1) := by
      rw [List.drop_eq_getElem_cons (by rwa [List.length_range]), List.getElem_range]
    rw [range]
    conv => lhs; rw [← List.take_append_drop k (List.range m.stock.size)]
    rw [List.dropWhile_append_of_pos before, from_k, List.dropWhile_cons_of_neg (by simp)]
  have instructions : (List.range m.stock.size).map (fun j => m.stock[j]?)
      = m.stock.toList.map some := by
    refine List.ext_getElem (by simp) fun j hj _ => ?_
    simp
  unfold Method.sequenceFrom
  rw [behind]
  refine filterMap_of_map_some ?_
  rw [List.map_drop, instructions, List.map_drop]

theorem stock_renumbered (m : Method) : m.renumbered.stock.toList
    = (m.sequence.map Prod.snd).map fun i =>
      { i with operand := i.operand.map m.order.idxOf, origin := some i.offset } := by
  rw [List.map_map]
  rfl

theorem origin?_renumbered (m : Method) (k : Nat) :
    m.renumbered.origin? k = (m.sequence.map Prod.snd)[k]?.map (·.offset) := by
  unfold Method.origin? Method.instruction?
  rw [← Array.getElem?_toList, stock_renumbered, List.getElem?_map]
  cases (m.sequence.map Prod.snd)[k]? <;> rfl

/-- From an instruction on, a written body is compared with a probe as the method is. -/
theorem startsWith_renumbered {m : Method} (ordered : m.Ordered) {d : ProbeDispatch} {id : ProbeId}
    {k : Nat} (hk : k < (m.sequence.map Prod.snd).length) :
    startsWith (m.renumbered.sequenceFrom k) (d.probe id) = true ↔
      (d.probe id).map Instruction.text
        <+: ((m.sequence.map Prod.snd).drop k).map Instruction.text := by
  have bound : k < m.renumbered.stock.size := by
    rwa [← Array.length_toList, stock_renumbered, List.length_map]
  rw [sequenceFrom_of_range (order_renumbered ordered) bound, stock_renumbered, ← List.map_drop]
  exact startsWith_iff (constant_probe d id)

/-- **What the guard asks** of a body that was written. -/
theorem isInstrumented_iff {m : Method} (ordered : m.Ordered) (closed : m.renumbered.Closed)
    {p : Points} {d : ProbeDispatch} {first : SequencePoint} (hf : p.first? = some first) :
    m.renumbered.isInstrumented p d = true ↔ m.CarriesAt first.offset (d.probe first.id) := by
  have found : ∀ k, m.renumbered.findOrigin? first.offset = some k ↔
      m.renumbered.origin? k = some first.offset := by
    intro k
    rw [(Method.Extends.refl closed.ordered).findOrigin?_iff closed]
    refine ⟨And.right, fun h => ⟨?_, h⟩⟩
    exact ((Method.Extends.refl closed.ordered).origin?_iff.1 h).1
  unfold Method.isInstrumented
  simp only [hf]
  constructor
  · intro h
    cases hk : m.renumbered.findOrigin? first.offset with
    | none => simp [hk] at h
    | some k =>
      simp only [hk] at h
      have origin := (found k).1 hk
      rw [origin?_renumbered] at origin
      obtain ⟨i, hi, offset⟩ := Option.map_eq_some_iff.1 origin
      obtain ⟨lt, e⟩ := List.getElem?_eq_some_iff.1 hi
      have rest : (m.sequence.map Prod.snd).drop k = i :: (m.sequence.map Prod.snd).drop (k + 1) := by
        rw [← e]
        exact List.drop_eq_getElem_cons lt
      refine ⟨(m.sequence.map Prod.snd).take k, i, (m.sequence.map Prod.snd).drop (k + 1), ?_,
        offset, ?_⟩
      · rw [← rest, List.take_append_drop]
      · rw [← rest]
        exact (startsWith_renumbered ordered lt).1 h
  · rintro ⟨pre, i, post, split, offset, starts⟩
    have hi : (m.sequence.map Prod.snd)[pre.length]? = some i := by
      rw [split]
      simp
    have hk : m.renumbered.findOrigin? first.offset = some pre.length := by
      rw [found, origin?_renumbered, hi, ← offset]
      rfl
    simp only [hk]
    rw [startsWith_renumbered ordered (List.getElem?_eq_some_iff.1 hi).1, split, List.drop_left']
    · exact starts
    · rfl

/-! ## The first probe -/

/-- The lower of two points, the first one where offsets agree. -/
def SequencePoint.lower (b q : SequencePoint) : SequencePoint := if q.offset < b.offset then q else b

theorem head?_enter (b : SequencePoint) (qs : List SequencePoint) :
    (b.enter qs).head? = some (qs.head?.elim b b.lower) := by
  cases qs with
  | nil => rfl
  | cons q qs =>
    rw [SequencePoint.enter]
    show _ = some (b.lower q)
    unfold SequencePoint.lower
    split
    · rw [if_neg (by omega)]
      rfl
    · rw [if_pos (by omega)]
      rfl

theorem lower_assoc (b q r : SequencePoint) : b.lower (q.lower r) = (b.lower q).lower r := by
  unfold SequencePoint.lower
  split_ifs <;> first | rfl | omega

/-- **The lowest point** is the first one in offset order. -/
theorem first?_eq (p : Points) : p.first? = (inOffsetOrder p.sequence).head? := by
  obtain ⟨f, fold, start, next⟩ : ∃ f : Option SequencePoint → SequencePoint → Option SequencePoint,
      p.first? = p.sequence.foldl f none ∧ (∀ q, f none q = some q) ∧
        ∀ b q, f (some b) q = some (b.lower q) :=
    ⟨_, rfl, fun _ => rfl, fun _ _ => (apply_ite some ..).symm⟩
  have lowest : ∀ qs b,
      qs.foldl f (some b) = some ((inOffsetOrder qs).head?.elim b b.lower) := by
    intro qs
    induction qs with
    | nil => exact fun _ => rfl
    | cons q qs ih =>
      intro b
      rw [List.foldl_cons, next, ih]
      show _ = some ((q.enter (inOffsetOrder qs)).head?.elim b b.lower)
      rw [head?_enter]
      cases (inOffsetOrder qs).head? with
      | none => rfl
      | some r => exact congrArg some (lower_assoc b q r).symm
  rw [fold]
  cases p.sequence with
  | nil => rfl
  | cons q qs =>
    rw [List.foldl_cons, start, lowest]
    exact (head?_enter q (inOffsetOrder qs)).symm

/-- **A run of new code stands in the order** as it is executed. -/
theorem Runs.order {m : Method} {n : Nat} {x y : InstrId} {code : List Instruction}
    (ordered : m.Ordered) (run : Runs m n x code y) {pre suf : List InstrId}
    (split : m.order = pre ++ suf) (start : suf.head? = some x) :
    ∃ xs post, suf = xs ++ post ∧ xs.map m.instruction? = code.map some := by
  induction run generalizing pre suf with
  | nil x => exact ⟨[], suf, rfl, rfl⟩
  | @cons x x' y i code hx hi hn _ ih =>
    cases suf with
    | nil => cases start
    | cons z suf =>
      cases start
      have absent : x ∉ pre := by
        intro mem
        have nodup := ordered.nodup
        rw [split] at nodup
        exact (List.nodup_append.1 nodup).2.2 x mem x List.mem_cons_self rfl
      have next : suf.head? = some x' := by
        rw [← hn, Method.next?_eq, split, after?_at absent]
      have split' : m.order = (pre ++ [x]) ++ suf := by
        rw [split]
        simp
      obtain ⟨xs, post, rfl, instrs⟩ := ih split' next
      exact ⟨x :: xs, post, rfl, by rw [List.map_cons, hi, instrs, List.map_cons]⟩

/-- What the pass over the sequence points keeps when the first one names the first instruction: its
probe is what control runs through first. -/
structure FirstDone (d : ProbeDispatch) (m m₁ : Method) (id : ProbeId) (done : List SequencePoint)
    (m' : Method) : Prop where
  extends_ : m.Extends m'
  untouched : done = [] → m' = m₁
  placed : done ≠ [] → ∃ x y, m.nextId ≤ x ∧ m'.first? = some x ∧
    Runs m' m.nextId x (d.probe id) y

section
variable {m m₁ m' : Method} {d : ProbeDispatch} {a : InstrId} {first q : SequencePoint}
  {done : List SequencePoint}

theorem FirstDone.step (inv : FirstDone d m m₁ first.id done m') (closed : m.Closed)
    (start : m₁.first? = some a) (ho : m.origin? a = some first.offset)
    (lowest : done = [] → q = first) {count : Nat} {r : Nat × Method}
    (h : (Method.addSequencePoint d (count, m') q).Yields r) :
    FirstDone d m m₁ first.id (done ++ [q]) r.2 := by
  have named : ∀ {b o}, m'.findOrigin? o = some b ↔ b < m.nextId ∧ m.origin? b = some o :=
    inv.extends_.findOrigin?_iff closed
  rcases addSequencePoint_cases h with ⟨unknown, rfl⟩ | ⟨b, ids, m₂, found, inserted, rfl⟩
  · have later : done ≠ [] := by
      intro none
      have ha := ((Method.Extends.refl closed.ordered).origin?_iff.1 ho).1
      rw [lowest none, named.2 ⟨ha, ho⟩] at unknown
      cases unknown
    exact ⟨inv.extends_, fun e => absurd e (by simp), fun _ => inv.placed later⟩
  · obtain ⟨hb, hbo⟩ := named.1 found
    have ins := Method.insert_before inv.extends_.ordered (List.cons_ne_nil _ _) inserted
    refine ⟨inv.extends_.addSequencePoint h, fun e => absurd e (by simp), fun _ => ?_⟩
    by_cases none : done = []
    · -- The probe goes in front of the first instruction, which it replaces as the first one.
      have hq := lowest none
      subst hq
      have hba : b = a := closed.distinct b a _ hbo ho
      subst hba
      have code : Inserted m₂ m'.nextId (d.probe q.id) (some b) := ⟨ins.fresh, ins.fresh_next⟩
      refine ⟨m'.nextId, b, inv.extends_.grown, ?_, ?_⟩
      · rw [ins.first, inv.untouched none, start, Option.map_some, if_pos rfl]
      · refine runs_of_segment code inv.extends_.grown [] [] (List.append_nil _).symm ?_ ?_
        · exact if_pos (Nat.succ_pos _)
        · refine if_neg ?_
          rw [List.length_nil, Nat.zero_add]
          exact Nat.lt_irrefl _
    · obtain ⟨x, y, fresh, hx, run⟩ := inv.placed none
      have distinct : ∀ c, m.origin? c = some q.offset ↔ c = b :=
        fun c => ⟨fun hc => closed.distinct c b _ hc hbo, fun e => e ▸ hbo⟩
      have ne : x ≠ b := Nat.ne_of_gt (Nat.lt_of_lt_of_le hb fresh)
      have moved := run.moved (moved_before hb inv.extends_.grown distinct ins)
        (probe_plain d first.id)
      rw [if_neg ne] at moved
      refine ⟨x, _, fresh, ?_, moved⟩
      rw [ins.first, hx, Option.map_some, if_neg ne]

/-- **A probe at the first instruction** is what control runs through first. -/
theorem first_probe {qs : List SequencePoint} (closed : m.Closed) (hext : m.Extends m₁)
    (start : m₁.first? = some a) (ho : m.origin? a = some first.offset)
    (lowest : (inOffsetOrder qs).head? = some first) {r : Nat × Method}
    (h : (m₁.addSequenceCoverage qs d).Yields r) :
    ∃ x y, r.2.first? = some x ∧ Runs r.2 m.nextId x (d.probe first.id) y := by
  have finish : FirstDone d m m₁ first.id (inOffsetOrder qs) r.2 := by
    unfold Method.addSequenceCoverage at h
    refine yields_foldlM (P := fun done r => FirstDone d m m₁ first.id done r.2) h
      ⟨hext, fun _ => rfl, fun ne => absurd rfl ne⟩ ?_
    rintro done q rest ⟨count, m'⟩ r' split inv step
    refine inv.step closed start ho (fun none => ?_) step
    rw [split, none] at lowest
    exact Option.some.inj lowest
  have ne : inOffsetOrder qs ≠ [] := by
    intro e
    rw [e] at lowest
    cases lowest
  obtain ⟨x, y, -, hx, run⟩ := finish.placed ne
  exact ⟨x, y, hx, run⟩

/-- A point that names an instruction is counted only in a method that has one. -/
theorem nonempty_of_count {qs : List SequencePoint} (closed : m.Closed) (hext : m.Extends m₁)
    {r : Nat × Method} (h : (m₁.addSequenceCoverage qs d).Yields r) (counted : 0 < r.1) :
    0 < m.nextId := by
  have finish : m.Extends r.2 ∧ (0 < r.1 → 0 < m.nextId) := by
    unfold Method.addSequenceCoverage at h
    refine yields_foldlM (P := fun _ r => m.Extends r.2 ∧ (0 < r.1 → 0 < m.nextId)) h
      ⟨hext, fun h => absurd h (Nat.lt_irrefl 0)⟩ ?_
    rintro _ q rest ⟨count, m'⟩ r' - ⟨ext, named⟩ step
    refine ⟨ext.addSequencePoint step, ?_⟩
    rcases addSequencePoint_cases step with ⟨-, rfl⟩ | ⟨b, ids, m₂, found, -, rfl⟩
    · exact named
    · have hb := ((ext.findOrigin?_iff closed).1 found).1
      exact fun _ => Nat.lt_of_le_of_lt (Nat.zero_le b) hb
  exact finish.2 counted

end

/-- In a body that is not empty, the first instruction is at offset zero. -/
theorem first_of_decode {body : Bytes} {m : Method} (decoded : Method.decode body = .ok m)
    (nonempty : 0 < m.nextId) : ∃ a, m.first? = some a ∧ m.origin? a = some 0 := by
  have range := Method.decode_order decoded
  obtain ⟨h, rs, cs, isBody, rfl⟩ := (decode_iff body m).1 decoded
  have tiled := isBody.tiled
  generalize (body.drop h.size).take h.codeSize.toNat = code at tiled
  cases tiled with
  | nil => exact absurd nonempty (Nat.lt_irrefl 0)
  | @cons _ b bs q rs stands _ =>
    refine ⟨0, ?_, ?_⟩
    · show (List.range (rs.length + 1)).head? = some 0
      rw [List.range_succ_eq_map]
      rfl
    · rw [origin?_linked]
      exact congrArg some stands.1

/-! ## Writing the new code -/

/-- Where the code of a method starts with constant instructions, so does the written code. -/
theorem carriesAt_zero {m m' : Method} {compact : Bool} {bytes : Bytes} {n : Nat} {x y : InstrId}
    {code : List Instruction} (ordered : m.Ordered) (encoded : m.encode compact = .ok (bytes, m'))
    (first : m.first? = some x) (run : Runs m n x code y) (ne : code ≠ [])
    (constant : ∀ i ∈ code, i.Constant) : m'.CarriesAt 0 code := by
  obtain ⟨l, _, _, hl, -, -, -, -, rfl⟩ := Method.encode_iff.1 encoded
  have lays := lays_of_layout hl
  obtain ⟨xs, post, split, instrs⟩ := run.order ordered (List.nil_append _).symm first
  have ids := lays.ids ordered
  rw [split, List.map_eq_append_iff] at ids
  obtain ⟨rs, rest, rows, rfl, -⟩ := ids
  have inside : ∀ r ∈ rs, r ∈ l.rows := by
    intro r hr
    rw [rows]
    exact List.mem_append_left _ hr
  have instructions : rs.map (·.instruction) = code := by
    have found : rs.map (fun r => m.instruction? r.id) = rs.map fun r => some r.instruction :=
      List.map_congr_left fun r hr => Method.instruction_of_row lays (inside r hr)
    rw [List.map_map] at instrs
    refine List.map_injective_iff.2 (Option.some_injective _) ?_
    rw [List.map_map]
    exact found.symm.trans instrs
  have written : (rs.map Row.written).map Instruction.text = code.map Instruction.text := by
    rw [← instructions, List.map_map, List.map_map]
    refine List.map_congr_left fun r hr => ?_
    have kept : r.opcode = r.instruction.opcode := by
      obtain ⟨long, form⟩ := lays.forms r (inside r hr)
      rw [form]
      rcases constant r.instruction (instructions ▸ List.mem_map_of_mem hr) with
        ⟨v, hv⟩ | ⟨v, hv⟩ | ⟨t, ht⟩
      · simp [opcodeOf, pieceOf, hv]
      · simp [opcodeOf, pieceOf, hv]
      · simp [opcodeOf, pieceOf, ht]
    show (r.opcode, r.instruction.operand) = (r.instruction.opcode, r.instruction.operand)
    rw [kept]
  have sequence : (m.place l).sequence.map Prod.snd = rs.map Row.written ++ rest.map Row.written := by
    rw [Method.sequence_place lays ordered, List.map_map, rows, List.map_append]
    rfl
  cases rs with
  | nil => exact absurd instructions.symm ne
  | cons r rs =>
    have start : r.offset = 0 := by
      have := lays.run
      rw [rows, List.cons_append] at this
      cases this with
      | cons offset _ => exact offset
    refine ⟨[], r.written, rs.map Row.written ++ rest.map Row.written, sequence, start, ?_⟩
    rw [← written, ← List.cons_append, ← List.map_cons, List.map_append]
    exact List.prefix_append _ _

/-- A method with code inserted is writable if the method is. -/
theorem Method.Extends.writable {m m' : Method} (hext : m.Extends m') (writable : m.Writable) :
    m'.Writable := by
  refine ⟨hext.ordered, ?_, hext.locals ▸ writable.nonNull, ?_⟩
  · rintro ⟨x, i⟩ hp
    have hi := hext.ordered.mem_sequence.1 hp
    rcases Nat.lt_or_ge x m.nextId with hx | hx
    · obtain ⟨j, hj, same⟩ := exists_of_erased (hext.kept x hx) hi
      exact hasKind_of_erased same.symm (writable.kinded _ (writable.ordered.mem_sequence.2 hj))
    · exact (hext.inserted x i hx hi).2
  · have known : ∀ f ∈ m'.handlers.map (·.flags), f.masked = f := by
      rw [hext.flags]
      intro f hf
      obtain ⟨h, hh, rfl⟩ := List.mem_map.1 hf
      exact writable.known h hh
    exact fun h hh => known _ (List.mem_map_of_mem hh)

/-! ## A second pass -/

theorem already_iff {m : Method} {p : Points} {d : ProbeDispatch} (ne : p.sequence ≠ []) :
    (m.instrument p d).runOn.1 = .ok (.already, m) ↔ m.isInstrumented p d = true := by
  constructor
  · intro h
    rcases instrument_cases (yields_of_runOn h) with ⟨-, e⟩ | ⟨-, guard, -⟩ | ⟨-, -, _, _, -, -, e⟩
    · cases e
    · exact guard
    · cases e
  · intro guard
    unfold Method.instrument
    rw [if_neg (mt List.isEmpty_iff.1 ne), if_pos guard]
    rfl

/-- **An instrumented method that was written** is decoded into itself, and its guard holds if and
only if the probe of the lowest point stands at the offset that the point names. -/
theorem guard_of_written {body c : Bytes} {m m₁ m₂ : Method} {p : Points} {d : ProbeDispatch}
    {s b : Nat} {compact : Bool} (decoded : Method.decode body = .ok m) (closed : m.Closed)
    (applied : (m.instrument p d).runOn.1 = .ok (.applied s b, m₁))
    (encoded : m₁.encode compact = .ok (c, m₂)) :
    Method.decode c = .ok m₂.renumbered ∧
      m₂.renumbered.encode compact = .ok (c, m₂.renumbered) ∧
      (0 < s → 0 < m.nextId) ∧ ∃ first, p.first? = some first ∧
      ((m₂.renumbered.instrument p d).runOn.1 = .ok (.already, m₂.renumbered) ↔
        m₂.CarriesAt first.offset (d.probe first.id)) ∧
      (0 < m.nextId → first.offset = 0 → m₂.CarriesAt first.offset (d.probe first.id)) := by
  rcases instrument_cases (yields_of_runOn applied) with ⟨-, h⟩ | ⟨-, -, h⟩ |
    ⟨ne, -, branches, sequence, hb, hs, h⟩
  · cases h
  · cases h
  · cases h
    obtain ⟨extends₁, start, covers₁⟩ := branch_pass closed hb
    obtain ⟨extends₂, -⟩ := sequence_pass closed extends₁ covers₁ hs
    have writable := (extends₂.increaseMaxStack d.stackDepth).writable (writable_of_decode decoded)
    obtain ⟨again, same⟩ := decode_again writable encoded
    obtain ⟨first, hf⟩ : ∃ first, p.first? = some first := by
      rw [first?_eq]
      cases hq : p.sequence with
      | nil => exact absurd hq ne
      | cons q qs => exact ⟨_, head?_enter q _⟩
    refine ⟨again, same, nonempty_of_count closed extends₁ hs, first, hf, ?_,
      fun nonempty zero => ?_⟩
    · obtain ⟨l, -, -, -, -, -, -, -, rfl⟩ := Method.encode_iff.1 encoded
      rw [already_iff ne,
        isInstrumented_iff (writable.ordered.place l) (closed_of_decode again) hf]
    · obtain ⟨a, ha, ho⟩ := first_of_decode decoded nonempty
      rw [first?_eq] at hf
      obtain ⟨x, y, hx, run⟩ := first_probe closed extends₁ (start.trans ha) (zero ▸ ho) hf hs
      have run := run.moved (moved_increaseMaxStack (d := d) m.nextId d.stackDepth)
        (probe_plain d first.id)
      rw [zero]
      exact carriesAt_zero writable.ordered encoded hx run (List.cons_ne_nil _ _)
        (constant_probe d first.id)

/-- **When a second pass leaves the body alone.** An instrumented method that was written and decoded
is written the same way again. It is not instrumented again if and only if the probe of the lowest
point stands in the new code at the offset that the point names in the old one, and so always when
that point names the start of the body. -/
theorem instrument_again {body c : Bytes} {m m₁ m₂ : Method} {p : Points} {d : ProbeDispatch}
    {s b : Nat} {compact : Bool} (decoded : Method.decode body = .ok m)
    (valid : m.validate = .ok ())
    (applied : (m.instrument p d).runOn.1 = .ok (.applied s b, m₁)) (placed : 0 < s)
    (encoded : m₁.encode compact = .ok (c, m₂)) :
    ∃ m₃ first, Method.decode c = .ok m₃ ∧ m₃.encode compact = .ok (c, m₃) ∧
      p.first? = some first ∧
      ((m₃.instrument p d).runOn.1 = .ok (.already, m₃) ↔
        m₂.CarriesAt first.offset (d.probe first.id)) ∧
      (first.offset = 0 → (m₃.instrument p d).runOn.1 = .ok (.already, m₃)) := by
  have closed := closed_of_valid (Method.ordered_of_range (Method.decode_order decoded))
    (fun _ _ _ => distinct_of_decode decoded) valid
  obtain ⟨again, same, nonempty, first, hf, guard, carried⟩ :=
    guard_of_written decoded closed applied encoded
  exact ⟨m₂.renumbered, first, again, same, hf, guard,
    fun zero => guard.2 (carried (nonempty placed) zero)⟩

/-- The probe at the start of a body is found again. -/
theorem instrument_again_twoReturns : ∃ m₁ c m₂ m₃,
    (twoReturns.instrument ⟨[⟨0, 7⟩], [⟨1, 0, 8⟩, ⟨1, 1, 9⟩]⟩ (.trampoline ⟨0x0A000001⟩)).runOn.1
      = .ok (.applied 1 2, m₁) ∧
    m₁.encode true = .ok (c, m₂) ∧ Method.decode c = .ok m₃ ∧ m₃.encode true = .ok (c, m₃) ∧
    (m₃.instrument ⟨[⟨0, 7⟩], [⟨1, 0, 8⟩, ⟨1, 1, 9⟩]⟩ (.trampoline ⟨0x0A000001⟩)).runOn.1
      = .ok (.already, m₃) := by
  have decoded : Method.decode [0x16, 0x02, 0x2D, 0x01, 0x2A, 0x2A] = .ok twoReturns := by
    decide +kernel
  have counted : (twoReturns.instrument ⟨[⟨0, 7⟩], [⟨1, 0, 8⟩, ⟨1, 1, 9⟩]⟩
      (.trampoline ⟨0x0A000001⟩)).runOn.1.toOption.map Prod.fst = some (.applied 1 2) := by
    decide +kernel
  have written : ((twoReturns.instrument ⟨[⟨0, 7⟩], [⟨1, 0, 8⟩, ⟨1, 1, 9⟩]⟩
      (.trampoline ⟨0x0A000001⟩)).runOn.1 >>= fun r => r.2.encode true).isOk = true := by
    decide +kernel
  obtain ⟨m₁, applied⟩ := ok_of_fst counted
  rw [applied] at written
  obtain ⟨c, m₂, encoded⟩ : ∃ c m₂, m₁.encode true = .ok (c, m₂) := by
    cases h : m₁.encode true with
    | ok r => exact ⟨r.1, r.2, rfl⟩
    | error fault =>
      rw [show (Except.ok (Instrumented.applied 1 2, m₁) >>= fun r => r.2.encode true)
        = m₁.encode true from rfl, h] at written
      cases written
  obtain ⟨m₃, first, again, same, hf, -, zero⟩ :=
    instrument_again decoded (by decide +kernel) applied (by decide) encoded
  have hfirst : first = ⟨0, 7⟩ := by
    cases hf
    rfl
  exact ⟨m₁, c, m₂, m₃, applied, encoded, again, same, zero (by rw [hfirst])⟩

/-- A block in front of the lowest point moves its probe away: a second pass adds another block. -/
example : (do
    let m ← Method.decode [0x16, 0x02, 0x2D, 0x01, 0x00, 0x2A]
    let once ← (m.instrument ⟨[⟨4, 2⟩], [⟨1, 1, 3⟩]⟩ (.trampoline ⟨0x0A000001⟩)).runOn.1
    let written ← once.2.encode true
    let m ← Method.decode written.1
    (m.instrument ⟨[⟨4, 2⟩], [⟨1, 1, 3⟩]⟩ (.trampoline ⟨0x0A000001⟩)).runOn.1).toOption.map Prod.fst
      = some (.applied 0 1) := by
  decide +kernel

end CilProbes
