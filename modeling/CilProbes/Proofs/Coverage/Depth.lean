import CilProbes.Proofs.Coverage.Passes

/-!
# The evaluation stack of an instrumented method

An instruction takes operands off the evaluation stack and puts results on it. What the instructions
of the method do to it is arbitrary here; what a probe does is known, and a probe leaves the stack as
it found it, `stackDepth` slots higher at most (`level_probe`). Inserted code between two original
instructions is made of probes and jumps, so one raise of the declared depth is enough for all of it.

* `depthAfter`, `peak`: the depth behind some instructions, and the greatest one on the way.
* `Enter.level`: the way through inserted code is level.
* `Retraces.arrival`, `Retraces.peak_le`: a path of the covering method against that of the original.
* `stack_suffices`: the depths on the paths of an instrumented method, and the depth it declares.
-/

namespace CilProbes

open Logged

/-! ## Depths -/

/-- What an instruction does to the evaluation stack. -/
structure StackEffect where
  pops : Nat
  pushes : Nat
deriving DecidableEq, Repr

/-- The depth behind an instruction. A method that pops too much shows as a negative depth. -/
def StackEffect.apply (e : StackEffect) (depth : Int) : Int := depth - e.pops + e.pushes

/-- The depth behind some instructions. -/
def depthAfter (depth : Int) (es : List StackEffect) : Int :=
  es.foldl (fun depth e => e.apply depth) depth

/-- **The greatest depth** in front of, between and behind some instructions. -/
def peak (depth : Int) : List StackEffect → Int
  | [] => depth
  | e :: es => max depth (peak (e.apply depth) es)

/-- What the instructions of probes and the jumps between them do: a constant is pushed, the helper
takes the number of the probe and the native function its own address as well. -/
def OpCode.probeEffect (op : OpCode) : StackEffect :=
  if op = .ldcI4 ∨ op = .ldcI8 then ⟨0, 1⟩
  else if op = .call then ⟨1, 0⟩
  else if op = .calli then ⟨2, 0⟩
  else ⟨0, 0⟩

/-- **What the instructions of a method with code inserted do**, where those before `n` are the
original ones, with effects of their own. -/
def Method.effect (m : Method) (n : Nat) (original : InstrId → StackEffect) (x : InstrId) :
    StackEffect :=
  if x < n then original x else ((m.instruction? x).map (·.opcode.probeEffect)).getD ⟨0, 0⟩

theorem depthAfter_append (depth : Int) (es fs : List StackEffect) :
    depthAfter depth (es ++ fs) = depthAfter (depthAfter depth es) fs :=
  List.foldl_append

theorem le_peak (depth : Int) (es : List StackEffect) : depth ≤ peak depth es := by
  cases es with
  | nil => exact Int.le_refl depth
  | cons e es => exact Int.le_max_left ..

theorem peak_append (depth : Int) (es fs : List StackEffect) :
    peak depth (es ++ fs) = max (peak depth es) (peak (depthAfter depth es) fs) := by
  induction es generalizing depth with
  | nil => exact (max_eq_right (le_peak depth fs)).symm
  | cons e es ih =>
    rw [List.cons_append, peak, peak, ih, max_assoc]
    rfl

/-- The greatest depth grows with the way. -/
theorem peak_le_append (depth : Int) (es fs : List StackEffect) :
    peak depth es ≤ peak depth (es ++ fs) := by
  rw [peak_append]
  exact Int.le_max_left ..

/-! ## Level code -/

/-- **Level code** leaves the stack as it finds it, and on the way needs up to `slots` more. -/
def Level (slots : Nat) (es : List StackEffect) : Prop :=
  ∀ depth, depthAfter depth es = depth ∧ peak depth es ≤ depth + slots

theorem Level.nil (slots : Nat) : Level slots [] := by
  refine fun depth => ⟨rfl, ?_⟩
  show depth ≤ depth + slots
  omega

theorem Level.append {slots : Nat} {es fs : List StackEffect} (he : Level slots es)
    (hf : Level slots fs) : Level slots (es ++ fs) := by
  intro depth
  obtain ⟨same, low⟩ := he depth
  rw [depthAfter_append, peak_append, same]
  exact ⟨(hf depth).1, max_le low (hf depth).2⟩

/-- **A probe is level**: its call takes what it has loaded. -/
theorem level_probe (d : ProbeDispatch) (id : ProbeId) :
    Level d.stackDepth.toNat ((d.probe id).map (·.opcode.probeEffect)) := by
  have load4 : OpCode.ldcI4.probeEffect = ⟨0, 1⟩ := by decide
  have load8 : OpCode.ldcI8.probeEffect = ⟨0, 1⟩ := by decide
  have call : OpCode.call.probeEffect = ⟨1, 0⟩ := by decide
  have calli : OpCode.calli.probeEffect = ⟨2, 0⟩ := by decide
  cases d with
  | direct function signature width =>
    have effects : ((ProbeDispatch.direct function signature width).probe id).map
        (·.opcode.probeEffect) = [⟨0, 1⟩, ⟨0, 1⟩, ⟨2, 0⟩] := by
      cases width <;>
        simp [ProbeDispatch.probe, ProbeDispatch.callSequence, loadPointer, Instruction.loadInt32,
          Instruction.loadInt64, Instruction.withToken, Instruction.fresh, load4, load8, calli]
    have slots : (ProbeDispatch.direct function signature width).stackDepth.toNat = 2 := rfl
    intro depth
    simp only [effects, depthAfter, peak, List.foldl, StackEffect.apply, slots]
    omega
  | trampoline safe =>
    have effects : ((ProbeDispatch.trampoline safe).probe id).map (·.opcode.probeEffect)
        = [⟨0, 1⟩, ⟨1, 0⟩] := by
      simp [ProbeDispatch.probe, ProbeDispatch.callSequence, Instruction.loadInt32,
        Instruction.withToken, Instruction.fresh, load4, call]
    have slots : (ProbeDispatch.trampoline safe).stackDepth.toNat = 1 := rfl
    intro depth
    simp only [effects, depthAfter, peak, List.foldl, StackEffect.apply, slots]
    omega

theorem level_jump (slots : Nat) (target : InstrId) :
    Level slots [(Instruction.branch .br target).opcode.probeEffect] := by
  have jump : (Instruction.branch .br target).opcode.probeEffect = ⟨0, 0⟩ := by
    show OpCode.br.probeEffect = _
    decide
  rw [jump]
  intro depth
  simp only [depthAfter, peak, List.foldl, StackEffect.apply]
  omega

section
variable {m m' : Method} {d : ProbeDispatch} {n : Nat} {eff : InstrId → StackEffect}

theorem effect_original {x : InstrId} (hx : x < n) : m.effect n eff x = eff x := if_pos hx

/-- Inserted instructions do what their opcodes say. -/
theorem effects_inserted {xs : List InstrId} {code : List Instruction} (fresh : ∀ x ∈ xs, n ≤ x)
    (instrs : xs.map m.instruction? = code.map some) :
    xs.map (m.effect n eff) = code.map (·.opcode.probeEffect) := by
  have same : xs.map (m.effect n eff)
      = (xs.map m.instruction?).map fun i => (i.map (·.opcode.probeEffect)).getD ⟨0, 0⟩ := by
    rw [List.map_map]
    exact List.map_congr_left fun x hx => if_neg (Nat.not_lt.2 (fresh x hx))
  rw [same, instrs, List.map_map]
  rfl

/-- **The way to an original instruction is level.** -/
theorem Enter.level {x v : InstrId} {ids : List ProbeId} (h : Enter m n d x ids v)
    (eff : InstrId → StackEffect) :
    ∃ way, Forced m x way v ∧ (∀ s ∈ way, n ≤ s.1) ∧
      Level d.stackDepth.toNat ((way.map Prod.fst).map (m.effect n eff)) := by
  refine h.along (R := fun xs _ => Level d.stackDepth.toNat (xs.map (m.effect n eff)))
    (.nil _) ?_ ?_
  · intro xs ys id ids fresh instrs level
    rw [List.map_append, effects_inserted fresh instrs]
    exact (level_probe d id).append level
  · intro x t ys ids hx hi level
    have jump : [x].map m.instruction? = [Instruction.branch .br t].map some := by simp [hi]
    have here : [x].map (m.effect n eff) = [(Instruction.branch .br t).opcode.probeEffect] :=
      effects_inserted (by simpa using hx) jump
    rw [← List.singleton_append, List.map_append, here]
    exact (level_jump _ t).append level

/-! ## Paths -/

/-- The original instructions among some. -/
def keptOf (n : Nat) (xs : List InstrId) : List InstrId := xs.filter (· < n)

theorem keptOf_append {xs ys : List InstrId} (h : ∀ x ∈ xs, n ≤ x) :
    keptOf n (xs ++ ys) = keptOf n ys := by
  have : xs.filter (fun x => decide (x < n)) = [] := by
    rw [List.filter_eq_nil_iff]
    intro x hx
    simpa using h x hx
  rw [keptOf, List.filter_append, this, List.nil_append]
  rfl

theorem keptOf_cons {x : InstrId} {xs : List InstrId} (h : x < n) :
    keptOf n (x :: xs) = x :: keptOf n xs := by
  unfold keptOf
  rw [List.filter_cons, if_pos (decide_eq_true h)]

variable {points : InstrId → List ProbeId} {edges : InstrId → Nat → Option ProbeId}

/-- The ways of a path of the covering method are level. -/
theorem Covers.retraces_level (covers : Covers d n points edges m m') (eff : InstrId → StackEffect)
    {tail : List (InstrId × Nat)} {a x z : InstrId} {ids : List ProbeId}
    (enter : Enter m' n d x ids a) (hp : m'.Path x tail z) :
    Retraces m n (fun xs => Level d.stackDepth.toNat (xs.map (m'.effect n eff))) a tail z :=
  covers.retraces (fun enter => enter.level eff) enter hp

section
variable {slots : Nat} {a z : InstrId} {tail : List (InstrId × Nat)}
  (h : Retraces m n (fun xs => Level slots (xs.map (m'.effect n eff))) a tail z)

include h

/-- **Original instructions are reached at the same depths**: the ways between them are level. -/
theorem Retraces.arrival (start : Int) (hz : z < n) :
    depthAfter start ((tail.map Prod.fst).map (m'.effect n eff))
      = depthAfter start (((Method.originals n tail).map Prod.fst).map eff) := by
  induction h generalizing start with
  | onWay _ inserted _ => exact absurd hz (Nat.not_lt.2 inserted)
  | arrive inserted _ level =>
    rw [Method.originals_inserted inserted]
    exact (level start).1
  | @step a _ _ _ way rest inserted ha level _ _ ih =>
    rw [Method.originals_append inserted, Method.originals_cons ha, List.map_append,
      List.map_append, depthAfter_append, (level start).1, List.map_cons, List.map_cons,
      effect_original ha]
    exact ih ((eff a).apply start) hz

/-- **The peak of a path** is no more than the slots of level code above that of its original
instructions. -/
theorem Retraces.peak_le (start : Int) :
    peak start ((Method.visited tail z).map (m'.effect n eff))
      ≤ peak start ((keptOf n (Method.visited tail z)).map eff) + slots := by
  have fresh : ∀ {way : List (InstrId × Nat)}, (∀ s ∈ way, n ≤ s.1) →
      ∀ x ∈ way.map Prod.fst, n ≤ x := by
    intro way inserted x hx
    obtain ⟨s, hs, rfl⟩ := List.mem_map.1 hx
    exact inserted s hs
  induction h generalizing start with
  | @onWay a z tail later _ _ level =>
    have low := (level start).2
    rw [List.map_append] at low
    calc peak start ((Method.visited tail z).map (m'.effect n eff))
        ≤ start + slots := Int.le_trans (peak_le_append ..) low
      _ ≤ _ := Int.add_le_add_right (le_peak start _) _
  | @arrive a way inserted ha level =>
    obtain ⟨same, low⟩ := level start
    have last : keptOf n [a] = [a] := keptOf_cons ha
    have above := le_peak start [eff a]
    rw [Method.visited, List.map_append, peak_append, same, keptOf_append (fresh inserted), last,
      List.map_singleton, effect_original ha, List.map_singleton]
    omega
  | @step a _ z k way rest inserted ha level _ _ ih =>
    obtain ⟨same, low⟩ := level start
    have visited : Method.visited (way ++ (a, k) :: rest) z
        = way.map Prod.fst ++ a :: Method.visited rest z := by
      simp [Method.visited]
    have high := ih ((eff a).apply start)
    rw [visited, List.map_append, peak_append, same, keptOf_append (fresh inserted),
      keptOf_cons ha, List.map_cons, List.map_cons, effect_original ha, peak, peak]
    omega

end

/-- What a path of the original method has executed is no higher than the whole path. -/
theorem peak_kept {steps : List (InstrId × Nat)} {v z : InstrId} (eff : InstrId → StackEffect)
    (start : Int) (last : z < n → v = z) :
    peak start ((keptOf n (Method.visited steps z)).map eff)
      ≤ peak start ((Method.visited (Method.originals n steps) v).map eff) := by
  have kept : keptOf n (Method.visited steps z)
      = (Method.originals n steps).map Prod.fst ++ keptOf n [z] := by
    unfold keptOf Method.visited Method.originals
    rw [List.filter_append, List.filter_map]
    rfl
  rw [kept, Method.visited]
  by_cases hz : z < n
  · rw [last hz, keptOf_cons hz]
    exact Int.le_refl _
  · have none : keptOf n [z] = [] := by
      unfold keptOf
      simp [hz]
    rw [none, List.append_nil, List.map_append]
    exact peak_le_append ..

end

/-! ## The declared depth -/

namespace Method

variable {m m₁ m₂ : Method} {a : InstrId} {code : List Instruction} {side : Side}
  {ids : List InstrId} {d : ProbeDispatch}

theorem insert_maxStack (h : m.insert a code side = .ok (ids, m₁)) : m₁.maxStack = m.maxStack := by
  rcases insert_cases h with ⟨-, -, rfl⟩ | ⟨-, -, place, -, rfl⟩
  · rfl
  · cases side <;> rfl

/-- The passes themselves declare no other depth. -/
theorem addBranchCoverage_maxStack {ps : List BranchPoint} {r : Nat × Method}
    (h : (m.addBranchCoverage ps d).Yields r) : r.2.maxStack = m.maxStack := by
  unfold addBranchCoverage at h
  refine yields_foldlM (P := fun _ r => r.2.maxStack = m.maxStack) h rfl ?_
  rintro _ o _ ⟨count, m₁⟩ r - same step
  rcases addBranchPoints_cases step with ⟨rfl, -⟩ | ⟨_, _, _, ids, m₂, -, -, -, -, -, inserted, rfl⟩
  · exact same
  · exact (insert_maxStack inserted).trans same

theorem addSequenceCoverage_maxStack {qs : List SequencePoint} {r : Nat × Method}
    (h : (m.addSequenceCoverage qs d).Yields r) : r.2.maxStack = m.maxStack := by
  unfold addSequenceCoverage at h
  refine yields_foldlM (P := fun _ r => r.2.maxStack = m.maxStack) h rfl ?_
  rintro _ q _ ⟨count, m₁⟩ r - same step
  rcases addSequencePoint_cases step with ⟨-, rfl⟩ | ⟨_, ids, m₂, -, inserted, rfl⟩
  · exact same
  · exact (insert_maxStack inserted).trans same

theorem maxStack_increaseMaxStack (m : Method) (depth : UInt16) :
    (m.increaseMaxStack depth).maxStack.toNat = min (m.maxStack.toNat + depth.toNat) 0xFFFF := by
  show (UInt16.ofNat _).toNat = _
  rw [UInt16.toNat_ofNat']
  omega

end Method

/-- **The declared stack suffices.** Whatever the instructions of a method do to the evaluation stack,
and from whatever depth control enters it, a path of the instrumented method takes the steps of a
path of the method, arrives at its instructions at the same depths and goes above it by no more than
the slots of one probe, however many probes there are on the way. So it keeps within the declared
depth if the paths of the method do, unless the new depth is more than can be declared. -/
theorem stack_suffices {body : Bytes} {m m' : Method} {p : Points} {d : ProbeDispatch} {s b : Nat}
    (decoded : Method.decode body = .ok m)
    (applied : (m.instrument p d).runOn.1 = .ok (.applied s b, m')) (eff : InstrId → StackEffect) :
    m'.maxStack.toNat = min (m.maxStack.toNat + d.stackDepth.toNat) 0xFFFF ∧
    List.Forall₂ (Option.Rel fun a' a => ∀ start : Int,
      (∀ steps z, m'.Path a' steps z →
        ∃ v, m.Path a (Method.originals m.nextId steps) v ∧
          (z < m.nextId → v = z ∧
            depthAfter start ((steps.map Prod.fst).map (m'.effect m.nextId eff))
              = depthAfter start (((Method.originals m.nextId steps).map Prod.fst).map eff)) ∧
          peak start ((Method.visited steps z).map (m'.effect m.nextId eff))
            ≤ peak start ((keptOf m.nextId (Method.visited steps z)).map eff)
              + d.stackDepth.toNat ∧
          peak start ((keptOf m.nextId (Method.visited steps z)).map eff)
            ≤ peak start ((Method.visited (Method.originals m.nextId steps) v).map eff)) ∧
      (m.maxStack.toNat + d.stackDepth.toNat ≤ 0xFFFF →
        (∀ steps z, m.Path a steps z →
          peak start ((Method.visited steps z).map eff) ≤ m.maxStack.toNat) →
        ∀ steps z, m'.Path a' steps z →
          peak start ((Method.visited steps z).map (m'.effect m.nextId eff)) ≤ m'.maxStack.toNat))
      m'.entries m.entries := by
  have closed := closed_of_decode decoded
  rcases instrument_cases (yields_of_runOn applied) with ⟨-, h⟩ | ⟨-, -, h⟩ |
    ⟨-, -, branches, sequence, hb, hs, h⟩
  · cases h
  · cases h
  · cases h
    obtain ⟨extends₁, -, covers₁⟩ := branch_pass closed hb
    obtain ⟨-, covers₂⟩ := sequence_pass closed extends₁ covers₁ hs
    have covers := covers₂.increaseMaxStack d.stackDepth
    have declared : (sequence.2.increaseMaxStack d.stackDepth).maxStack.toNat
        = min (m.maxStack.toNat + d.stackDepth.toNat) 0xFFFF := by
      rw [Method.maxStack_increaseMaxStack, Method.addSequenceCoverage_maxStack hs,
        Method.addBranchCoverage_maxStack hb]
    refine ⟨declared, covers.entries.imp fun a' a enter => ?_⟩
    cases enter with
    | none => exact .none
    | some enter =>
      refine .some fun start => ⟨fun steps z hp => ?_, fun room within steps z hp => ?_⟩
      · have retraces := covers.retraces_level eff enter hp
        obtain ⟨v, hv, last⟩ := retraces.path
        exact ⟨v, hv, fun hz => ⟨last hz, retraces.arrival start hz⟩, retraces.peak_le start,
          peak_kept eff start last⟩
      · have retraces := covers.retraces_level eff enter hp
        obtain ⟨v, hv, last⟩ := retraces.path
        have high := retraces.peak_le start
        have original := Int.le_trans (peak_kept eff start last) (within _ v hv)
        rw [declared]
        omega

/-- What the instructions of `twoReturns` do: one loads what the branch behind it takes off. -/
def twoReturnsEffect : InstrId → StackEffect := ([⟨0, 1⟩, ⟨1, 0⟩].getD · ⟨0, 0⟩)

/-- One slot is enough for every path of `twoReturns`. -/
theorem peak_twoReturns (steps : List (InstrId × Nat)) (z : InstrId)
    (hp : twoReturns.Path 0 steps z) :
    peak 0 ((Method.visited steps z).map twoReturnsEffect) ≤ 1 := by
  have fall : [0, 1, 2, 3].map (twoReturns.follow? · 0) = [some 1, some 2, none, none] := by
    decide +kernel
  simp only [List.map_cons, List.map_nil, List.cons.injEq, and_true] at fall
  obtain ⟨fall₀, fall₁, fall₂, fall₃⟩ := fall
  have load : ∀ k b, twoReturns.follow? 0 k = some b → b = 1 := by
    rintro (_ | k) b h
    · rw [fall₀] at h
      cases h
      rfl
    · cases h
  have branch : ∀ k b, twoReturns.follow? 1 k = some b → b = 2 ∨ b = 3 := by
    rintro (_ | _ | k) b h
    · rw [fall₁] at h
      cases h
      exact .inl rfl
    · cases h
      exact .inr rfl
    · cases h
  have stop : ∀ b k c, b = 2 ∨ b = 3 → twoReturns.follow? b k ≠ some c := by
    rintro b (_ | k) c (rfl | rfl) h
    · rw [fall₂] at h
      cases h
    · rw [fall₃] at h
      cases h
    · cases h
    · cases h
  rcases hp with _ | ⟨h₀, _ | ⟨h₁, _ | ⟨h₂, -⟩⟩⟩
  · decide
  · obtain rfl := load _ _ h₀
    show peak 0 [⟨0, 1⟩, ⟨1, 0⟩] ≤ 1
    decide
  · obtain rfl := load _ _ h₀
    rcases branch _ _ h₁ with rfl | rfl
    · show peak 0 [⟨0, 1⟩, ⟨1, 0⟩, ⟨0, 0⟩] ≤ 1
      decide
    · show peak 0 [⟨0, 1⟩, ⟨1, 0⟩, ⟨0, 0⟩] ≤ 1
      decide
  · obtain rfl := load _ _ h₀
    exact absurd h₂ (stop _ _ _ (branch _ _ h₁))

/-- The new method runs probes at two depths and on an edge, and two slots are enough for it. -/
theorem stack_suffices_twoReturns :
    Method.decode [0x16, 0x02, 0x2D, 0x01, 0x2A, 0x2A] = .ok twoReturns ∧
    ∃ m', (twoReturns.instrument ⟨[⟨0, 7⟩, ⟨1, 6⟩], [⟨1, 0, 8⟩, ⟨1, 1, 9⟩]⟩
        (.trampoline ⟨0x0A000001⟩)).runOn.1 = .ok (.applied 2 2, m') ∧ m'.maxStack = 9 ∧
      ∃ a', m'.first? = some a' ∧ ∀ steps z, m'.Path a' steps z →
        peak 0 ((Method.visited steps z).map (m'.effect 4 twoReturnsEffect)) ≤ 2 := by
  have counted : (twoReturns.instrument ⟨[⟨0, 7⟩, ⟨1, 6⟩], [⟨1, 0, 8⟩, ⟨1, 1, 9⟩]⟩
      (.trampoline ⟨0x0A000001⟩)).runOn.1.toOption.map Prod.fst = some (.applied 2 2) := by
    decide +kernel
  obtain ⟨m', applied⟩ := ok_of_fst counted
  obtain ⟨declared, depths⟩ := stack_suffices decode_twoReturns applied twoReturnsEffect
  refine ⟨decode_twoReturns, m', applied, UInt16.toNat_inj.1 declared, ?_⟩
  have entries : twoReturns.entries = [some 0] := rfl
  rw [entries, Method.entries, List.forall₂_cons] at depths
  generalize m'.first? = first at depths ⊢
  obtain ⟨entry, -⟩ := depths
  cases entry with
  | @some a' _ rel =>
    refine ⟨a', rfl, fun steps z hp => ?_⟩
    obtain ⟨v, hv, -, high, executed⟩ := (rel 0).1 steps z hp
    calc _ ≤ _ := high
      _ ≤ _ := Int.add_le_add_right (Int.le_trans executed (peak_twoReturns _ v hv)) _

end CilProbes
