import CilProbes.Proofs.Session.FailOpen

/-!
# Runs of a session

What happens to a session from outside: modules are loaded, methods are compiled, and probes call
its recorders. `Session.Runs` is any sequence of these in any order, with whatever answers the
collaborators give. The host and the supplier of points may change their minds at any time, so a
statement about every run holds for every process.

* `Occurrence`, `Session.Step`, `Session.Runs`: one thing that happens, and any number of them.
* `ends_moduleLoaded`: a module changes what is known of helpers and of assemblies only, and is
  always asked for its assemblies.
* `VisitCounters.Grows`, `Runs.grows`: the cap stays, no counter goes and no count falls.
-/

namespace CilProbes

/-- What happens to a session, together with what it brings about. -/
inductive Occurrence where
  | loaded (module : ModuleId) (exchanges : List Exchange)
  | compiled (function : FunctionId) (key : MethodKey) (exchanges : List Exchange)
      (outcome : Outcome)
  /-- A probe calls a recorder of the session, which makes some calls of its sink. -/
  | arrived (recorder : Recorder) (sink : Nat) (arrival : Arrival) (calls : List SinkCall)

/-- The numbers of all points. -/
def Points.ids (p : Points) : List ProbeId := p.sequence.map (·.id) ++ p.branches.map (·.id)

/-- Whether a probe called a recorder. -/
def Occurrence.isArrival : Occurrence → Bool
  | loaded .. | compiled .. => false
  | arrived .. => true

/-- What was asked and answered. -/
def Occurrence.exchanges : Occurrence → List Exchange
  | loaded _ es | compiled _ _ es _ => es
  | arrived .. => []

/-- The registry after an answer of the host. A refusal changes nothing. -/
def Registry.told (r : Registry) : Except String ModuleAssemblies → Registry
  | .ok assemblies => r.recordAll assemblies
  | .error _ => r

/-- A module is asked for its assemblies once. -/
theorem Registry.ends_recordModule {r : Registry} {module : ModuleId} {es : List Exchange}
    {x : Except Fault Registry} : (r.recordModule module).run.Ends es x ↔
      ∃ answer, es = [⟨.moduleAssemblies module, answer⟩] ∧
        x = (answer.mapError .hostApi).map r.recordAll := by
  rw [recordModule, Talk.ends_demand_bind]
  constructor
  · rintro (⟨text, refused, rfl⟩ | ⟨assemblies, _, _, given, h, rfl⟩)
    · exact ⟨.error text, Dialogue.ends_request.1 refused, rfl⟩
    · obtain rfl := Dialogue.ends_request.1 given
      obtain ⟨rfl, rfl⟩ := Talk.ends_pure.1 h
      exact ⟨.ok assemblies, rfl, rfl⟩
  · rintro ⟨text | assemblies, rfl, rfl⟩
    · exact .inl ⟨text, Dialogue.ends_request.2 rfl, rfl⟩
    · exact .inr ⟨assemblies, _, [], Dialogue.ends_request.2 rfl, Talk.ends_pure.2 ⟨rfl, rfl⟩, rfl⟩

/-- **What becomes of counters in time**: the cap stays, no counter goes and no count falls. -/
structure VisitCounters.Grows (c c' : VisitCounters) : Prop where
  cap : c'.cap = c.cap
  size : c.size ≤ c'.size
  count : ∀ id, c.count id ≤ c'.count id

namespace VisitCounters

variable {c c₁ c₂ : VisitCounters}

theorem Grows.refl (c : VisitCounters) : c.Grows c :=
  ⟨rfl, Nat.le_refl _, fun _ => UInt32.le_refl _⟩

theorem Grows.trans (h : c.Grows c₁) (h' : c₁.Grows c₂) : c.Grows c₂ :=
  ⟨h'.cap.trans h.cap, Nat.le_trans h.size h'.size,
    fun id => UInt32.le_trans (h.count id) (h'.count id)⟩

theorem grows_grow (c : VisitCounters) (bound : Nat) : c.Grows (c.grow bound) :=
  ⟨c.cap_grow bound, c.size_le_size_grow bound,
    fun id => (c.count_grow bound id).symm ▸ UInt32.le_refl _⟩

theorem grows_record (c : VisitCounters) (id : ProbeId) : c.Grows (c.record id).2 :=
  ⟨c.cap_record id, Nat.le_of_eq (c.size_record id).symm, c.count_le_count_record id⟩

theorem grows_receive (r : Recorder) (c : VisitCounters) (arrival : Arrival) :
    c.Grows (r.receive c arrival).2 := by
  cases arrival with
  | visit id => exact c.grows_record id
  | visitWithContext id high low => exact c.grows_record id
  | flush => exact .refl c

end VisitCounters

namespace Session

/-- **One thing that happens to a session.** -/
inductive Step (s : Session) : Occurrence → Session → Prop
  | loaded {module : ModuleId} {es : List Exchange} {s' : Session} :
      (s.moduleLoaded module).Ends es s' → Step s (.loaded module es) s'
  | compiled {function : FunctionId} {key : MethodKey} {es : List Exchange} {outcome : Outcome}
      {s' : Session} : (s.methodCompiled function key).Ends es (outcome, s') →
      Step s (.compiled function key es outcome) s'
  | arrived (recorder : Recorder) (sink : Nat) (arrival : Arrival) :
      Step s (.arrived recorder sink arrival (recorder.receive s.counters arrival).1)
        { s with counters := (recorder.receive s.counters arrival).2 }

/-- **Any number of things that happen to a session.** -/
inductive Runs : Session → List Occurrence → Session → Prop
  | nil (s : Session) : Runs s [] s
  | cons {s s₁ s₂ : Session} {o : Occurrence} {os : List Occurrence} :
      s.Step o s₁ → Runs s₁ os s₂ → Runs s (o :: os) s₂

/-- Loading a module with any collaborators is such a thing. -/
theorem load_run {σ : Type} (s : Session) (module : ModuleId) (w : World σ) (state : σ) :
    s.Step (.loaded module ((s.moduleLoaded module).run w state).2.2.exchanges)
      ((s.moduleLoaded module).run w state).1 :=
  .loaded (Dialogue.ends_run w _ state)

/-- And so is compiling a method. -/
theorem step_run {σ : Type} {s : Session} {function : FunctionId} {key : MethodKey} {w : World σ}
    {state : σ} {outcome : Outcome}
    (h : ((s.methodCompiled function key).run w state).1.1 = outcome) :
    s.Step (.compiled function key
      ((s.methodCompiled function key).run w state).2.2.exchanges outcome)
      ((s.methodCompiled function key).run w state).1.2 := by
  subst h
  exact .compiled (Dialogue.ends_run w _ state)

variable {s s' s₁ s₂ : Session} {module : ModuleId} {es : List Exchange} {o : Occurrence}
  {os : List Occurrence}

/-! ## Modules -/

theorem ends_considerNest (h : (s.considerNest module).Ends es s') :
    ∃ nest, s' = { s with nest } := by
  unfold considerNest at h
  split at h
  · rw [Dialogue.bind_eq, Dialogue.ends_bind] at h
    obtain ⟨result, es₁, es₂, -, h, -⟩ := h
    cases result with
    | ok nest => exact ⟨nest, (Dialogue.ends_done.1 h).2⟩
    | error fault => exact ⟨s.nest, (Dialogue.ends_done.1 (Dialogue.ends_note.1 h)).2⟩
  · exact ⟨s.nest, (Dialogue.ends_done.1 h).2⟩

theorem ends_recordAssemblies (h : (s.recordAssemblies module).Ends es s') :
    ∃ answer, es = [⟨.moduleAssemblies module, answer⟩] ∧
      s' = { s with registry := s.registry.told answer } := by
  unfold recordAssemblies at h
  rw [Dialogue.bind_eq, Dialogue.ends_bind] at h
  obtain ⟨result, _, _, asked, h, rfl⟩ := h
  obtain ⟨answer, rfl, rfl⟩ := Registry.ends_recordModule.1 asked
  refine ⟨answer, ?_⟩
  cases answer with
  | ok assemblies =>
    obtain ⟨rfl, rfl⟩ := Dialogue.ends_done.1 h
    exact ⟨rfl, rfl⟩
  | error text =>
    obtain ⟨rfl, rfl⟩ := Dialogue.ends_done.1 (Dialogue.ends_note.1 h)
    exact ⟨rfl, rfl⟩

/-- **What a module changes of a session**: what is known of the helpers and of the assemblies. The
assemblies are asked for once, whatever became of the helpers. -/
theorem ends_moduleLoaded (h : (s.moduleLoaded module).Ends es s') : ∃ nest answer es₁ es₂,
    (s.considerNest module).Ends es₁ { s with nest } ∧ (injectTypes module).Ends es₂ () ∧
      es = es₁ ++ ⟨.moduleAssemblies module, answer⟩ :: es₂ ∧
      s' = { s with nest, registry := s.registry.told answer } := by
  unfold moduleLoaded at h
  rw [Dialogue.bind_eq, Dialogue.ends_bind] at h
  obtain ⟨_, es₁, _, considered, h, rfl⟩ := h
  obtain ⟨nest, rfl⟩ := ends_considerNest considered
  rw [Dialogue.bind_eq, Dialogue.ends_bind] at h
  obtain ⟨_, _, _, recorded, h, rfl⟩ := h
  obtain ⟨answer, rfl, rfl⟩ := ends_recordAssemblies recorded
  rw [Dialogue.bind_eq, Dialogue.ends_bind] at h
  obtain ⟨_, es₂, _, injected, h, rfl⟩ := h
  obtain ⟨rfl, rfl⟩ := Dialogue.ends_done.1 h
  rw [List.append_nil]
  exact ⟨nest, answer, es₁, es₂, considered, injected, rfl, rfl⟩

/-! ## Counters -/

/-- Room is made for a number, if there is one. -/
theorem grows_elim (c : VisitCounters) (id : Option ProbeId) :
    c.Grows (id.elim c fun id => c.grow (id.toNat + 1)) := by
  cases id with
  | none => exact .refl c
  | some id => exact c.grows_grow _

theorem grows_reserve (points : Points) (c : VisitCounters) : c.Grows (reserve points c) := by
  unfold reserve
  split
  · exact .refl c
  · exact (grows_elim c points.maxSequenceId?).trans (grows_elim _ points.maxBranchId?)

@[simp] theorem count_reserve (points : Points) (c : VisitCounters) (id : ProbeId) :
    (reserve points c).count id = c.count id := by
  unfold reserve
  split
  · rfl
  · cases points.maxSequenceId? <;> cases points.maxBranchId? <;> simp

/-- **With a cap, room is made for every point of a method.** -/
theorem lt_size_reserve {points : Points} {c : VisitCounters} {id : ProbeId} (capped : c.cap ≠ 0)
    (h : id ∈ points.ids) : id.toNat < (reserve points c).size := by
  unfold reserve
  rw [if_neg capped]
  rcases List.mem_append.1 h with h | h
  · obtain ⟨q, mem, rfl⟩ := List.mem_map.1 h
    obtain ⟨top, e, below⟩ := points.le_maxSequenceId? mem
    have room := c.le_size_grow (top.toNat + 1)
    have kept := (grows_elim (c.grow (top.toNat + 1)) points.maxBranchId?).size
    have below := UInt32.le_iff_toNat_le.1 below
    rw [e]
    exact Nat.lt_of_lt_of_le (Nat.lt_of_lt_of_le (Nat.lt_succ_of_le below) room) kept
  · obtain ⟨q, mem, rfl⟩ := List.mem_map.1 h
    obtain ⟨top, e, below⟩ := points.le_maxBranchId? mem
    have below := UInt32.le_iff_toNat_le.1 below
    rw [e]
    exact Nat.lt_of_lt_of_le (Nat.lt_succ_of_le below) (VisitCounters.le_size_grow _ _)

/-- Other than by arrivals the counters change only where room is made. -/
theorem Step.reserves (h : s.Step o s') (quiet : o.isArrival = false) :
    ∃ points, s'.counters = reserve points s.counters := by
  -- To make room for no points changes nothing.
  have none : s.counters = reserve .none s.counters := by
    unfold reserve
    split <;> rfl
  cases h with
  | loaded h =>
    obtain ⟨nest, answer, _, _, -, -, -, rfl⟩ := ends_moduleLoaded h
    exact ⟨_, none⟩
  | compiled h =>
    cases ends_methodCompiled h with
    | left => exact ⟨_, none⟩
    | helper => exact ⟨_, none⟩
    | probes => exact ⟨_, rfl⟩
  | arrived => cases quiet

theorem Step.grows (h : s.Step o s') : s.counters.Grows s'.counters := by
  cases arrival : o.isArrival with
  | false =>
    obtain ⟨points, e⟩ := h.reserves arrival
    exact e ▸ grows_reserve points s.counters
  | true =>
    cases h with
    | arrived recorder sink arrival => exact VisitCounters.grows_receive ..
    | loaded | compiled => cases arrival

/-- **In no run is the cap changed, a counter lost or a count lowered.** -/
theorem Runs.grows (h : s.Runs os s') : s.counters.Grows s'.counters := by
  induction h with
  | nil s => exact .refl _
  | cons step _ ih => exact step.grows.trans ih

end Session

end CilProbes
