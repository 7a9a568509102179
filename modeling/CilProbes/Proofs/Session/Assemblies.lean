import CilProbes.Proofs.Assembly.Registry
import CilProbes.Proofs.Session.Requests
import CilProbes.Proofs.Session.Run

/-!
# Recorded assemblies

A registry is told of assemblies one by one, or of all those of a module at once, if the host gives
them. `Registry.Runs` is any sequence of these. What a registry answers depends on which references
it was told of, and on nothing else. A session is such a sequence with one entry for each module
loaded.

* `Recording`, `Registry.Step`, `Registry.Runs`: what is recorded.
* `Runs.holds`: the registry of what was recorded.
* `Session.Runs.recorded`: a session records what the host answered, and nothing else.
* `registry_exact`: the answers of a registry.
-/

namespace CilProbes

/-- Whether assemblies are asked for. -/
def Request.forAssemblies : Request → Bool
  | moduleAssemblies _ => true
  | _ => false

/-- The references that an answer tells of; a refusal tells of none. -/
def Exchange.references : Exchange → List AssemblyReference
  | ⟨.moduleAssemblies _, .ok assemblies⟩ => assemblies.all
  | _ => []

/-- What is recorded: one assembly, or those of a module, with what was asked and answered. -/
inductive Recording where
  | assembly (record : AssemblyRecord)
  | module (module : ModuleId) (exchanges : List Exchange)

def Recording.references : Recording → List AssemblyReference
  | assembly record => [record.reference]
  | module _ es => es.flatMap (·.references)

theorem Recording.references_module (module : ModuleId) (e : Exchange) :
    (Recording.module module [e]).references = e.references :=
  List.flatMap_singleton _ e

namespace Registry

/-- **One thing that is recorded.** A refusal leaves the registry as it is. -/
inductive Step (r : Registry) : Recording → Registry → Prop
  | assembly (a : AssemblyRecord) : Step r (.assembly a) (r.record a).2
  | module {module : ModuleId} {es : List Exchange} {r' : Registry} :
      (r.recordModule module).run.Ends es (.ok r') → Step r (.module module es) r'
  | refused {module : ModuleId} {es : List Exchange} {fault : Fault} :
      (r.recordModule module).run.Ends es (.error fault) → Step r (.module module es) r

/-- **Any number of things that are recorded.** -/
inductive Runs : Registry → List Recording → Registry → Prop
  | nil (r : Registry) : Runs r [] r
  | cons {r r₁ r₂ : Registry} {c : Recording} {cs : List Recording} :
      r.Step c r₁ → Runs r₁ cs r₂ → Runs r (c :: cs) r₂

variable {r r₁ r₂ : Registry} {c : Recording} {cs cs' : List Recording}
  {known : List AssemblyReference} {module : ModuleId}

theorem Runs.append (h : r.Runs cs r₁) (h' : r₁.Runs cs' r₂) : r.Runs (cs ++ cs') r₂ := by
  induction h with
  | nil => exact h'
  | cons step _ ih => exact .cons step (ih h')

/-- A module is recorded as the host answers. -/
theorem step_module (r : Registry) (module : ModuleId) (answer : Except String ModuleAssemblies) :
    r.Step (.module module [⟨.moduleAssemblies module, answer⟩]) (r.told answer) := by
  have ends : (r.recordModule module).run.Ends [⟨.moduleAssemblies module, answer⟩] _ :=
    ends_recordModule.2 ⟨answer, rfl, rfl⟩
  cases answer with
  | ok assemblies => exact .module ends
  | error text => exact .refused ends

theorem Holds.told (h : r.Holds known) (answer : Except String ModuleAssemblies) :
    (r.told answer).Holds
      (known ++ Exchange.references ⟨.moduleAssemblies module, answer⟩) := by
  cases answer with
  | ok assemblies => exact h.recordAll assemblies
  | error text => exact (List.append_nil known).symm ▸ h

theorem Step.holds (step : r.Step c r₁) (h : r.Holds known) : r₁.Holds (known ++ c.references) := by
  cases step with
  | assembly a => exact h.record a
  | module ends =>
    obtain ⟨answer, rfl, e⟩ := ends_recordModule.1 ends
    cases answer with
    | ok assemblies =>
      cases e
      rw [Recording.references_module]
      exact h.told (.ok assemblies)
    | error text => cases e
  | refused ends =>
    obtain ⟨answer, rfl, e⟩ := ends_recordModule.1 ends
    cases answer with
    | ok assemblies => cases e
    | error text =>
      rw [Recording.references_module]
      exact h.told (.error text)

/-- **After any sequence of records a registry holds what was recorded.** -/
theorem Runs.holds (h : r.Runs cs r₁) (before : r.Holds known) :
    r₁.Holds (known ++ cs.flatMap (·.references)) := by
  induction h generalizing known with
  | nil => simpa using before
  | cons step _ ih =>
    have := ih (step.holds before)
    rwa [List.append_assoc] at this

end Registry

/-! ## Sessions -/

theorem references_of_quiet {es : List Exchange}
    (quiet : es.countP (·.request.forAssemblies) ≤ 0) :
    es.filter (·.request.forAssemblies) = [] ∧ es.flatMap (·.references) = [] := by
  have other : ∀ e ∈ es, e.request.forAssemblies = false := by
    simpa using quiet
  refine ⟨by simpa using other, List.flatMap_eq_nil_iff.2 fun e he => ?_⟩
  have := other e he
  cases e with
  | mk r answer => cases r <;> first | rfl | cases this

namespace Session

variable {s s' : Session} {module : ModuleId} {es : List Exchange} {o : Occurrence}
  {os : List Occurrence}

/-- Of all that is asked when a module is loaded, one answer tells of assemblies. -/
theorem loaded_assemblies (h : (s.moduleLoaded module).Ends es s') : ∃ answer,
    es.filter (·.request.forAssemblies) = [⟨.moduleAssemblies module, answer⟩] ∧
      es.flatMap (·.references) = Exchange.references ⟨.moduleAssemblies module, answer⟩ ∧
      s'.registry = s.registry.told answer := by
  obtain ⟨nest, answer, es₁, es₂, considered, injected, rfl, rfl⟩ := ends_moduleLoaded h
  have nestQuiet : (s.considerNest module).Asks Request.forAssemblies 0 :=
    asks_considerNest fun r h => by cases r <;> first | rfl | cases h
  have injectionQuiet : (injectTypes module).Asks Request.forAssemblies 0 :=
    asks_injectTypes fun r h => by cases r <;> first | rfl | cases h
  obtain ⟨none₁, silent₁⟩ := references_of_quiet (nestQuiet _ _ considered)
  obtain ⟨none₂, silent₂⟩ := references_of_quiet (injectionQuiet _ _ injected)
  refine ⟨answer, ?_, ?_, rfl⟩
  · rw [List.filter_append, List.filter_cons_of_pos rfl, none₁, none₂, List.nil_append]
  · rw [List.flatMap_append, List.flatMap_cons, silent₁, silent₂, List.nil_append, List.append_nil]

/-- Nothing is recorded when a method is compiled. -/
theorem compiled_assemblies {function : FunctionId} {key : MethodKey} {outcome : Outcome}
    (h : (s.methodCompiled function key).Ends es (outcome, s')) :
    es.flatMap (·.references) = [] ∧ s'.registry = s.registry := by
  have quiet : (s.methodCompiled function key).Asks Request.forAssemblies 0 := by
    refine asks_methodCompiled (fun r h _ => ?_) (Dialogue.asks_request rfl)
    cases r <;> first | rfl | cases h
  refine ⟨(references_of_quiet (quiet _ _ h)).2, ?_⟩
  cases ends_methodCompiled h with
  | left | helper | probes => rfl

/-- **What happens to a session is recorded as the host answers**, and nothing else is. -/
theorem Step.recorded (h : s.Step o s') : ∃ cs, s.registry.Runs cs s'.registry ∧
    cs.flatMap (·.references) = o.exchanges.flatMap (·.references) := by
  cases h with
  | @loaded module es _ h =>
    obtain ⟨answer, -, told, e⟩ := loaded_assemblies h
    rw [e, Occurrence.exchanges, told, ← Recording.references_module]
    exact ⟨_, .cons (Registry.step_module _ module answer) (.nil _), List.flatMap_singleton ..⟩
  | compiled h =>
    obtain ⟨none, e⟩ := compiled_assemblies h
    rw [e, Occurrence.exchanges, none]
    exact ⟨[], .nil _, rfl⟩
  | arrived => exact ⟨[], .nil _, rfl⟩

/-- **A session records what the host answers**, and nothing else. -/
theorem Runs.recorded (h : s.Runs os s') : ∃ cs, s.registry.Runs cs s'.registry ∧
    cs.flatMap (·.references) = os.flatMap fun o => o.exchanges.flatMap (·.references) := by
  induction h with
  | nil s => exact ⟨[], .nil _, rfl⟩
  | cons step _ ih =>
    obtain ⟨cs, first, told⟩ := step.recorded
    obtain ⟨cs', rest, told'⟩ := ih
    refine ⟨cs ++ cs', first.append rest, ?_⟩
    rw [List.flatMap_append, List.flatMap_cons, told, told']

/-- Whatever else happens when a module is loaded, it is asked for its assemblies once. -/
theorem Runs.loaded_assemblies (h : s.Runs os s') (mem : .loaded module es ∈ os) :
    ∃ answer, es.filter (·.request.forAssemblies) = [⟨.moduleAssemblies module, answer⟩] := by
  induction h with
  | nil => cases mem
  | cons step _ ih =>
    rcases List.mem_cons.1 mem with rfl | mem
    · cases step with
      | loaded h =>
        obtain ⟨answer, once, -⟩ := Session.loaded_assemblies h
        exact ⟨answer, once⟩
    · exact ih mem

end Session

/-- **The registry is a set with exact queries by name.** Take any sequence of records, and the
references that were recorded in it. A further record is new if its reference was not recorded, and
as many are held as there are different ones. A search by name gives the recorded references of this
very name, each once and in order of version and token. What is found is the one of highest version,
of several the one with the least token, and nothing is found only if the name was never recorded.
The order of the records and their repetition play no part. The registry of a session comes from
such a sequence, in which the host's answers are recorded, and each module loaded is asked for,
whatever became of helpers and of injected types. -/
theorem registry_exact {cs : List Recording} {r : Registry} (recorded : Registry.empty.Runs cs r) :
    let known := cs.flatMap (·.references)
    (∀ a : AssemblyRecord, (r.record a).1 = true ↔ a.reference ∉ known) ∧
    r.size = known.dedup.length ∧
    (∀ name, (∀ c, c ∈ r.byName name ↔ c ∈ known ∧ c.name = name) ∧ (r.byName name).Nodup ∧
      (r.byName name).Pairwise AssemblyReference.Before) ∧
    (∀ name c, r.newest? name = some c ↔ c.Newest (known.filter (·.name = name))) ∧
    (∀ name v, r.newestVersion? name = some v ↔
      ∃ c : AssemblyReference, c.Newest (known.filter (·.name = name)) ∧ c.version = v) ∧
    (∀ name, (r.newest? name = none ↔ ∀ c ∈ known, c.name ≠ name) ∧
      (r.newestVersion? name = none ↔ ∀ c ∈ known, c.name ≠ name)) ∧
    (∀ (cs' : List Recording) (r' : Registry), Registry.empty.Runs cs' r' →
      (∀ c, c ∈ cs'.flatMap (·.references) ↔ c ∈ known) → r' = r) ∧
    (∀ (module : ModuleId) (es : List Exchange) (x : Except Fault Registry),
      (r.recordModule module).run.Ends es x → ∃ answer, es = [⟨.moduleAssemblies module, answer⟩] ∧
        x = (answer.mapError .hostApi).map r.recordAll) ∧
    ∀ (settings : Settings) (addresses : RecorderAddresses) (os : List Occurrence) (s : Session),
      (Session.new settings addresses).Runs os s →
      (∃ cs', Registry.empty.Runs cs' s.registry ∧
        cs'.flatMap (·.references) = os.flatMap fun o => o.exchanges.flatMap (·.references)) ∧
      ∀ module es, .loaded module es ∈ os →
        ∃ answer, es.filter (·.request.forAssemblies) = [⟨.moduleAssemblies module, answer⟩] := by
  intro known
  have holds : r.Holds known := recorded.holds Registry.holds_empty
  have newest (name : String) (c : AssemblyReference) :
      r.newest? name = some c ↔ c.Newest (known.filter (·.name = name)) := by
    rw [holds.newest?_iff, AssemblyReference.newest_congr fun c => ?_]
    rw [holds.mem_byName, List.mem_filter, decide_eq_true_iff]
  refine ⟨holds.record_new, holds.size_eq, fun name => ⟨fun c => holds.mem_byName, ?_, ?_⟩, newest,
    fun name v => ?_, fun name => ⟨holds.newest?_eq_none, ?_⟩, fun cs' r' recorded' same => ?_,
    fun module es x => Registry.ends_recordModule.1, fun settings addresses os s runs => ?_⟩
  · exact holds.nodup.filter _
  · exact holds.byName_sorted
  · simp only [Registry.newestVersion?, Option.map_eq_some_iff, newest]
  · rw [Registry.newestVersion?, Option.map_eq_none_iff, holds.newest?_eq_none]
  · exact (recorded'.holds Registry.holds_empty).unique holds same
  · exact ⟨runs.recorded, fun module es => runs.loaded_assemblies⟩

/-- Three assemblies of one name, one of a longer name, and a module about which nothing is told. -/
theorem registry_exact_refused : ∃ cs r, Registry.empty.Runs cs r ∧ r.size = 4 ∧
    r.newest? "Lib" = some ⟨"Lib", ⟨2, 0, 0, 0⟩, List.replicate 8 0⟩ ∧
    r.newestVersion? "Li" = none := by
  let first : AssemblyRecord := ⟨"Lib", ⟨2, 0, 0, 0⟩, [8, 7, 6, 5, 4, 3, 2, 1]⟩
  let assemblies : ModuleAssemblies :=
    ⟨first, [⟨"Library", ⟨9, 0, 0, 0⟩, []⟩, ⟨"Lib", ⟨1, 5, 0, 0⟩, []⟩, ⟨"Lib", ⟨2, 0, 0, 0⟩, []⟩]⟩
  have recorded := Registry.Runs.cons (Registry.Step.assembly (r := .empty) first)
    (.cons (Registry.step_module _ 1 (.error "no assembly metadata"))
      (.cons (Registry.step_module _ 2 (.ok assemblies)) (.nil _)))
  obtain ⟨-, size, -, newest, -, none, -⟩ := registry_exact recorded
  refine ⟨_, _, recorded, ?_, ?_, ?_⟩
  · rw [size]
    decide +kernel
  · rw [newest]
    unfold AssemblyReference.Newest
    decide +kernel
  · rw [(none _).2]
    decide +kernel

end CilProbes
