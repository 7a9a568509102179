import CilProbes.Proofs.Session.Requests
import CilProbes.Proofs.Session.Run
import CilProbes.Session.Script

/-!
# The helper pair of a session

The pair is planted once, in the first module that can hold it. Until then every module is tried in
full, whatever became of the ones before. From then on the pair is never touched again.

* `Nest.Becomes`, `Session.Considered`: the ways in which a look at a module ends.
* `Planted.Founded`, `Occurrence.Plants`: what it takes to plant a pair.
* `Step.plants_iff`, `Step.keeps_nest`: one thing that happens, before and after the planting.
* `Runs.plants_iff`: the first occasion is taken.
* `nest_planted_once`: the pair over a whole session.
-/

namespace CilProbes

/-- **The ways in which planting ends**, with what was said on the way. -/
inductive Nest.Becomes (n : Nest) (module : ModuleId) : List Exchange → Nest → Prop
  | kept {p : Planted} : n.planted = some p → Becomes n module [] n
  | refused {text : String} : n.planted = none →
      Becomes n module [⟨.defineHelpers module, .error text⟩] n
  | unsigned {helpers : HelperTokens} {text : String} : n.planted = none →
      Becomes n module [⟨.defineHelpers module, .ok helpers⟩,
        ⟨.probeSignature module .idWithContext, .error text⟩] n
  | planted {helpers : HelperTokens} {signature : Token} : n.planted = none →
      Becomes n module [⟨.defineHelpers module, .ok helpers⟩,
        ⟨.probeSignature module .idWithContext, .ok signature⟩]
        { n with planted := some ⟨module, helpers, signature⟩ }

/-- **The ways in which a look at a module ends**, as far as the nest goes. -/
inductive Session.Considered (s : Session) (module : ModuleId) : List Exchange → Nest → Prop
  | direct : s.settings.mode = .direct → Considered s module [] s.nest
  | nameless {text : String} : s.settings.mode = .cuckoo →
      Considered s module [⟨.assemblyName module, .error text⟩] s.nest
  | other {name : String} : s.settings.mode = .cuckoo → isSystemAssembly name = false →
      Considered s module [⟨.assemblyName module, .ok name⟩] s.nest
  | system {name : String} {es : List Exchange} {nest : Nest} : s.settings.mode = .cuckoo →
      isSystemAssembly name = true → s.nest.Becomes module es nest →
      Considered s module (⟨.assemblyName module, .ok name⟩ :: es) nest

section
variable {n : Nest} {module : ModuleId} {es : List Exchange}

theorem Nest.ends_step {α : Type} {name : String} {d : Dialogue (Except String α)}
    {x : Except Fault α} : (step name d).run.Ends es x ↔ ∃ answer, d.Ends es answer ∧
      x = answer.mapError fun text => .trampolineStep name (.hostApi text) := by
  change ((Talk.demand d).run.bind fun x => Dialogue.done (x.mapError _)).Ends es x ↔ _
  simp only [Dialogue.ends_map, Talk.ends_demand]
  constructor
  · rintro ⟨_, ⟨answer, h, rfl⟩, rfl⟩
    exact ⟨answer, h, by cases answer <;> rfl⟩
  · rintro ⟨answer, h, rfl⟩
    exact ⟨_, ⟨answer, h, rfl⟩, by cases answer <;> rfl⟩

/-- **Planting takes two answers**, unless the pair is there already. -/
theorem Nest.ends_plant {x : Except Fault (Bool × Nest)} (h : (n.plant module).run.Ends es x) :
    n.Becomes module es ((x.map (·.2)).toOption.getD n) := by
  unfold plant at h
  split at h
  · rename_i there
    obtain ⟨p, there⟩ := Option.isSome_iff_exists.1 there
    obtain ⟨rfl, rfl⟩ := Talk.ends_pure.1 h
    exact .kept there
  rename_i bare
  have bare : n.planted = none := by simpa using bare
  rw [Talk.ends_mapError_bind ends_step] at h
  rcases h with ⟨text, refused, rfl⟩ | ⟨helpers, _, _, given, h, rfl⟩
  · obtain rfl := Dialogue.ends_request.1 refused
    exact .refused bare
  obtain rfl := Dialogue.ends_request.1 given
  rw [Talk.ends_mapError_bind ends_step] at h
  rcases h with ⟨text, refused, rfl⟩ | ⟨signature, _, _, given, h, rfl⟩
  · obtain rfl := Dialogue.ends_request.1 refused
    exact .unsigned bare
  obtain rfl := Dialogue.ends_request.1 given
  rw [Talk.ends_tell, Talk.ends_pure] at h
  obtain ⟨rfl, rfl⟩ := h
  exact .planted bare

end

/-! ## What it takes to plant a pair -/

/-- The requests by which a pair is planted. -/
def Request.ofPlanting : Request → Bool
  | defineHelpers _ => true
  | probeSignature _ arity => arity = .idWithContext
  | _ => false

/-- **A pair is founded by what was said of a module**: it has the name of a system assembly, and its
helpers and the signature were given. -/
structure Planted.Founded (p : Planted) (module : ModuleId) (es : List Exchange) : Prop where
  place : p.module = module
  name : ∃ name, ⟨.assemblyName module, .ok name⟩ ∈ es ∧ isSystemAssembly name = true
  helpers : ⟨.defineHelpers module, .ok p.helpers⟩ ∈ es
  signature : ⟨.probeSignature module .idWithContext, .ok p.signature⟩ ∈ es

/-- Something happens that plants a pair. -/
def Occurrence.Plants : Occurrence → Planted → Prop
  | loaded module es, p => p.Founded module es
  | compiled .., _ | arrived .., _ => False

/-- **A full attempt to plant a pair.** Each question is put if the answers before it allow. -/
structure Attempt (module : ModuleId) (es : List Exchange) : Prop where
  name : ∃ answer, ⟨.assemblyName module, answer⟩ ∈ es
  helpers : ∀ name, ⟨.assemblyName module, .ok name⟩ ∈ es → isSystemAssembly name = true →
    ∃ answer, ⟨.defineHelpers module, answer⟩ ∈ es
  signature : ∀ helpers, ⟨.defineHelpers module, .ok helpers⟩ ∈ es →
    ∃ answer, ⟨.probeSignature module .idWithContext, answer⟩ ∈ es

/-- Which helper of a pair a method is; the critical one comes first. -/
def Planted.IsHelper (p : Planted) (key : MethodKey) : Helper → Prop
  | .critical => key.module = p.module ∧ key.token = p.helpers.critical
  | .safe => key.module = p.module ∧ key.token ≠ p.helpers.critical ∧ key.token = p.helpers.safe

namespace Session

variable {s s' : Session} {module : ModuleId} {es : List Exchange} {nest : Nest} {p : Planted}
  {o : Occurrence} {os : List Occurrence}

theorem ends_plantIn {x : Except Fault Nest} (cuckoo : s.settings.mode = .cuckoo)
    (h : (s.plantIn module).run.Ends es x) :
    s.Considered module es (x.toOption.getD s.nest) := by
  rw [plantIn, Talk.ends_demand_bind] at h
  rcases h with ⟨text, refused, rfl⟩ | ⟨name, _, _, given, h, rfl⟩
  · obtain rfl := Dialogue.ends_request.1 refused
    exact .nameless cuckoo
  obtain rfl := Dialogue.ends_request.1 given
  split at h
  · rename_i system
    rw [Talk.ends_bind] at h
    rcases h with ⟨fault, planted, rfl⟩ | ⟨⟨new, nest⟩, _, _, planted, h, rfl⟩
    · exact .system cuckoo system (Nest.ends_plant planted)
    · obtain ⟨rfl, rfl⟩ := Talk.ends_pure.1 h
      rw [List.append_nil]
      exact .system cuckoo system (Nest.ends_plant planted)
  · rename_i other
    obtain ⟨rfl, rfl⟩ := Talk.ends_pure.1 h
    exact .other cuckoo (by simpa using other)

theorem considered_of_ends (h : (s.considerNest module).Ends es s') :
    s.Considered module es s'.nest := by
  unfold considerNest at h
  split at h
  · rename_i cuckoo
    rw [Dialogue.bind_eq, Dialogue.ends_bind] at h
    obtain ⟨result, _, _, tried, h, rfl⟩ := h
    have considered := ends_plantIn cuckoo tried
    cases result with
    | ok nest =>
      obtain ⟨rfl, rfl⟩ := Dialogue.ends_done.1 h
      rwa [List.append_nil]
    | error fault =>
      obtain ⟨rfl, rfl⟩ := Dialogue.ends_done.1 (Dialogue.ends_note.1 h)
      rwa [List.append_nil]
  · rename_i direct
    obtain ⟨rfl, rfl⟩ := Dialogue.ends_done.1 h
    refine .direct ?_
    cases e : s'.settings.mode with
    | direct => rfl
    | cuckoo => exact absurd e direct

/-- **All that is asked for a nest when a module is loaded** is one look at the module. -/
theorem considered_of_loaded (h : (s.moduleLoaded module).Ends es s') :
    s.Considered module (es.filter (·.request.ofNest)) s'.nest := by
  obtain ⟨nest, answer, es₁, es₂, considered, injected, rfl, rfl⟩ := ends_moduleLoaded h
  have considered : s.Considered module es₁ nest := considered_of_ends considered
  have all : es₁.filter (·.request.ofNest) = es₁ := by
    cases considered with
    | direct | nameless | other => rfl
    | system _ _ becomes => cases becomes <;> rfl
  have quiet : (injectTypes module).Asks Request.ofNest 0 :=
    asks_injectTypes fun r h => by cases r <;> first | rfl | cases h
  have none : es₂.filter (·.request.ofNest) = [] := by simpa using quiet _ _ injected
  rwa [List.filter_append, List.filter_cons_of_neg (by simp [Request.ofNest]), none, all,
    List.append_nil]

namespace Considered

variable (h : s.Considered module es nest)
include h

/-- **A nest without a pair gets one if and only if it is founded.** -/
theorem founded_iff (cuckoo : s.settings.mode = .cuckoo) (bare : s.nest.planted = none)
    (p : Planted) : nest.planted = some p ↔ p.Founded module es := by
  -- Without the signature nothing is founded.
  have unsigned {rest : List Exchange}
      (h : ∀ signature, ⟨.probeSignature module .idWithContext, .ok signature⟩ ∉ rest) :
      s.nest.planted = some p ↔ p.Founded module rest := by
    rw [bare]
    exact ⟨fun e => (by cases e), fun founded => absurd founded.signature (h _)⟩
  cases h with
  | direct direct => cases direct.symm.trans cuckoo
  | nameless | other => exact unsigned (by simp)
  | @system name _ _ _ system becomes =>
    cases becomes with
    | kept | refused | unsigned => exact unsigned (by simp)
    | @planted helpers signature =>
      constructor
      · rintro ⟨⟩
        exact ⟨rfl, ⟨name, by simp, system⟩, by simp, by simp⟩
      · rintro ⟨rfl, -, sameHelpers, sameSignature⟩
        obtain rfl : p.helpers = helpers := by simpa using sameHelpers
        obtain rfl : p.signature = signature := by simpa using sameSignature
        rfl

/-- A nest that still has no pair is as it was. -/
theorem unchanged (bare : nest.planted = none) : nest = s.nest := by
  cases h with
  | direct | nameless | other => rfl
  | system _ _ becomes =>
    cases becomes with
    | kept | refused | unsigned => rfl
    | planted => cases bare

/-- As long as there is no pair, a look at a module is a full attempt. -/
theorem attempt (cuckoo : s.settings.mode = .cuckoo) (bare : s.nest.planted = none) :
    Attempt module es := by
  cases h with
  | direct direct => cases direct.symm.trans cuckoo
  | nameless => exact ⟨⟨_, List.mem_cons_self⟩, by simp, by simp⟩
  | @other name _ other =>
    refine ⟨⟨_, List.mem_cons_self⟩, fun name' named system => ?_, by simp⟩
    obtain rfl : name' = name := by simpa using named
    rw [other] at system
    cases system
  | system _ _ becomes =>
    cases becomes with
    | kept there => cases bare.symm.trans there
    | refused | unsigned | planted => constructor <;> simp

/-- **Once there is a pair it is kept**, and it is not asked for again. -/
theorem keeps (there : s.nest.planted = some p) :
    nest = s.nest ∧ ∀ e ∈ es, e.request.ofPlanting = false := by
  cases h with
  | direct | nameless | other => exact ⟨rfl, by simp [Request.ofPlanting]⟩
  | system _ _ becomes =>
    cases becomes with
    | kept => exact ⟨rfl, by simp [Request.ofPlanting]⟩
    | refused bare | unsigned bare | planted bare => cases bare.symm.trans there

/-- Without helpers nothing is asked for. -/
theorem nothing (direct : s.settings.mode = .direct) : nest = s.nest ∧ es = [] := by
  cases h with
  | direct => exact ⟨rfl, rfl⟩
  | nameless cuckoo | other cuckoo | system cuckoo => cases direct.symm.trans cuckoo

end Considered

/-! ## One thing that happens -/

theorem mem_ofNest {e : Exchange} (asked : e.request.ofNest = true) :
    e ∈ es.filter (·.request.ofNest) ↔ e ∈ es := by
  simp [asked]

/-- What founds a pair was asked for the nest. -/
theorem founded_filter :
    p.Founded module (es.filter (·.request.ofNest)) ↔ p.Founded module es := by
  constructor
  · rintro ⟨place, ⟨name, named, system⟩, helpers, signature⟩
    exact ⟨place, ⟨name, (mem_ofNest rfl).1 named, system⟩, (mem_ofNest rfl).1 helpers,
      (mem_ofNest rfl).1 signature⟩
  · rintro ⟨place, ⟨name, named, system⟩, helpers, signature⟩
    exact ⟨place, ⟨name, (mem_ofNest rfl).2 named, system⟩, (mem_ofNest rfl).2 helpers,
      (mem_ofNest rfl).2 signature⟩

theorem attempt_of_filter (h : Attempt module (es.filter (·.request.ofNest))) :
    Attempt module es := by
  obtain ⟨⟨answer, named⟩, helpers, signature⟩ := h
  refine ⟨⟨answer, (mem_ofNest rfl).1 named⟩, fun name named system => ?_, fun tokens given => ?_⟩
  · obtain ⟨answer, asked⟩ := helpers name ((mem_ofNest rfl).2 named) system
    exact ⟨answer, (mem_ofNest rfl).1 asked⟩
  · obtain ⟨answer, asked⟩ := signature tokens ((mem_ofNest rfl).2 given)
    exact ⟨answer, (mem_ofNest rfl).1 asked⟩

theorem Request.ofNest_of_planting {r : Request} (h : r.ofPlanting = true) : r.ofNest = true := by
  cases r <;> first | rfl | exact h

/-- A compilation leaves the nest alone and asks nothing for it. -/
theorem compiled_nest {function : FunctionId} {key : MethodKey} {outcome : Outcome}
    (h : (s.methodCompiled function key).Ends es (outcome, s')) :
    s'.settings = s.settings ∧ s'.nest = s.nest ∧ ∀ e ∈ es, e.request.ofNest = false := by
  have quiet : (s.methodCompiled function key).Asks Request.ofNest 0 := by
    refine asks_methodCompiled (fun r h _ => ?_) (Dialogue.asks_request rfl)
    cases r with
    | probeSignature _ arity =>
      have e : arity = .id := by simpa [Request.ofMethod] using h
      rw [e]
      rfl
    | _ => first | rfl | cases h
  have silent : ∀ e ∈ es, e.request.ofNest = false := by simpa using quiet _ _ h
  cases ends_methodCompiled h with
  | left | helper | probes => exact ⟨rfl, rfl, silent⟩

theorem Step.settings_eq (h : s.Step o s') : s'.settings = s.settings := by
  cases h with
  | loaded h =>
    obtain ⟨_, _, _, _, -, -, -, rfl⟩ := ends_moduleLoaded h
    rfl
  | compiled h => exact (compiled_nest h).1
  | arrived => rfl

/-- **As long as there is no pair, one is planted if and only if it is founded**, and every module
is tried in full. -/
theorem Step.plants_iff (h : s.Step o s') (cuckoo : s.settings.mode = .cuckoo)
    (bare : s.nest.planted = none) : (∀ p, s'.nest.planted = some p ↔ o.Plants p) ∧
      (s'.nest.planted = none → s'.nest = s.nest) ∧
      ∀ module es, o = .loaded module es → Attempt module es := by
  cases h with
  | loaded h =>
    have considered := considered_of_loaded h
    refine ⟨fun p => ?_, considered.unchanged, ?_⟩
    · exact (considered.founded_iff cuckoo bare p).trans founded_filter
    · rintro _ _ ⟨⟩
      exact attempt_of_filter (considered.attempt cuckoo bare)
  | compiled h =>
    obtain ⟨-, e, -⟩ := compiled_nest h
    rw [e, bare]
    exact ⟨fun p => ⟨fun e => (by cases e), False.elim⟩, fun _ => rfl, fun _ _ e => (by cases e)⟩
  | arrived =>
    rw [bare]
    exact ⟨fun p => ⟨fun e => (by cases e), False.elim⟩, fun _ => rfl, fun _ _ e => (by cases e)⟩

/-- **Once there is a pair, nothing that happens touches it**, nor is it asked for again. -/
theorem Step.keeps_nest (h : s.Step o s') (there : s.nest.planted = some p) :
    s'.nest = s.nest ∧ ∀ e ∈ o.exchanges, e.request.ofPlanting = false := by
  cases h with
  | @loaded module es _ h =>
    obtain ⟨kept, silent⟩ := (considered_of_loaded h).keeps there
    refine ⟨kept, fun e mem => ?_⟩
    cases asked : e.request.ofPlanting with
    | false => rfl
    | true =>
      have mem : e ∈ es.filter (·.request.ofNest) :=
        (mem_ofNest (Request.ofNest_of_planting asked)).2 mem
      exact asked.symm.trans (silent e mem)
  | compiled h =>
    obtain ⟨-, kept, silent⟩ := compiled_nest h
    refine ⟨kept, fun e mem => ?_⟩
    cases asked : e.request.ofPlanting with
    | false => rfl
    | true => exact (Request.ofNest_of_planting asked).symm.trans (silent e mem)
  | arrived => exact ⟨rfl, by simp [Occurrence.exchanges]⟩

/-- Without helpers nothing that happens touches the nest, nor is anything asked for it. -/
theorem Step.direct (h : s.Step o s') (direct : s.settings.mode = .direct) :
    s'.nest = s.nest ∧ ∀ e ∈ o.exchanges, e.request.ofNest = false := by
  cases h with
  | loaded h =>
    obtain ⟨kept, none⟩ := (considered_of_loaded h).nothing direct
    exact ⟨kept, fun e mem => by simpa using List.filter_eq_nil_iff.1 none e mem⟩
  | compiled h => exact (compiled_nest h).2
  | arrived => exact ⟨rfl, by simp [Occurrence.exchanges]⟩

/-! ## Any number of things -/

theorem Runs.settings_eq (h : s.Runs os s') : s'.settings = s.settings := by
  induction h with
  | nil => rfl
  | cons step _ ih => exact ih.trans step.settings_eq

theorem Runs.keeps_nest (h : s.Runs os s') (there : s.nest.planted = some p) :
    s'.nest = s.nest ∧ ∀ o ∈ os, ∀ e ∈ o.exchanges, e.request.ofPlanting = false := by
  induction h with
  | nil => exact ⟨rfl, by simp⟩
  | cons step _ ih =>
    obtain ⟨kept, silent⟩ := step.keeps_nest there
    obtain ⟨kept', silent'⟩ := ih (kept ▸ there)
    exact ⟨kept'.trans kept, List.forall_mem_cons.2 ⟨silent, silent'⟩⟩

theorem Runs.direct (h : s.Runs os s') (direct : s.settings.mode = .direct) :
    s'.nest = s.nest ∧ ∀ o ∈ os, ∀ e ∈ o.exchanges, e.request.ofNest = false := by
  induction h with
  | nil => exact ⟨rfl, by simp⟩
  | cons step _ ih =>
    obtain ⟨kept, silent⟩ := step.direct direct
    obtain ⟨kept', silent'⟩ := ih (step.settings_eq ▸ direct)
    exact ⟨kept'.trans kept, List.forall_mem_cons.2 ⟨silent, silent'⟩⟩

/-- **The first occasion is taken**, and no other. -/
theorem Runs.plants_iff (h : s.Runs os s') (cuckoo : s.settings.mode = .cuckoo)
    (bare : s.nest.planted = none) : s'.nest.planted = some p ↔
      ∃ before o after, os = before ++ o :: after ∧ o.Plants p ∧ ∀ o' ∈ before, ∀ p', ¬o'.Plants p' := by
  induction h with
  | nil s =>
    rw [bare]
    constructor
    · rintro ⟨⟩
    · rintro ⟨before, o, after, e, -⟩
      simp at e
  | @cons s s₁ s₂ o os step rest ih =>
    obtain ⟨planted, -⟩ := step.plants_iff cuckoo bare
    cases there : s₁.nest.planted with
    | none =>
      -- Nothing was planted here, so the occasion is one of the rest.
      have idle : ∀ p, ¬o.Plants p := fun p h => by cases there.symm.trans ((planted p).2 h)
      rw [ih (step.settings_eq ▸ cuckoo) there]
      constructor
      · rintro ⟨before, o', after, rfl, plants, first⟩
        exact ⟨o :: before, o', after, rfl, plants, List.forall_mem_cons.2 ⟨idle, first⟩⟩
      · rintro ⟨_ | ⟨o₁, before⟩, o', after, e, plants, first⟩
        · cases e
          exact absurd plants (idle p)
        · cases e
          exact ⟨before, o', after, rfl, plants, (List.forall_mem_cons.1 first).2⟩
    | some q =>
      -- The pair was planted here and stays.
      have plants := (planted q).1 there
      rw [(rest.keeps_nest there).1]
      constructor
      · intro e
        exact ⟨[], o, os, rfl, (planted p).1 e, by simp⟩
      · rintro ⟨_ | ⟨o₁, before⟩, o', after, e, plants', first⟩
        · cases e
          exact (planted p).2 plants'
        · cases e
          exact absurd plants ((List.forall_mem_cons.1 first).1 q)

/-! ## Helpers -/

theorem helper?_iff {key : MethodKey} {helper : Helper} : s.helper? key = some helper ↔
    s.settings.mode = .cuckoo ∧ ∃ p, s.nest.planted = some p ∧ p.IsHelper key helper := by
  unfold helper? Nest.helper?
  split
  · rename_i cuckoo
    simp only [cuckoo, true_and, Option.bind_eq_some_iff]
    refine exists_congr fun p => and_congr_right fun _ => ?_
    split_ifs with elsewhere critical safe <;> cases helper <;>
      simp_all [Planted.IsHelper]
  · rename_i direct
    simp [direct]

end Session

/-- **The helper pair is planted once, at the first occasion.** Take any run of a session. In direct
mode there is never a pair, and nothing is asked for one. In cuckoo mode there is one if and only if
some module was loaded that has the name of a system assembly and for which the helpers and the
signature were given, and the pair is that of the first such module. As long as there is none, a
module is tried in full, and an attempt that comes to nothing leaves the nest as it is. Once there is
a pair, it stays the same in any continuation and is never asked for again. A method gets the body of
a helper only if it is that helper of the pair at that moment, and for a helper nobody asks for
points. -/
theorem nest_planted_once (settings : Settings) (addresses : RecorderAddresses)
    {os : List Occurrence} {s : Session} (runs : (Session.new settings addresses).Runs os s) :
    (settings.mode = .direct →
      s.nest.planted = none ∧ ∀ o ∈ os, ∀ e ∈ o.exchanges, e.request.ofNest = false) ∧
    (settings.mode = .cuckoo → ∀ p, s.nest.planted = some p ↔ ∃ before o after,
      os = before ++ o :: after ∧ o.Plants p ∧ ∀ o' ∈ before, ∀ p', ¬o'.Plants p') ∧
    (settings.mode = .cuckoo → s.nest.planted = none →
      ∀ (module : ModuleId) (es : List Exchange) (s' : Session), s.Step (.loaded module es) s' →
        Attempt module es ∧ (∀ p, s'.nest.planted = some p ↔ p.Founded module es) ∧
        ((∀ p : Planted, ¬p.Founded module es) → s'.nest = s.nest)) ∧
    (∀ p, s.nest.planted = some p → ∀ (after : List Occurrence) (s' : Session), s.Runs after s' →
      s'.nest = s.nest ∧ ∀ o ∈ after, ∀ e ∈ o.exchanges, e.request.ofPlanting = false) ∧
    ∀ (function : FunctionId) (key : MethodKey) (es : List Exchange) (outcome : Outcome)
      (s' : Session), s.Step (.compiled function key es outcome) s' →
      (∀ helper, outcome = .helperReplaced helper →
        settings.mode = .cuckoo ∧ ∃ p, s.nest.planted = some p ∧ p.IsHelper key helper) ∧
      (settings.mode = .cuckoo → ∀ p helper, s.nest.planted = some p → p.IsHelper key helper →
        ∀ e ∈ es, e.request.forPoints = false) := by
  have mode : s.settings.mode = settings.mode := congrArg Settings.mode runs.settings_eq
  refine ⟨fun direct => ?_, fun cuckoo p => runs.plants_iff cuckoo rfl,
    fun cuckoo bare module es s' step => ?_, fun p there after s' more => more.keeps_nest there,
    fun function key es outcome s' step => ?_⟩
  · obtain ⟨kept, silent⟩ := runs.direct direct
    rw [kept]
    exact ⟨rfl, silent⟩
  · obtain ⟨planted, unchanged, attempt⟩ := step.plants_iff (mode.trans cuckoo) bare
    refine ⟨attempt _ _ rfl, planted, fun unfounded => unchanged ?_⟩
    exact Option.eq_none_iff_forall_ne_some.2 fun p e => unfounded p ((planted p).1 e)
  · cases step with
    | compiled ends =>
      refine ⟨?_, fun cuckoo p helper there isHelper => ?_⟩
      · rintro helper rfl
        obtain ⟨found, -⟩ := (Session.ends_methodCompiled ends).of_helperReplaced
        rw [← mode]
        exact Session.helper?_iff.1 found
      · have found := Session.helper?_iff.2 ⟨mode.trans cuckoo, p, there, isHelper⟩
        have quiet : (s.methodCompiled function key).Asks Request.forPoints 0 :=
          Session.asks_methodCompiled_of_helper (fun _ _ other => other) found
        simpa using quiet _ _ ends

/-- A process with two system assemblies, the first of which refuses the helpers. -/
def twoSystemsProcess : Script where
  modules :=
    (Table.empty.insert 1 { ScriptedModule.blank with assembly := some "mscorlib" }).insert 2
      { ScriptedModule.blank with
        assembly := some "System.Private.CoreLib"
        helpers := some ⟨⟨0x06000010⟩, ⟨0x06000011⟩⟩
        signatures := Table.empty.insert .idWithContext ⟨0x11000005⟩ }
  points := []
  bodies := .empty
  switches := {}

/-- The pair comes from the second module, and the critical helper gets its body. -/
theorem nest_planted_once_second : ∃ os s p es s',
    (Session.new .default ⟨0, 0, .bits64⟩).Runs os s ∧ s.nest.planted = some p ∧ p.module = 2 ∧
    (∃ before o after, os = before ++ o :: after ∧ o.Plants p ∧
      ∀ o' ∈ before, ∀ p', ¬o'.Plants p') ∧
    s.Step (.compiled 1 ⟨2, ⟨0x06000010⟩⟩ es (.helperReplaced .critical)) s' ∧
    ∀ e ∈ es, e.request.forPoints = false := by
  let key : MethodKey := ⟨2, ⟨0x06000010⟩⟩
  let p : Planted := ⟨2, ⟨⟨0x06000010⟩, ⟨0x06000011⟩⟩, ⟨0x11000005⟩⟩
  obtain ⟨os, s, es, s', runs, planted, step⟩ : ∃ os s es s',
      (Session.new .default ⟨0, 0, .bits64⟩).Runs os s ∧ s.nest.planted = some p ∧
        s.Step (.compiled 1 key es (.helperReplaced .critical)) s' := by
    have runs := Session.Runs.cons
      (Session.load_run (.new .default ⟨0, 0, .bits64⟩) 1 Script.world twoSystemsProcess)
      (.cons (Session.load_run _ 2 Script.world twoSystemsProcess) (.nil _))
    refine ⟨_, _, _, _, runs, ?_,
      @Session.step_run Script _ 1 key Script.world twoSystemsProcess _ ?_⟩
    · decide +kernel
    · decide +kernel
  obtain ⟨-, occasion, -, -, helpers⟩ := nest_planted_once _ _ runs
  have quiet := (helpers _ _ _ _ _ step).2 rfl p .critical planted ⟨rfl, rfl⟩
  exact ⟨os, s, p, es, s', runs, planted, rfl, (occasion rfl p).1 planted, step, quiet⟩

end CilProbes
