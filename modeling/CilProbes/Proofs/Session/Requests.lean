import CilProbes.Proofs.Session.Ends
import CilProbes.Session.Compile

/-!
# What a session asks for

Which requests a session makes for a method and for a module, whatever is answered. A kind of
request that is not among them is never made, and of points it is known how often they are asked
for.

* `Request.ofMethod`, `Request.ofNest`, `Request.ofInjection`: the requests about a method, those for
  the helper pair and those for injected types.
* `asks_methodCompiled`: of the other kinds a compilation asks as often as it does for points.
* `asks_methodCompiled_of_helper`: for a helper nobody asks for points.
* `asks_considerNest`, `asks_injectTypes`: what a module is asked about besides its assemblies.
-/

namespace CilProbes

/-- Whether points are asked for. -/
def Request.forPoints : Request → Bool
  | points _ => true
  | _ => false

/-- The requests that are made when a method is compiled. -/
def Request.ofMethod : Request → Bool
  | methodBody _ | allocateBody _ _ | setMethodBody _ _ | setOffsetMap _ _ => true
  | points _ | safeProbeToken _ | correlationContext _ => true
  | probeSignature _ arity => arity = .id
  | assemblyName _ | moduleAssemblies _ | registerType _ | injectType _ | defineHelpers _ => false

/-- The requests that are made to plant the helper pair. -/
def Request.ofNest : Request → Bool
  | assemblyName _ | defineHelpers _ => true
  | probeSignature _ arity => arity = .idWithContext
  | methodBody _ | allocateBody _ _ | setMethodBody _ _ | setOffsetMap _ _ | points _ => false
  | safeProbeToken _ | correlationContext _ | moduleAssemblies _ => false
  | registerType _ | injectType _ => false

/-- The requests that are made to inject types. -/
def Request.ofInjection : Request → Bool
  | registerType _ | injectType _ => true
  | _ => false

namespace Session

variable {s : Session} {function : FunctionId} {key : MethodKey} {m : Method} {n : Nat}
  {kind : Request → Bool}

/-! ## Methods -/

/-- A fault of a compilation is noted, and nothing more is asked. -/
theorem asks_of_compile (compiled : (s.compile function key).Asks kind n) :
    (s.methodCompiled function key).Asks kind n := by
  refine compiled.bind fun (result, s) => ?_
  cases result with
  | ok outcome => exact Dialogue.asks_done _
  | error fault => exact (Dialogue.asks_tell _).bind fun _ => Dialogue.asks_done _

section

variable (quiet : ∀ r : Request, r.ofMethod = true → r.forPoints = false → kind r = false)

include quiet

theorem asks_install : (install key m).run.Asks kind 0 := by
  refine Talk.asks_bind (Talk.asks_ofExcept _) fun size => ?_
  refine Talk.asks_bind (Talk.asks_demand (Dialogue.asks_request (quiet _ rfl rfl))) fun room => ?_
  refine Talk.asks_bind (Talk.asks_ofExcept _) fun (written, m) => ?_
  refine Talk.asks_bind (Talk.asks_demand (Dialogue.asks_request (quiet _ rfl rfl))) fun _ => ?_
  exact Talk.asks_pure m

theorem asks_replaceHelper {helper : Helper} :
    (s.replaceHelper key helper).run.Asks kind 0 := by
  have made : (s.helperMethod key helper).run.Asks kind 0 := by
    cases helper with
    | critical => exact Talk.asks_ofExcept _
    | safe =>
      refine Talk.asks_bind (Talk.asks_lift (Dialogue.asks_request (quiet _ rfl rfl))) fun context => ?_
      exact Talk.asks_ofExcept _
  refine Talk.asks_bind made fun m => Talk.asks_bind (asks_install quiet) fun _ => ?_
  exact Talk.asks_bind (Talk.asks_tell _) fun _ => Talk.asks_pure _

theorem asks_prepare (points : (Dialogue.request (.points key)).Asks kind n) :
    (s.prepare key).run.Asks kind n := by
  refine Talk.asks_bind (Talk.asks_demand points) fun points => ?_
  split
  · exact Talk.asks_bind (Talk.asks_tell _) fun _ => Talk.asks_pure _
  refine Talk.asks_bind (Talk.asks_demand (Dialogue.asks_request (quiet _ rfl rfl))) fun body => ?_
  refine Talk.asks_bind (Talk.asks_ofExcept _) fun m => ?_
  split
  · refine Talk.asks_bind (Talk.asks_lift (Dialogue.asks_tellAll _)) fun _ => ?_
    exact Talk.asks_bind (Talk.asks_tell _) fun _ => Talk.asks_pure _
  · exact Talk.asks_pure _

theorem asks_dispatchFor {r : Resolver} {module : ModuleId} :
    (r.dispatchFor module).Asks kind 0 := by
  have token : (r.route.tokenOf module).run.Asks kind 0 := by
    unfold Route.tokenOf
    split <;> exact Talk.asks_demand (Dialogue.asks_request (quiet _ rfl rfl))
  unfold Resolver.dispatchFor
  split
  · exact Dialogue.asks_done _
  · refine token.bind fun result => ?_
    cases result <;> exact Dialogue.asks_done _

theorem asks_instrument {points : Points} {dispatch : ProbeDispatch} :
    (s.instrument function key points m dispatch).run.Asks kind 0 := by
  refine Talk.asks_bind (Talk.asks_ofLogged _) fun (result, m) => ?_
  cases result with
  | already => exact Talk.asks_bind (Talk.asks_tell _) fun _ => Talk.asks_pure _
  | nothing => exact Talk.asks_pure _
  | applied a b =>
    have reported (m : Method) : (reportOffsets function key m).Asks kind 0 := by
      refine Dialogue.Asks.bind (Dialogue.asks_request (quiet _ rfl rfl)) fun answer => ?_
      cases answer with
      | ok => exact Dialogue.asks_done _
      | error text => exact Dialogue.asks_tell _
    refine Talk.asks_bind (asks_install quiet) fun m => ?_
    dsimp only
    split
    · refine Talk.asks_bind (Talk.asks_tell _) fun _ => ?_
      exact Talk.asks_bind (Talk.asks_lift (reported m)) fun _ => Talk.asks_pure _
    · exact Talk.asks_bind (Talk.asks_lift (reported m)) fun _ => Talk.asks_pure _

theorem asks_compile (points : (Dialogue.request (.points key)).Asks kind n) :
    (s.compile function key).Asks kind n := by
  unfold compile
  split
  · exact ((asks_replaceHelper quiet).mono (Nat.zero_le n)).bind fun _ => Dialogue.asks_done _
  refine (asks_prepare quiet points).bind fun known => ?_
  split
  · exact Dialogue.asks_done _
  · exact Dialogue.asks_done _
  refine (asks_dispatchFor quiet).bind fun (dispatch, resolver) => ?_
  cases dispatch with
  | error fault => exact Dialogue.asks_done _
  | ok dispatch => exact (asks_instrument quiet).bind fun _ => Dialogue.asks_done _

/-- **Of other kinds a compilation asks as often as it does for points.** -/
theorem asks_methodCompiled (points : (Dialogue.request (.points key)).Asks kind n) :
    (s.methodCompiled function key).Asks kind n :=
  asks_of_compile (asks_compile quiet points)

/-- **For a helper nobody asks for points.** -/
theorem asks_methodCompiled_of_helper {helper : Helper} (found : s.helper? key = some helper) :
    (s.methodCompiled function key).Asks kind 0 := by
  refine asks_of_compile ?_
  rw [compile, found]
  exact (asks_replaceHelper quiet).bind fun _ => Dialogue.asks_done _

end

/-! ## Modules -/

variable {module : ModuleId}

theorem asks_step {α : Type} {name : String} {d : Dialogue (Except String α)} (h : d.Asks kind n) :
    (Nest.step name d).run.Asks kind n :=
  Dialogue.Asks.bind (Talk.asks_demand h) fun _ => Dialogue.asks_done _

theorem asks_considerNest (quiet : ∀ r : Request, r.ofNest = true → kind r = false) :
    (s.considerNest module).Asks kind 0 := by
  have planted : (s.nest.plant module).run.Asks kind 0 := by
    unfold Nest.plant
    split
    · exact Talk.asks_pure _
    refine Talk.asks_bind (asks_step (Dialogue.asks_request (quiet _ rfl))) fun helpers => ?_
    refine Talk.asks_bind (asks_step (Dialogue.asks_request (quiet _ rfl))) fun signature => ?_
    exact Talk.asks_bind (Talk.asks_tell _) fun _ => Talk.asks_pure _
  have tried : (s.plantIn module).run.Asks kind 0 := by
    refine Talk.asks_bind (Talk.asks_demand (Dialogue.asks_request (quiet _ rfl))) fun name => ?_
    split
    · exact Talk.asks_bind planted fun _ => Talk.asks_pure _
    · exact Talk.asks_pure _
  unfold considerNest
  split
  · refine tried.bind fun result => ?_
    cases result with
    | ok nest => exact Dialogue.asks_done _
    | error fault => exact (Dialogue.asks_tell _).bind fun _ => Dialogue.asks_done _
  · exact Dialogue.asks_done _

theorem asks_injectTypes (quiet : ∀ r : Request, r.ofInjection = true → kind r = false) :
    (injectTypes module).Asks kind 0 := by
  refine (Dialogue.asks_request (quiet _ rfl)).bind fun answer => ?_
  split
  · refine (Dialogue.asks_request (quiet _ rfl)).bind fun _ => ?_
    exact Dialogue.asks_tell _
  · exact Dialogue.asks_done _

end Session

end CilProbes
