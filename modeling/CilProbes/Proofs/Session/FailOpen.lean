import CilProbes.Proofs.Session.Parts

/-!
# Compilation fails open

What a session changes at the host when a method is compiled. From the ways in which the parts of a
compilation end, `Session.Compiled` puts together those of the whole: the method was left alone, or
it got the body of a helper, or it got a body with probes.

* `Session.Kept`: the reasons for which a method is left alone.
* `Parts.compiled`, `ends_methodCompiled`: how the whole compilation may end.
* `methodCompiled_failsOpen`: what outcome, host and session have to do with each other.
-/

namespace CilProbes

/-- The requests that a body be put in place. -/
def Request.setsBody : Request → Bool
  | setMethodBody _ _ => true
  | _ => false

/-- The method has a new body. -/
def Outcome.replaced : Outcome → Bool
  | instrumented _ _ | helperReplaced _ => true
  | skipped _ | failed => false

/-- The dispatch of a module: by the token known before, otherwise by the answered one. -/
def Resolver.Supplies (r : Resolver) (module : ModuleId) (es : List Exchange) (d : ProbeDispatch) :
    Prop :=
  ∃ token, d = r.route.dispatch token ∧
    (r.tokens.find? module = some token ∨
      r.tokens.find? module = none ∧ r.route.Answered module es (.ok token))

theorem Resolver.Supplies.mono {r : Resolver} {module : ModuleId} {d : ProbeDispatch}
    {es es' : List Exchange} (h : r.Supplies module es d) (sub : es ⊆ es') :
    r.Supplies module es' d := by
  obtain ⟨token, rfl, known | ⟨unknown, given⟩⟩ := h
  · exact ⟨token, rfl, .inl known⟩
  · exact ⟨token, rfl, .inr ⟨unknown, given.mono sub⟩⟩

namespace Session

/-- The method that stands for a helper; the safe one needs to know how to get at the correlation
id. -/
def StandsFor (s : Session) (key : MethodKey) (es : List Exchange) : Helper → Method → Prop
  | .critical, m => s.nest.criticalMethod = .ok m
  | .safe, m => ∃ context, ⟨.correlationContext key.module, context⟩ ∈ es ∧
      s.nest.safeMethod context = .ok m

/-- The points and the decoded body of a method, as they were answered. -/
def Supplied (key : MethodKey) (es : List Exchange) (points : Points) (m : Method) : Prop :=
  ⟨.points key, .ok points⟩ ∈ es ∧
    ∃ body, ⟨.methodBody key, .ok body⟩ ∈ es ∧ Method.decode body = .ok m

/-- **What instrumentation came to**, for the supplied points, body and dispatch. -/
def Tried (s : Session) (key : MethodKey) (es : List Exchange) (points : Points)
    (result : Except Fault (Instrumented × Method)) : Prop :=
  ∃ m dispatch, Supplied key es points m ∧ s.resolver.Supplies key.module es dispatch ∧
    (m.instrument points dispatch).runOn.1 = result

/-- **Why a method is left alone**, and with which outcome. -/
inductive Kept (s : Session) (key : MethodKey) (es : List Exchange) : Outcome → Prop
  | unlisted {text : String} : ⟨.points key, .error text⟩ ∈ es → Kept s key es .failed
  | noPoints {points : Points} : ⟨.points key, .ok points⟩ ∈ es → points.sequence.isEmpty = true →
      Kept s key es (.skipped .noPoints)
  | bodyless {text : String} : ⟨.methodBody key, .error text⟩ ∈ es → Kept s key es .failed
  | undecoded {body : Bytes} {fault : Fault} : ⟨.methodBody key, .ok body⟩ ∈ es →
      Method.decode body = .error fault → Kept s key es .failed
  | unresolved {text : String} : s.resolver.tokens.find? key.module = none →
      s.resolver.route.Answered key.module es (.error text) → Kept s key es .failed
  | faulty {points : Points} {fault : Fault} : s.Tried key es points (.error fault) →
      Kept s key es .failed
  | nothing {points : Points} {m' : Method} : s.Tried key es points (.ok (.nothing, m')) →
      Kept s key es (.skipped .noPoints)
  | already {points : Points} {m' : Method} : s.Tried key es points (.ok (.already, m')) →
      Kept s key es (.skipped .alreadyInstrumented)
  | probesStopped {points : Points} {a b : Nat} {m' : Method} :
      s.Tried key es points (.ok (.applied a b, m')) → Stopped key m' es → Kept s key es .failed
  | helperStopped {helper : Helper} {m : Method} : s.helper? key = some helper →
      s.StandsFor key es helper m → Stopped key m es → Kept s key es .failed

/-- **The ways in which a compilation ends.** -/
inductive Compiled (s : Session) (function : FunctionId) (key : MethodKey) (es : List Exchange) :
    Outcome → Session → Prop
  | left {outcome : Outcome} (resolver : Resolver) : s.Kept key es outcome → Untouched key es →
      Compiled s function key es outcome { s with resolver }
  | helper {helper : Helper} {m final : Method} {body : Bytes} : s.helper? key = some helper →
      s.StandsFor key es helper m → Fitted key m es body final →
      hostChanges es = [⟨.setMethodBody key body, .ok ()⟩] →
      Compiled s function key es (.helperReplaced helper) s
  | probes {points : Points} {m' final : Method} {a b : Nat} {body : Bytes}
      {answer : Except String Unit} (resolver : Resolver) :
      s.Tried key es points (.ok (.applied a b, m')) → Fitted key m' es body final →
      hostChanges es =
        [⟨.setMethodBody key body, .ok ()⟩, ⟨.setOffsetMap function final.offsetMap, answer⟩] →
      Compiled s function key es (.instrumented a b)
        { s with resolver, counters := reserve points s.counters }

section
variable {s : Session} {function : FunctionId} {key : MethodKey} {m : Method} {es : List Exchange}

theorem StandsFor.mono {helper : Helper} {es' : List Exchange} (h : s.StandsFor key es helper m)
    (sub : es ⊆ es') : s.StandsFor key es' helper m := by
  cases helper with
  | critical => exact h
  | safe =>
    obtain ⟨context, asked, e⟩ := h
    exact ⟨context, sub asked, e⟩

theorem Supplied.mono {points : Points} {es' : List Exchange} (h : Supplied key es points m)
    (sub : es ⊆ es') : Supplied key es' points m := by
  obtain ⟨asked, body, given, decoded⟩ := h
  exact ⟨sub asked, body, sub given, decoded⟩

theorem Kept.not_replaced {outcome : Outcome} (h : s.Kept key es outcome) :
    outcome.replaced = false := by
  cases h <;> rfl

/-! ## Helpers -/

/-- A nest with helpers is planted, so they have bodies. -/
theorem pair_of_helper? {helper : Helper} (h : s.helper? key = some helper) :
    ∃ p, s.nest.pair = .ok p := by
  unfold helper? at h
  split at h
  · obtain ⟨p, planted, -⟩ := Option.bind_eq_some_iff.1 h
    exact ⟨p, by rw [Nest.pair, planted]⟩
  · cases h

theorem ends_helperMethod {helper : Helper} {x : Except Fault Method}
    (found : s.helper? key = some helper) (h : (s.helperMethod key helper).run.Ends es x) :
    hostChanges es = [] ∧ ∃ m, x = .ok m ∧ s.StandsFor key es helper m := by
  obtain ⟨p, planted⟩ := pair_of_helper? found
  cases helper with
  | critical =>
    obtain ⟨rfl, rfl⟩ := Talk.ends_ofExcept.1 h
    obtain ⟨m, e⟩ : ∃ m, s.nest.criticalMethod = .ok m := ⟨_, map_ok.2 ⟨p, planted, rfl⟩⟩
    exact ⟨rfl, m, e, e⟩
  | safe =>
    rw [helperMethod, Talk.ends_lift_bind] at h
    obtain ⟨context, _, _, asked, h, rfl⟩ := h
    obtain rfl := Dialogue.ends_request.1 asked
    obtain ⟨rfl, rfl⟩ := Talk.ends_ofExcept.1 h
    obtain ⟨m, e⟩ : ∃ m, s.nest.safeMethod context = .ok m := ⟨_, map_ok.2 ⟨p, planted, rfl⟩⟩
    exact ⟨rfl, m, e, context, List.mem_cons_self, e⟩

/-- The helper's method is put in place, or there is a reason why not. -/
theorem ends_replaceHelper {helper : Helper} {x : Except Fault Outcome}
    (found : s.helper? key = some helper) (h : (s.replaceHelper key helper).run.Ends es x) :
    (∃ fault, x = .error fault ∧ s.Kept key es .failed ∧ Untouched key es) ∨
    ∃ m body final, x = .ok (.helperReplaced helper) ∧ s.StandsFor key es helper m ∧
      Fitted key m es body final ∧ hostChanges es = [⟨.setMethodBody key body, .ok ()⟩] := by
  rw [replaceHelper, Talk.ends_bind] at h
  rcases h with ⟨fault, stop, rfl⟩ | ⟨m, es₁, _, taken, h, rfl⟩
  · obtain ⟨-, _, e, -⟩ := ends_helperMethod found stop
    cases e
  obtain ⟨quiet, _, e, stands⟩ := ends_helperMethod found taken
  cases e
  rcases ends_install_bind h with
    ⟨fault, rfl, stopped, untouched⟩ | ⟨body, final, es₂, _, fitted, changed, told, rfl⟩
  · exact .inl ⟨fault, rfl, .helperStopped found (stands.mono (by simp)) (stopped.mono (by simp)),
      untouched.behind quiet⟩
  · rw [Talk.ends_tell, Talk.ends_pure] at told
    obtain ⟨rfl, rfl⟩ := told
    rw [List.append_nil]
    refine .inr ⟨m, body, final, rfl, stands.mono (by simp), fitted.mono (by simp), ?_⟩
    rw [hostChanges_append, quiet, changed]
    rfl

/-! ## Points, body and dispatch -/

/-- Without a body the method is left alone. -/
theorem Prepared.kept_failed {fault : Fault} (h : Prepared key es (.error fault)) :
    s.Kept key es .failed := by
  cases h with
  | unlisted => exact .unlisted List.mem_cons_self
  | bodyless => exact .bodyless (List.mem_cons_of_mem _ List.mem_cons_self)
  | undecoded undecoded => exact .undecoded (List.mem_cons_of_mem _ List.mem_cons_self) undecoded

/-- And so it is without points. -/
theorem Prepared.kept_skipped (h : Prepared key es (.ok none)) :
    s.Kept key es (.skipped .noPoints) := by
  cases h with
  | noPoints empty => exact .noPoints List.mem_cons_self empty

theorem Prepared.supplied {points : Points} (h : Prepared key es (.ok (some (points, m)))) :
    Supplied key es points m := by
  cases h with
  | @known _ body _ _ decoded =>
    exact ⟨List.mem_cons_self, body, List.mem_cons_of_mem _ List.mem_cons_self, decoded⟩

/-- A dispatch calls by the token of its module. -/
theorem Resolved.supplies {r r' : Resolver} {module : ModuleId} {d : ProbeDispatch}
    (h : Resolved r module es (.ok d) r') : r.Supplies module es d := by
  cases h with
  | known known => exact ⟨_, rfl, .inl known⟩
  | learned unknown _ answered => exact ⟨_, rfl, .inr ⟨unknown, answered⟩⟩

/-! ## The whole -/

/-- **Probes are put in place and their offsets reported**, or there is a reason why not. Here `es₀`
is what was said before. -/
theorem Probed.compiled {es₀ : List Exchange} {points : Points} {dispatch : ProbeDispatch}
    {x : Except Fault Outcome} (h : Probed function key points m dispatch es x)
    (supplied : Supplied key es₀ points m) (supplies : s.resolver.Supplies key.module es₀ dispatch)
    (quiet : hostChanges es₀ = []) (resolver : Resolver) :
    s.Compiled function key (es₀ ++ es) (x.toOption.getD .failed)
      (({ s with resolver } : Session).afterInstrument points x) := by
  have tried : ∀ es result, (m.instrument points dispatch).runOn.1 = result →
      s.Tried key (es₀ ++ es) points result := by
    intro es result e
    exact ⟨m, dispatch, supplied.mono (by simp), supplies.mono (by simp), e⟩
  have untouched : Untouched key (es₀ ++ []) := Untouched.behind quiet (.inl rfl)
  cases h with
  | faulty e => exact .left resolver (.faulty (tried _ _ e)) untouched
  | already e => exact .left resolver (.already (tried _ _ e)) untouched
  | nothing e => exact .left resolver (.nothing (tried _ _ e)) untouched
  | stopped e stopped kept =>
    exact .left resolver (.probesStopped (tried _ _ e) (stopped.mono (by simp))) (kept.behind quiet)
  | applied e fitted changed =>
    have changes := hostChanges_append es₀ es
    rw [quiet, changed] at changes
    exact .probes resolver (tried _ _ e) (fitted.mono (by simp)) changes

/-- **How a compilation ends**, a fault counted as a failure. -/
theorem Parts.compiled {x : Except Fault Outcome} {s' : Session}
    (h : s.Parts function key es x s') : s.Compiled function key es (x.toOption.getD .failed) s' := by
  cases h with
  | helper found replaced =>
    rcases ends_replaceHelper found replaced with
      ⟨fault, rfl, kept, untouched⟩ | ⟨m, body, final, rfl, stands, fitted, changed⟩
    · exact .left s.resolver kept untouched
    · exact .helper found stands fitted changed
  | unprepared prepared => exact .left s.resolver prepared.kept_failed (.inl prepared.quiet)
  | pointless prepared => exact .left s.resolver prepared.kept_skipped (.inl prepared.quiet)
  | unresolved prepared resolved =>
    cases resolved with
    | refused unknown quiet refused =>
      refine .left _ (.unresolved unknown (refused.mono (by simp))) (.inl ?_)
      rw [hostChanges_append, prepared.quiet, quiet]
      rfl
  | probed prepared resolved probed =>
    refine probed.compiled (prepared.supplied.mono (by simp)) (resolved.supplies.mono (by simp)) ?_ _
    rw [hostChanges_append, prepared.quiet, resolved.quiet]
    rfl

theorem ends_methodCompiled {x : Outcome × Session} (h : (s.methodCompiled function key).Ends es x) :
    s.Compiled function key es x.1 x.2 := by
  obtain ⟨result, parts, e⟩ := parts_of_ends h
  rw [e]
  exact parts.compiled

/-! ## What the end of a compilation tells -/

namespace Compiled

variable {outcome : Outcome} {s' : Session}

/-- A body is offered once or not at all. -/
theorem once (h : s.Compiled function key es outcome s') :
    es.countP (·.request.setsBody) ≤ 1 := by
  have offered : es.countP (·.request.setsBody) = (hostChanges es).countP (·.request.setsBody) := by
    rw [hostChanges, List.countP_filter]
    refine List.countP_congr fun e _ => ?_
    cases he : e.request with
    | _ => simp [Request.setsBody, Request.changesHost]
  rw [offered]
  cases h with
  | left _ _ untouched =>
    rcases untouched with e | ⟨body, text, e⟩
    · simp [e]
    · simp [e, Request.setsBody]
  | helper _ _ _ changed => simp [changed, Request.setsBody]
  | probes _ _ _ changed => simp [changed, Request.setsBody]

theorem accepted_iff (h : s.Compiled function key es outcome s') : outcome.replaced = true ↔
    ∃ key' body, ⟨.setMethodBody key' body, .ok ()⟩ ∈ es := by
  have taken : ∀ key' body, (⟨.setMethodBody key' body, .ok ()⟩ : Exchange) ∈ es ↔
      ⟨.setMethodBody key' body, .ok ()⟩ ∈ hostChanges es := fun _ _ => (mem_hostChanges rfl).symm
  simp only [taken]
  cases h with
  | left _ kept untouched =>
    rcases untouched with e | ⟨body, text, e⟩
    · simp [e, kept.not_replaced]
    · simp [e, kept.not_replaced]
  | helper _ _ _ changed => simp [changed, Outcome.replaced]
  | probes _ _ _ changed => simp [changed, Outcome.replaced]

/-- Offsets are reported of bodies with probes only. -/
theorem of_reported {function' : FunctionId} {map : List OffsetPair} {answer : Except String Unit}
    (h : s.Compiled function key es outcome s')
    (reported : ⟨.setOffsetMap function' map, answer⟩ ∈ es) : ∃ a b, outcome = .instrumented a b := by
  rw [← mem_hostChanges rfl] at reported
  cases h with
  | left _ _ untouched =>
    rcases untouched with e | ⟨body, text, e⟩
    · simp [e] at reported
    · simp [e] at reported
  | helper _ _ _ changed => simp [changed] at reported
  | probes => exact ⟨_, _, rfl⟩

theorem of_instrumented {a b : Nat} (h : s.Compiled function key es (.instrumented a b) s') :
    ∃ points m dispatch m' body final answer,
      Supplied key es points m ∧ s.resolver.Supplies key.module es dispatch ∧
      (m.instrument points dispatch).runOn.1 = .ok (.applied a b, m') ∧ Fitted key m' es body final ∧
      hostChanges es =
        [⟨.setMethodBody key body, .ok ()⟩, ⟨.setOffsetMap function final.offsetMap, answer⟩] ∧
      s'.counters = reserve points s.counters := by
  cases h with
  | left _ kept _ => cases kept.not_replaced
  | probes _ tried fitted changed =>
    obtain ⟨m, dispatch, supplied, supplies, applied⟩ := tried
    exact ⟨_, m, dispatch, _, _, _, _, supplied, supplies, applied, fitted, changed, rfl⟩

theorem of_helperReplaced {helper : Helper}
    (h : s.Compiled function key es (.helperReplaced helper) s') : s.helper? key = some helper ∧
      ∃ m body final, s.StandsFor key es helper m ∧ Fitted key m es body final ∧
        hostChanges es = [⟨.setMethodBody key body, .ok ()⟩] := by
  cases h with
  | left _ kept _ => cases kept.not_replaced
  | helper found stands fitted changed => exact ⟨found, _, _, _, stands, fitted, changed⟩

theorem of_kept (h : s.Compiled function key es outcome s') (kept : outcome.replaced = false) :
    s.Kept key es outcome ∧ s'.counters = s.counters ∧ s'.nest = s.nest ∧
      s'.registry = s.registry := by
  cases h with
  | left _ reason _ => exact ⟨reason, rfl, rfl, rfl⟩
  | helper => cases kept
  | probes => cases kept

end Compiled

end

end Session

/-- **Compilation fails open, exactly.** Whatever the session has learned so far and whatever its
collaborators answer, at most one body is offered to the host, and the method counts as replaced if
and only if the host took it. What it took are the bytes of `encode` for the method with probes or
for the helper. Otherwise there is a reason, the host got neither body nor offsets, and the session
still has the counters, the nest and the assemblies of before. A refused report of offsets takes
nothing back. -/
theorem methodCompiled_failsOpen {σ : Type} (s : Session) (function : FunctionId) (key : MethodKey)
    (w : World σ) (state : σ) :
    let run := (s.methodCompiled function key).run w state
    let outcome := run.1.1
    let after := run.1.2
    let es := run.2.2.exchanges
    es.countP (·.request.setsBody) ≤ 1 ∧
    (outcome.replaced = true ↔ ∃ key' body, ⟨.setMethodBody key' body, .ok ()⟩ ∈ es) ∧
    (∀ a b, outcome = .instrumented a b → ∃ points m dispatch m' body final answer,
      Session.Supplied key es points m ∧ s.resolver.Supplies key.module es dispatch ∧
      (m.instrument points dispatch).runOn.1 = .ok (.applied a b, m') ∧ Fitted key m' es body final ∧
      hostChanges es =
        [⟨.setMethodBody key body, .ok ()⟩, ⟨.setOffsetMap function final.offsetMap, answer⟩] ∧
      after.counters = Session.reserve points s.counters) ∧
    (∀ helper, outcome = .helperReplaced helper → s.helper? key = some helper ∧
      ∃ m body final, s.StandsFor key es helper m ∧ Fitted key m es body final ∧
        hostChanges es = [⟨.setMethodBody key body, .ok ()⟩]) ∧
    (outcome.replaced = false → (∀ key' body, ⟨.setMethodBody key' body, .ok ()⟩ ∉ es) ∧
      (∀ function' map answer, ⟨.setOffsetMap function' map, answer⟩ ∉ es) ∧ s.Kept key es outcome ∧
      after.counters = s.counters ∧ after.nest = s.nest ∧ after.registry = s.registry) ∧
    (∀ function' map answer, ⟨.setOffsetMap function' map, answer⟩ ∈ es →
      ∃ a b, outcome = .instrumented a b) := by
  intro run outcome after es
  have compiled : s.Compiled function key es outcome after :=
    Session.ends_methodCompiled (Dialogue.ends_run w _ state)
  refine ⟨compiled.once, compiled.accepted_iff, ?_, ?_, ?_, fun _ _ _ => compiled.of_reported⟩
  · intro a b e
    rw [e] at compiled
    exact compiled.of_instrumented
  · intro helper e
    rw [e] at compiled
    exact compiled.of_helperReplaced
  · intro kept
    refine ⟨fun key' body taken => ?_, fun _ _ _ reported => ?_, compiled.of_kept kept⟩
    · rw [compiled.accepted_iff.2 ⟨key', body, taken⟩] at kept
      cases kept
    · obtain ⟨a, b, e⟩ := compiled.of_reported reported
      rw [e] at kept
      cases kept

end CilProbes
