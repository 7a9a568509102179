import CilProbes.Proofs.Coverage.Guard
import CilProbes.Proofs.Session.OffsetMap
import CilProbes.Proofs.Session.Run

/-!
# A method is instrumented once

A body with probes is recognized by the probe at its start. That takes the same probe at both times:
the token of a module is kept from when it is first known, whatever the collaborators would answer
later.

* `Resolver.Learns`, `Runs.learns`: in a run the route stays and no token is lost.
* `Parts.instrumented`: what a compilation that ended with probes had and what it left.
* `Parts.again`: a body in which the guard finds the probe is left alone.
* `instrumented_once`: the second compilation of a method.
-/

namespace CilProbes

/-- **What a resolver learns in time**: the route stays, and no token is lost. -/
structure Resolver.Learns (r r' : Resolver) : Prop where
  route : r'.route = r.route
  keeps : ∀ module token, r.tokens.find? module = some token →
    r'.tokens.find? module = some token

namespace Resolver

variable {r r₁ r₂ : Resolver}

theorem Learns.refl (r : Resolver) : r.Learns r := ⟨rfl, fun _ _ known => known⟩

theorem Learns.trans (h : r.Learns r₁) (h' : r₁.Learns r₂) : r.Learns r₂ :=
  ⟨h'.route.trans h.route, fun module token known => h'.keeps module token (h.keeps module token known)⟩

end Resolver

namespace Session

section
variable {r r' : Resolver} {module : ModuleId} {es : List Exchange} {x : Except Fault ProbeDispatch}

theorem Resolved.learns (h : Resolved r module es x r') : r.Learns r' := by
  cases h with
  | known | refused => exact .refl r
  | @learned token _ unknown _ _ =>
    refine ⟨rfl, fun other token' known => ?_⟩
    have ne : other ≠ module := fun e => by cases (e ▸ unknown).symm.trans known
    rw [Table.find?_insert_of_ne _ ne, known]

/-- The token by which a dispatch calls is known from then on. -/
theorem Resolved.token {d : ProbeDispatch} (h : Resolved r module es (.ok d) r') :
    ∃ token, r'.tokens.find? module = some token ∧ d = r'.route.dispatch token := by
  cases h with
  | known known => exact ⟨_, known, rfl⟩
  | learned => exact ⟨_, Table.find?_insert_self .., rfl⟩

end

variable {s s' : Session} {function : FunctionId} {key : MethodKey} {es : List Exchange}
  {o : Occurrence} {os : List Occurrence} {points : Points}

@[simp] theorem resolver_afterInstrument (x : Except Fault Outcome) :
    (s.afterInstrument points x).resolver = s.resolver := by
  unfold afterInstrument
  split <;> rfl

theorem Parts.learns {x : Except Fault Outcome} (h : s.Parts function key es x s') :
    s.resolver.Learns s'.resolver := by
  cases h with
  | helper | unprepared | pointless => exact .refl _
  | unresolved _ resolved => exact resolved.learns
  | probed _ resolved _ =>
    rw [resolver_afterInstrument]
    exact resolved.learns

theorem Step.learns (h : s.Step o s') : s.resolver.Learns s'.resolver := by
  cases h with
  | loaded h =>
    obtain ⟨_, _, _, _, -, -, -, rfl⟩ := ends_moduleLoaded h
    exact .refl _
  | compiled h =>
    obtain ⟨_, parts, -⟩ := parts_of_ends h
    exact parts.learns
  | arrived => exact .refl _

/-- **In no run does the route change or is a token lost.** -/
theorem Runs.learns (h : s.Runs os s') : s.resolver.Learns s'.resolver := by
  induction h with
  | nil s => exact .refl _
  | cons step _ ih => exact step.learns.trans ih

/-! ## Two compilations of a method -/

/-- **A compilation that ended with probes** instrumented the decoded body by a token that is known
from then on, and installed what was written of it. -/
theorem Parts.instrumented {a b : Nat} (h : s.Parts function key es (.ok (.instrumented a b)) s') :
    ∃ points body m token m' installed final, ⟨.points key, .ok points⟩ ∈ es ∧
      points.sequence.isEmpty = false ∧
      ⟨.methodBody key, .ok body⟩ ∈ es ∧ Method.decode body = .ok m ∧
      s'.resolver.tokens.find? key.module = some token ∧
      (m.instrument points (s'.resolver.route.dispatch token)).runOn.1 = .ok (.applied a b, m') ∧
      m'.encode false = .ok (installed, final) ∧
      ∀ c, ⟨.setMethodBody key c, .ok ()⟩ ∈ es → c = installed := by
  cases h with
  | helper found replaced =>
    rcases ends_replaceHelper found replaced with ⟨_, e, -⟩ | ⟨_, _, _, e, -⟩
    · cases e
    · cases e
  | @probed points m dispatch es₁ es₂ es₃ resolver _ prepared resolved probed =>
    obtain ⟨token, known, rfl⟩ := resolved.token
    cases probed with
    | @applied _ _ m' final _ installed _ applied fitted changed =>
      have quiet := prepared.quiet
      cases prepared with
      | @known _ body _ listed decoded =>
        refine ⟨points, body, m, token, m', installed, final, by simp, listed, by simp, decoded, ?_,
          ?_, fitted.encoded, fun c taken => ?_⟩
        · rwa [resolver_afterInstrument]
        · rwa [resolver_afterInstrument]
        · rw [← mem_hostChanges rfl, hostChanges_append, hostChanges_append, quiet, resolved.quiet,
            changed] at taken
          simpa using taken

/-- **A body in which the guard finds the probe is left alone.** Nothing is asked but for the points
and the body, and the session is as it was. -/
theorem Parts.again {x : Except Fault Outcome} {c : Bytes} {m m' : Method} {token : Token}
    (h : s.Parts function key es x s') (ordinary : s.helper? key = none)
    (supplied : ∀ answer, ⟨.points key, answer⟩ ∈ es → answer = .ok points)
    (listed : points.sequence.isEmpty = false)
    (given : ∀ answer, ⟨.methodBody key, answer⟩ ∈ es → answer = .ok c)
    (decoded : Method.decode c = .ok m)
    (known : s.resolver.tokens.find? key.module = some token)
    (already : (m.instrument points (s.resolver.route.dispatch token)).runOn.1
      = .ok (.already, m')) :
    x = .ok (.skipped .alreadyInstrumented) ∧
      es = [⟨.points key, .ok points⟩, ⟨.methodBody key, .ok c⟩] ∧ s' = s := by
  -- The points and the body are those that are given.
  have prepared_iff {es₁ : List Exchange} {y : Except Fault (Option (Points × Method))}
      (sub : es₁ ⊆ es) (prepared : Prepared key es₁ y) :
      y = .ok (some (points, m)) ∧
        es₁ = [⟨.points key, .ok points⟩, ⟨.methodBody key, .ok c⟩] := by
    cases prepared with
    | unlisted => cases supplied _ (sub List.mem_cons_self)
    | noPoints empty =>
      cases supplied _ (sub List.mem_cons_self)
      cases listed.symm.trans empty
    | bodyless => cases given _ (sub (List.mem_cons_of_mem _ List.mem_cons_self))
    | undecoded undecoded =>
      cases given _ (sub (List.mem_cons_of_mem _ List.mem_cons_self))
      cases decoded.symm.trans undecoded
    | known _ decoded' =>
      cases supplied _ (sub List.mem_cons_self)
      cases given _ (sub (List.mem_cons_of_mem _ List.mem_cons_self))
      cases decoded.symm.trans decoded'
      exact ⟨rfl, rfl⟩
  cases h with
  | helper found => cases ordinary.symm.trans found
  | unprepared prepared => cases (prepared_iff (by simp) prepared).1
  | pointless prepared => cases (prepared_iff (by simp) prepared).1
  | unresolved _ resolved =>
    cases resolved with
    | refused unknown => cases known.symm.trans unknown
  | probed prepared resolved probed =>
    obtain ⟨e, rfl⟩ := prepared_iff (by simp) prepared
    cases e
    cases resolved with
    | learned unknown => cases known.symm.trans unknown
    | known known' =>
      cases known.symm.trans known'
      cases probed with
      | already => exact ⟨rfl, rfl, rfl⟩
      | faulty e | nothing e | stopped e | applied e => cases already.symm.trans e

end Session

/-- **A method is instrumented once.** A method was compiled and got a body with probes, from a body
that is not empty. Then anything may happen: modules are loaded, methods are compiled, recorders are
called. When the method is compiled again, not being a helper, with the same points, of which the
lowest is at the start, and with the body that was installed, it is recognized. Then nothing is asked
but for the points and the body, whatever token the collaborators would give now, and the session is
as it was. -/
theorem instrumented_once {s₀ s₁ s₂ s₃ : Session} {function function' : FunctionId} {key : MethodKey}
    {es es' : List Exchange} {os : List Occurrence} {a b : Nat} {outcome : Outcome} {points : Points}
    {first : SequencePoint} {c : Bytes}
    (compiled : s₀.Step (.compiled function key es (.instrumented a b)) s₁)
    (continued : s₁.Runs os s₂)
    (again : s₂.Step (.compiled function' key es' outcome) s₃)
    (ordinary : s₂.helper? key = none)
    (supplied : ∀ answer, ⟨.points key, answer⟩ ∈ es ++ es' → answer = .ok points)
    (lowest : points.first? = some first) (start : first.offset = 0)
    (nonempty : ∀ body m, ⟨.methodBody key, .ok body⟩ ∈ es → Method.decode body = .ok m →
      m.order ≠ [])
    (installed : ⟨.setMethodBody key c, .ok ()⟩ ∈ es)
    (given : ∀ answer, ⟨.methodBody key, answer⟩ ∈ es' → answer = .ok c) :
    outcome = .skipped .alreadyInstrumented ∧
      es' = [⟨.points key, .ok points⟩, ⟨.methodBody key, .ok c⟩] ∧ s₃ = s₂ := by
  cases compiled with | compiled ends
  cases again with | compiled ends'
  obtain ⟨x, parts, e⟩ := Session.parts_of_ends ends
  obtain rfl : x = .ok (.instrumented a b) := by
    cases x with
    | error => cases e
    | ok => exact congrArg Except.ok e.symm
  obtain ⟨points', body, m, token, m', installed', final, asked, listed, answered, decoded, known,
    applied, encoded, only⟩ := parts.instrumented
  cases supplied _ (List.mem_append_left _ asked)
  obtain rfl := only c installed
  -- The guard finds the probe, as the installed body starts with it.
  obtain ⟨decoded', -, -, first', e', guard, carried⟩ :=
    guard_of_written decoded (closed_of_decode decoded) applied encoded
  cases lowest.symm.trans e'
  have filled : 0 < m.nextId := by
    have ne := nonempty body m answered decoded
    rw [Method.decode_order decoded, ne_eq, List.range_eq_nil] at ne
    exact Nat.pos_of_ne_zero ne
  have already := guard.2 (carried filled start)
  -- The token by which it calls is still the one of the module.
  have learns := continued.learns
  rw [← learns.route] at already
  obtain ⟨x', parts', rfl⟩ := Session.parts_of_ends ends'
  obtain ⟨rfl, es_eq, s_eq⟩ := parts'.again ordinary
    (fun answer h => supplied answer (List.mem_append_right _ h)) listed given decoded'
    (learns.keeps _ _ known) already
  exact ⟨rfl, es_eq, s_eq⟩

/-- That process later: the method has its probes, and the module would give another token. -/
def twoReturnsLater : Script :=
  { twoReturnsProcess with
    modules := Table.empty.insert 1 { ScriptedModule.blank with safeToken := some ⟨0x0A000009⟩ }
    bodies := Table.empty.insert ⟨1, ⟨0x06000001⟩⟩ (some twoReturnsProbed) }

/-- The method is compiled, its module is loaded again, and the method is compiled again. -/
theorem instrumented_once_twoReturns : ∃ es s₁ es₁ s₂ es' s₃,
    (Session.new .default ⟨0, 0, .bits64⟩).Step
      (.compiled 1 ⟨1, ⟨0x06000001⟩⟩ es (.instrumented 1 2)) s₁ ∧
    s₁.Step (.loaded 1 es₁) s₂ ∧
    s₂.Step (.compiled 1 ⟨1, ⟨0x06000001⟩⟩ es' (.skipped .alreadyInstrumented)) s₃ ∧
    s₃ = s₂ ∧ es'.length = 2 := by
  let key : MethodKey := ⟨1, ⟨0x06000001⟩⟩
  let body : Bytes := [0x16, 0x02, 0x2D, 0x01, 0x2A, 0x2A]
  obtain ⟨es, s₁, es₁, s₂, es', outcome, s₃, compiled, loaded, again, ordinary, told, told'⟩ :
      ∃ es s₁ es₁ s₂ es' outcome s₃,
        (Session.new .default ⟨0, 0, .bits64⟩).Step (.compiled 1 key es (.instrumented 1 2)) s₁ ∧
        s₁.Step (.loaded 1 es₁) s₂ ∧ s₂.Step (.compiled 1 key es' outcome) s₃ ∧
        s₂.helper? key = none ∧ es.all (twoReturnsAnswer body) = true ∧
        es'.all (twoReturnsAnswer twoReturnsProbed) = true := by
    refine ⟨_, _, _, _, _, _, _,
      @Session.step_run Script _ 1 key Script.world twoReturnsProcess (.instrumented 1 2) ?_,
      Session.load_run _ 1 Script.world twoReturnsLater,
      @Session.step_run Script _ 1 key Script.world twoReturnsLater _ rfl, ?_, ?_, ?_⟩
    · decide +kernel
    · decide +kernel
    · decide +kernel
    · decide +kernel
  have said := List.all_eq_true.1 told
  have said' := List.all_eq_true.1 told'
  have installed : ⟨.setMethodBody key twoReturnsProbed, .ok ()⟩ ∈ es := by
    cases compiled with | compiled ends
    obtain ⟨_, _, _, _, installed, _, _, -, -, -, -, changed, -⟩ :=
      (Session.ends_methodCompiled ends).of_instrumented
    have mem : ⟨.setMethodBody key installed, .ok ()⟩ ∈ es := by
      rw [← mem_hostChanges rfl, changed]
      exact List.mem_cons_self
    rwa [eq_of_beq (said _ mem)] at mem
  have nonempty : ∀ body' m, ⟨.methodBody key, .ok body'⟩ ∈ es → Method.decode body' = .ok m →
      m.order ≠ [] := by
    intro body' m given decoded
    cases ok_of_toOption (said _ given)
    cases decode_twoReturns.symm.trans decoded
    decide
  obtain ⟨rfl, asked, kept⟩ := instrumented_once compiled (.cons loaded (.nil _)) again ordinary
    (fun answer h => (List.mem_append.1 h).elim (fun h => ok_of_toOption (said _ h))
      fun h => ok_of_toOption (said' _ h))
    rfl rfl nonempty installed fun answer h => ok_of_toOption (said' _ h)
  exact ⟨es, s₁, es₁, s₂, es', s₃, compiled, loaded, again, kept, by rw [asked]; rfl⟩

end CilProbes
