import CilProbes.Proofs.Session.Tokens
import CilProbes.Proofs.Writing.Total
import CilProbes.Session.Compile

/-!
# The parts of a compilation

When a method is compiled, its points and its body are asked for, then the token by which probes
call, and then the method is instrumented and put in place. Each part gets an inductive of the ways
in which it may end, with what was said until then in the indices, and one lemma that there are no
others.

* `Untouched`, `Fitted`, `Stopped`: what putting a method in place may come to.
* `ends_install`: a method is put in place in the bytes of `encode`, or not at all.
* `Prepared`, `Resolved`, `Probed`: points and body, the dispatch, the probes.
* `Parts`, `ends_compile`: the whole compilation, as far as it went.
-/

namespace CilProbes

/-! ## What the host is told -/

/-- The requests by which something changes at the host. -/
def Request.changesHost : Request → Bool
  | setMethodBody _ _ | setOffsetMap _ _ => true
  | _ => false

/-- What a session tried to change at the host. -/
def hostChanges (es : List Exchange) : List Exchange := es.filter (·.request.changesHost)

theorem mem_hostChanges {es : List Exchange} {e : Exchange} (h : e.request.changesHost = true) :
    e ∈ hostChanges es ↔ e ∈ es := by
  simp [hostChanges, h]

theorem hostChanges_append (es₁ es₂ : List Exchange) :
    hostChanges (es₁ ++ es₂) = hostChanges es₁ ++ hostChanges es₂ :=
  List.filter_append ..

/-- The host is as it was: at most a body was offered, and refused. -/
def Untouched (key : MethodKey) (es : List Exchange) : Prop :=
  hostChanges es = [] ∨ ∃ body text, hostChanges es = [⟨.setMethodBody key body, .error text⟩]

/-- A body for a method, and the room that was given for it. -/
structure Fitted (key : MethodKey) (m : Method) (es : List Exchange) (body : Bytes) (final : Method) :
    Prop where
  encoded : m.encode false = .ok (body, final)
  room : ∃ room, ⟨.allocateBody key.module body.length, .ok room⟩ ∈ es ∧ body.length ≤ room.length

/-- **Why a method is not put in place.** -/
inductive Stopped (key : MethodKey) (m : Method) (es : List Exchange) : Prop
  | unmeasured {fault : Fault} : m.bodySize false = .error fault → Stopped key m es
  | noRoom {size : Nat} {text : String} : m.bodySize false = .ok size →
      ⟨.allocateBody key.module size, .error text⟩ ∈ es → Stopped key m es
  | unwritten {size : Nat} {room : Bytes} {fault : Fault} : m.bodySize false = .ok size →
      ⟨.allocateBody key.module size, .ok room⟩ ∈ es → (m.encodeInto false room).1 = .error fault →
      Stopped key m es
  | refused {body : Bytes} {final : Method} {text : String} : Fitted key m es body final →
      ⟨.setMethodBody key body, .error text⟩ ∈ es → Stopped key m es

/-- What was answered to the question for the token of a module. -/
def Route.Answered (r : Route) (module : ModuleId) (es : List Exchange)
    (answer : Except String Token) : Prop :=
  match r with
  | direct _ _ => ⟨.probeSignature module .id, answer⟩ ∈ es
  | trampoline => ⟨.safeProbeToken module, answer⟩ ∈ es

section
variable {key : MethodKey} {m final : Method} {body : Bytes} {es es' : List Exchange}

theorem Untouched.behind (quiet : hostChanges es = []) (h : Untouched key es') :
    Untouched key (es ++ es') := by
  rwa [Untouched, hostChanges_append, quiet, List.nil_append]

theorem Fitted.mono (h : Fitted key m es body final) (sub : es ⊆ es') :
    Fitted key m es' body final := by
  obtain ⟨room, given, fits⟩ := h.room
  exact ⟨h.encoded, room, sub given, fits⟩

theorem Stopped.mono (h : Stopped key m es) (sub : es ⊆ es') : Stopped key m es' := by
  cases h with
  | unmeasured h => exact .unmeasured h
  | noRoom h asked => exact .noRoom h (sub asked)
  | unwritten h asked e => exact .unwritten h (sub asked) e
  | refused fitted asked => exact .refused (fitted.mono sub) (sub asked)

theorem Route.Answered.mono {r : Route} {module : ModuleId} {answer : Except String Token}
    (h : r.Answered module es answer) (sub : es ⊆ es') : r.Answered module es' answer := by
  unfold Route.Answered at h ⊢
  split at h <;> exact sub h

end

namespace Session

section
variable {s : Session} {function : FunctionId} {key : MethodKey} {m : Method} {es : List Exchange}

/-! ## Putting a method in place -/

/-- **A method is put in place in the bytes of `encode`**, whatever the room for it held and however
much there was, or there is a reason why not. -/
theorem ends_install {x : Except Fault Method} (h : (install key m).run.Ends es x) :
    (∃ fault, x = .error fault ∧ Stopped key m es ∧ Untouched key es) ∨
    ∃ body final, x = .ok final ∧ Fitted key m es body final ∧
      hostChanges es = [⟨.setMethodBody key body, .ok ()⟩] := by
  rw [install, Talk.ends_ofExcept_bind] at h
  rcases h with ⟨fault, announced, rfl, rfl⟩ | ⟨size, announced, h⟩
  · exact .inl ⟨fault, rfl, .unmeasured announced, .inl rfl⟩
  rw [Talk.ends_demand_bind] at h
  rcases h with ⟨text, refused, rfl⟩ | ⟨room, _, _, given, h, rfl⟩
  · obtain rfl := Dialogue.ends_request.1 refused
    exact .inl ⟨_, rfl, .noRoom announced List.mem_cons_self, .inl rfl⟩
  obtain rfl := Dialogue.ends_request.1 given
  rcases written : m.encodeInto false room with ⟨result, room'⟩
  rw [written] at h
  change (Talk.ofExcept result >>= _ : Talk Method).run.Ends _ _ at h
  rw [Talk.ends_ofExcept_bind] at h
  rcases h with ⟨fault, rfl, rfl, rfl⟩ | ⟨⟨size', final⟩, rfl, h⟩
  · have unwritten := congrArg Prod.fst written
    exact .inl ⟨fault, rfl, .unwritten announced List.mem_cons_self unwritten, .inl rfl⟩
  obtain ⟨encoded, size_eq, fits, length⟩ := encode_of_encodeInto written
  rw [announced, Except.ok.injEq] at size_eq
  subst size_eq
  have fitted : ∀ es, Fitted key m (⟨.allocateBody key.module size, .ok room⟩ :: es)
      (room'.take size) final := by
    intro es
    refine ⟨encoded, room, ?_, ?_⟩
    · rw [length]
      exact List.mem_cons_self
    · rwa [length]
  rw [Talk.ends_demand_bind] at h
  rcases h with ⟨text, refused, rfl⟩ | ⟨_, _, _, taken, h, rfl⟩
  · obtain rfl := Dialogue.ends_request.1 refused
    have stopped := Stopped.refused (fitted [⟨.setMethodBody key (room'.take size), .error text⟩])
      (List.mem_cons_of_mem _ List.mem_cons_self)
    exact .inl ⟨_, rfl, stopped, .inr ⟨_, text, rfl⟩⟩
  · obtain rfl := Dialogue.ends_request.1 taken
    obtain ⟨rfl, rfl⟩ := Talk.ends_pure.1 h
    exact .inr ⟨_, final, rfl, fitted _, rfl⟩

/-- What comes behind an installation comes only behind an accepted one. -/
theorem ends_install_bind {f : Method → Talk Outcome} {x : Except Fault Outcome}
    (h : (install key m >>= f).run.Ends es x) :
    (∃ fault, x = .error fault ∧ Stopped key m es ∧ Untouched key es) ∨
    ∃ body final es₁ es₂, Fitted key m es₁ body final ∧
      hostChanges es₁ = [⟨.setMethodBody key body, .ok ()⟩] ∧ (f final).run.Ends es₂ x ∧
      es = es₁ ++ es₂ := by
  rw [Talk.ends_bind] at h
  rcases h with ⟨fault, stop, rfl⟩ | ⟨final, es₁, es₂, installed, h, rfl⟩
  · rcases ends_install stop with ⟨_, -, left⟩ | ⟨_, _, e, -⟩
    · exact .inl ⟨fault, rfl, left⟩
    · cases e
  · rcases ends_install installed with ⟨_, e, -⟩ | ⟨body, _, e, fitted, changed⟩
    · cases e
    · cases e
      exact .inr ⟨body, final, es₁, es₂, fitted, changed, h, rfl⟩

/-! ## Points, body and dispatch -/

/-- **The ways in which a look at points and body ends**, with what was said. -/
inductive Prepared (key : MethodKey) :
    List Exchange → Except Fault (Option (Points × Method)) → Prop
  | unlisted {text : String} : Prepared key [⟨.points key, .error text⟩] (.error (.hostApi text))
  | noPoints {points : Points} : points.sequence.isEmpty = true →
      Prepared key [⟨.points key, .ok points⟩] (.ok none)
  | bodyless {points : Points} {text : String} :
      Prepared key [⟨.points key, .ok points⟩, ⟨.methodBody key, .error text⟩]
        (.error (.hostApi text))
  | undecoded {points : Points} {body : Bytes} {fault : Fault} :
      Method.decode body = .error fault →
      Prepared key [⟨.points key, .ok points⟩, ⟨.methodBody key, .ok body⟩] (.error fault)
  | known {points : Points} {body : Bytes} {m : Method} : points.sequence.isEmpty = false →
      Method.decode body = .ok m →
      Prepared key [⟨.points key, .ok points⟩, ⟨.methodBody key, .ok body⟩] (.ok (some (points, m)))

theorem ends_prepare {x : Except Fault (Option (Points × Method))}
    (h : (s.prepare key).run.Ends es x) : Prepared key es x := by
  rw [prepare, Talk.ends_demand_bind] at h
  rcases h with ⟨text, refused, rfl⟩ | ⟨points, _, _, asked, h, rfl⟩
  · obtain rfl := Dialogue.ends_request.1 refused
    exact .unlisted
  obtain rfl := Dialogue.ends_request.1 asked
  split at h
  · rename_i empty
    rw [Talk.ends_tell, Talk.ends_pure] at h
    obtain ⟨rfl, rfl⟩ := h
    exact .noPoints empty
  rename_i nonempty
  rw [Talk.ends_demand_bind] at h
  rcases h with ⟨text, refused, rfl⟩ | ⟨body, _, rest, asked, h, rfl⟩
  · obtain rfl := Dialogue.ends_request.1 refused
    exact .bodyless
  obtain rfl := Dialogue.ends_request.1 asked
  rw [Talk.ends_ofExcept_bind] at h
  rcases h with ⟨fault, undecoded, rfl, rfl⟩ | ⟨m, decoded, h⟩
  · exact .undecoded undecoded
  -- With or without diagnostics the answer is the same.
  have answered : rest = [] ∧ x = .ok (some (points, m)) := by
    split at h
    · exact Talk.ends_pure.1 (Talk.ends_tell.1 (Talk.ends_tellAll.1 h))
    · exact Talk.ends_pure.1 h
  obtain ⟨rfl, rfl⟩ := answered
  exact .known (by simpa using nonempty) decoded

/-- Nothing changes at the host before the method is known. -/
theorem Prepared.quiet {x : Except Fault (Option (Points × Method))} (h : Prepared key es x) :
    hostChanges es = [] := by
  cases h <;> rfl

/-- **The ways in which the search for a dispatch ends**, with what was said and what the resolver
knows then. -/
inductive Resolved (r : Resolver) (module : ModuleId) :
    List Exchange → Except Fault ProbeDispatch → Resolver → Prop
  | known {token : Token} : r.tokens.find? module = some token →
      Resolved r module [] (.ok (r.route.dispatch token)) r
  | learned {token : Token} {es : List Exchange} : r.tokens.find? module = none →
      hostChanges es = [] → r.route.Answered module es (.ok token) →
      Resolved r module es (.ok (r.route.dispatch token))
        { r with tokens := r.tokens.insert module token }
  | refused {text : String} {es : List Exchange} : r.tokens.find? module = none →
      hostChanges es = [] → r.route.Answered module es (.error text) →
      Resolved r module es (.error (.hostApi text)) r

theorem ends_dispatchFor {r r' : Resolver} {module : ModuleId} {x : Except Fault ProbeDispatch}
    (h : (r.dispatchFor module).Ends es (x, r')) : Resolved r module es x r' := by
  have told : ∀ answer, hostChanges [r.route.asked module answer] = [] ∧
      r.route.Answered module [r.route.asked module answer] answer := by
    intro answer
    cases r.route <;> exact ⟨rfl, List.mem_cons_self⟩
  cases Resolver.ends_dispatchFor_iff.1 h with
  | recalled known => exact .known known
  | given token unknown => exact .learned unknown (told _).1 (told _).2
  | refused text unknown => exact .refused unknown (told _).1 (told _).2

theorem Resolved.quiet {r r' : Resolver} {module : ModuleId} {x : Except Fault ProbeDispatch}
    (h : Resolved r module es x r') : hostChanges es = [] := by
  cases h with
  | known => rfl
  | learned _ quiet | refused _ quiet => exact quiet

/-! ## Probes -/

/-- The offsets are reported once, and the answer plays no part. -/
theorem ends_report {u : Outcome} {x : Except Fault Outcome}
    (h : (do ExceptT.lift (reportOffsets function key m); pure u : Talk Outcome).run.Ends es x) :
    ∃ answer, es = [⟨.setOffsetMap function m.offsetMap, answer⟩] ∧ x = .ok u := by
  rw [Talk.ends_lift_bind] at h
  obtain ⟨_, _, _, reported, h, rfl⟩ := h
  obtain ⟨rfl, rfl⟩ := Talk.ends_pure.1 h
  rw [reportOffsets, Dialogue.bind_eq, Dialogue.ends_bind] at reported
  obtain ⟨answer, _, _, asked, noted, rfl⟩ := reported
  obtain rfl := Dialogue.ends_request.1 asked
  refine ⟨answer, ?_, rfl⟩
  split at noted
  · obtain ⟨rfl, -⟩ := Dialogue.ends_done.1 noted
    rfl
  · obtain rfl := Dialogue.ends_tell.1 noted
    rfl

/-- **The ways in which instrumentation ends**, with what was said. -/
inductive Probed (function : FunctionId) (key : MethodKey) (points : Points) (m : Method)
    (dispatch : ProbeDispatch) : List Exchange → Except Fault Outcome → Prop
  | faulty {fault : Fault} : (m.instrument points dispatch).runOn.1 = .error fault →
      Probed function key points m dispatch [] (.error fault)
  | already {m' : Method} : (m.instrument points dispatch).runOn.1 = .ok (.already, m') →
      Probed function key points m dispatch [] (.ok (.skipped .alreadyInstrumented))
  | nothing {m' : Method} : (m.instrument points dispatch).runOn.1 = .ok (.nothing, m') →
      Probed function key points m dispatch [] (.ok (.skipped .noPoints))
  | stopped {a b : Nat} {m' : Method} {es : List Exchange} {fault : Fault} :
      (m.instrument points dispatch).runOn.1 = .ok (.applied a b, m') → Stopped key m' es →
      Untouched key es → Probed function key points m dispatch es (.error fault)
  | applied {a b : Nat} {m' final : Method} {es : List Exchange} {body : Bytes}
      {answer : Except String Unit} :
      (m.instrument points dispatch).runOn.1 = .ok (.applied a b, m') → Fitted key m' es body final →
      hostChanges es =
        [⟨.setMethodBody key body, .ok ()⟩, ⟨.setOffsetMap function final.offsetMap, answer⟩] →
      Probed function key points m dispatch es (.ok (.instrumented a b))

theorem ends_instrument {points : Points} {dispatch : ProbeDispatch} {x : Except Fault Outcome}
    (h : (s.instrument function key points m dispatch).run.Ends es x) :
    Probed function key points m dispatch es x := by
  rw [instrument, Talk.ends_bind] at h
  rcases h with ⟨fault, stop, rfl⟩ | ⟨⟨result, m'⟩, _, _, ran, h, rfl⟩
  · obtain ⟨rfl, e⟩ := Talk.ends_ofLogged.1 stop
    exact .faulty e.symm
  obtain ⟨rfl, e⟩ := Talk.ends_ofLogged.1 ran
  cases result with
  | already =>
    simp only [Talk.ends_tell, Talk.ends_pure] at h
    obtain ⟨rfl, rfl⟩ := h
    exact .already e.symm
  | nothing =>
    obtain ⟨rfl, rfl⟩ := Talk.ends_pure.1 h
    exact .nothing e.symm
  | applied a b =>
    rcases ends_install_bind h with
      ⟨fault, rfl, stopped, untouched⟩ | ⟨body, final, es₁, es, fitted, changed, behind, rfl⟩
    · exact .stopped e.symm stopped untouched
    have reported : ∃ answer, es = [⟨.setOffsetMap function final.offsetMap, answer⟩] ∧
        x = .ok (.instrumented a b) := by
      dsimp only at behind
      split at behind
      · exact ends_report (Talk.ends_tell.1 behind)
      · exact ends_report behind
    obtain ⟨answer, rfl, rfl⟩ := reported
    rw [List.nil_append]
    have changes := hostChanges_append es₁ [⟨.setOffsetMap function final.offsetMap, answer⟩]
    rw [changed] at changes
    exact .applied e.symm (fitted.mono (by simp)) changes

/-! ## The whole -/

/-- **The parts of a compilation**, as far as it went, with what was said in each. -/
inductive Parts (s : Session) (function : FunctionId) (key : MethodKey) :
    List Exchange → Except Fault Outcome → Session → Prop
  | helper {helper : Helper} {es : List Exchange} {x : Except Fault Outcome} :
      s.helper? key = some helper → (s.replaceHelper key helper).run.Ends es x →
      Parts s function key es x s
  | unprepared {es : List Exchange} {fault : Fault} : Prepared key es (.error fault) →
      Parts s function key es (.error fault) s
  | pointless {es : List Exchange} : Prepared key es (.ok none) →
      Parts s function key es (.ok (.skipped .noPoints)) s
  | unresolved {points : Points} {m : Method} {es es' : List Exchange} {fault : Fault}
      {resolver : Resolver} : Prepared key es (.ok (some (points, m))) →
      Resolved s.resolver key.module es' (.error fault) resolver →
      Parts s function key (es ++ es') (.error fault) { s with resolver }
  | probed {points : Points} {m : Method} {dispatch : ProbeDispatch} {es es' es'' : List Exchange}
      {resolver : Resolver} {x : Except Fault Outcome} :
      Prepared key es (.ok (some (points, m))) →
      Resolved s.resolver key.module es' (.ok dispatch) resolver →
      Probed function key points m dispatch es'' x →
      Parts s function key (es ++ es' ++ es'') x
        (({ s with resolver } : Session).afterInstrument points x)

theorem ends_compile {x : Except Fault Outcome × Session} (h : (s.compile function key).Ends es x) :
    s.Parts function key es x.1 x.2 := by
  unfold compile at h
  split at h
  · rename_i helper found
    rw [Dialogue.bind_eq, Dialogue.ends_bind] at h
    obtain ⟨result, _, _, replaced, h, rfl⟩ := h
    obtain ⟨rfl, rfl⟩ := Dialogue.ends_done.1 h
    rw [List.append_nil]
    exact .helper found replaced
  rw [Dialogue.bind_eq, Dialogue.ends_bind] at h
  obtain ⟨known, es₁, _, prepared, h, rfl⟩ := h
  have prepared := ends_prepare prepared
  split at h
  · obtain ⟨rfl, rfl⟩ := Dialogue.ends_done.1 h
    rw [List.append_nil]
    exact .unprepared prepared
  · obtain ⟨rfl, rfl⟩ := Dialogue.ends_done.1 h
    rw [List.append_nil]
    exact .pointless prepared
  rw [Dialogue.bind_eq, Dialogue.ends_bind] at h
  obtain ⟨⟨result, resolver⟩, es₂, _, resolved, h, rfl⟩ := h
  have resolved := ends_dispatchFor resolved
  cases result with
  | error fault =>
    obtain ⟨rfl, rfl⟩ := Dialogue.ends_done.1 h
    rw [List.append_nil]
    exact .unresolved prepared resolved
  | ok dispatch =>
    change (Dialogue.bind _ _).Ends _ _ at h
    rw [Dialogue.ends_bind] at h
    obtain ⟨outcome, es₃, _, ran, h, rfl⟩ := h
    obtain ⟨rfl, rfl⟩ := Dialogue.ends_done.1 h
    rw [List.append_nil, ← List.append_assoc]
    exact .probed prepared resolved (ends_instrument ran)

/-- A fault of the compilation counts as a failure. -/
theorem parts_of_ends {x : Outcome × Session} (h : (s.methodCompiled function key).Ends es x) :
    ∃ result, s.Parts function key es result x.2 ∧ x.1 = result.toOption.getD .failed := by
  rw [methodCompiled, Dialogue.bind_eq, Dialogue.ends_bind] at h
  obtain ⟨⟨result, s'⟩, _, _, compiled, h, rfl⟩ := h
  have parts := ends_compile compiled
  cases result with
  | ok outcome =>
    obtain ⟨rfl, rfl⟩ := Dialogue.ends_done.1 h
    rw [List.append_nil]
    exact ⟨_, parts, rfl⟩
  | error fault =>
    obtain ⟨rfl, rfl⟩ := Dialogue.ends_done.1 (Dialogue.ends_note.1 h)
    rw [List.append_nil]
    exact ⟨_, parts, rfl⟩

end

end Session

end CilProbes
