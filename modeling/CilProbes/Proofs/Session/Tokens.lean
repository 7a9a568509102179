import CilProbes.Proofs.Session.Ends
import CilProbes.Session.Resolver
import CilProbes.Session.Script

/-!
# A token is found once

The collaborator that gives the tokens may refuse at one time and answer at another, and never needs
to answer in the same way twice. What probes call through must not depend on that: the token of a
module is the one that was given first.

* `Resolver.Called`, `ends_dispatchFor_iff`: all that one call may come to.
* `Resolver.Calls`: any number of calls, for modules in any order.
* `Resolver.History`, `Calls.history`: the calls for one module.
* `Calls.alone`: the calls for other modules play no part.
* `Calls.found`: how many tokens are known.
* `tokens_found_once`: the calls of a resolver from the start.
-/

namespace CilProbes

/-- The question for the token of a module, with an answer. -/
def Route.asked (r : Route) (module : ModuleId) (answer : Except String Token) : Exchange :=
  match r with
  | direct _ _ => ⟨.probeSignature module .id, answer⟩
  | trampoline => ⟨.safeProbeToken module, answer⟩

/-- The question for a token is asked once, and a refusal of it is a fault. -/
theorem Route.ends_tokenOf {r : Route} {module : ModuleId} {es : List Exchange}
    {x : Except Fault Token} : (r.tokenOf module).run.Ends es x ↔
      ∃ answer, es = [r.asked module answer] ∧ x = answer.mapError .hostApi := by
  cases r <;>
    exact Talk.ends_demand.trans (exists_congr fun _ => and_congr Dialogue.ends_request Iff.rfl)

namespace Resolver

/-! ## One call -/

/-- A call of a resolver, with what was asked and what came of it. -/
structure Call where
  module : ModuleId
  exchanges : List Exchange
  result : Except Fault ProbeDispatch

namespace Call

variable (route : Route) (module : ModuleId)

/-- A call for which the question was refused. -/
def refused (text : String) : Call :=
  ⟨module, [route.asked module (.error text)], .error (.hostApi text)⟩

/-- A call for which a token was given. -/
def given (token : Token) : Call :=
  ⟨module, [route.asked module (.ok token)], .ok (route.dispatch token)⟩

/-- A call for which nothing was asked. -/
def recalled (token : Token) : Call := ⟨module, [], .ok (route.dispatch token)⟩

end Call

variable {r r' : Resolver} {route : Route} {module : ModuleId} {token : Token}
  {call : Call} {calls : List Call}

/-- **All that a call may come to**, with the resolver behind it. -/
inductive Called (r : Resolver) : Call → Resolver → Prop
  | refused {module : ModuleId} (text : String) : r.tokens.find? module = none →
      Called r (.refused r.route module text) r
  | given {module : ModuleId} (token : Token) : r.tokens.find? module = none →
      Called r (.given r.route module token) { r with tokens := r.tokens.insert module token }
  | recalled {module : ModuleId} {token : Token} : r.tokens.find? module = some token →
      Called r (.recalled r.route module token) r

theorem ends_dispatchFor_iff {es : List Exchange} {x : Except Fault ProbeDispatch} :
    (r.dispatchFor module).Ends es (x, r') ↔ r.Called ⟨module, es, x⟩ r' := by
  unfold dispatchFor
  constructor
  · intro h
    split at h
    · rename_i token known
      obtain ⟨rfl, e⟩ := Dialogue.ends_done.1 h
      cases e
      exact .recalled known
    · rename_i unknown
      obtain ⟨_, _, _, asked, h, rfl⟩ := Dialogue.ends_bind.1 h
      obtain ⟨answer, rfl, rfl⟩ := Route.ends_tokenOf.1 asked
      cases answer <;> obtain ⟨rfl, e⟩ := Dialogue.ends_done.1 h <;> cases e
      · exact .refused _ unknown
      · exact .given _ unknown
  · intro h
    cases h with
    | recalled known =>
      rw [known]
      exact .done
    | refused text unknown =>
      rw [unknown]
      exact Dialogue.ends_bind.2
        ⟨_, _, [], Route.ends_tokenOf.2 ⟨.error text, rfl, rfl⟩, .done, rfl⟩
    | given token unknown =>
      rw [unknown]
      exact Dialogue.ends_bind.2
        ⟨_, _, [], Route.ends_tokenOf.2 ⟨.ok token, rfl, rfl⟩, .done, rfl⟩

namespace Called

variable (h : r.Called call r')
include h

theorem route_eq : r'.route = r.route := by
  cases h <;> rfl

/-- **A call is of no consequence for other modules.** -/
theorem find?_of_ne (ne : call.module ≠ module) :
    r'.tokens.find? module = r.tokens.find? module := by
  cases h with
  | refused | recalled => rfl
  | given => exact Table.find?_insert_of_ne _ ne.symm _

/-- A call with a fault leaves the resolver as it was. -/
theorem unchanged {fault : Fault} (failed : call.result = .error fault) : r' = r := by
  cases h with
  | refused => rfl
  | given | recalled => cases failed

/-- A call depends on nothing but what is known of its module. -/
theorem congr {r₀ : Resolver} (same : r₀.route = r.route)
    (known : r₀.tokens.find? call.module = r.tokens.find? call.module) :
    ∃ r₀', r₀.Called call r₀' ∧ r₀'.route = r'.route ∧
      r₀'.tokens.find? call.module = r'.tokens.find? call.module := by
  cases h with
  | refused text unknown =>
    exact ⟨r₀, same ▸ .refused text (known.trans unknown), same, known⟩
  | @given module token unknown =>
    refine ⟨{ r₀ with tokens := r₀.tokens.insert module token },
      same ▸ Called.given token (known.trans unknown), same, ?_⟩
    exact (Table.find?_insert_self ..).trans (Table.find?_insert_self ..).symm
  | recalled there => exact ⟨r₀, same ▸ .recalled (known.trans there), same, known⟩

end Called

/-! ## Any number of calls -/

/-- **Calls of a resolver one after the other**, for any modules and with any answers. -/
inductive Calls : Resolver → List Call → Resolver → Prop
  | nil (r : Resolver) : Calls r [] r
  | cons {r r₁ r₂ : Resolver} {module : ModuleId} {es : List Exchange}
      {x : Except Fault ProbeDispatch} {calls : List Call} :
      (r.dispatchFor module).Ends es (x, r₁) → Calls r₁ calls r₂ →
      Calls r (⟨module, es, x⟩ :: calls) r₂

theorem Called.cons {r₁ : Resolver} (h : r.Called call r₁) (t : r₁.Calls calls r') :
    r.Calls (call :: calls) r' :=
  .cons (ends_dispatchFor_iff.2 h) t

/-- The calls for a list of modules, with the collaborators of a world. -/
def callAll {σ : Type} (w : World σ) (r : Resolver) (s : σ) : List ModuleId → List Call × Resolver
  | [] => ([], r)
  | module :: modules =>
    let ((x, r), s, t) := (r.dispatchFor module).run w s
    let (calls, r) := callAll w r s modules
    (⟨module, t.exchanges, x⟩ :: calls, r)

/-- **Calls with any collaborators are such calls**, one for each module. -/
theorem calls_callAll {σ : Type} (w : World σ) (r : Resolver) (s : σ) (modules : List ModuleId) :
    r.Calls (callAll w r s modules).1 (callAll w r s modules).2 ∧
      (callAll w r s modules).1.map (·.module) = modules := by
  induction modules generalizing r s with
  | nil => exact ⟨.nil r, rfl⟩
  | cons module modules ih =>
    obtain ⟨later, names⟩ := ih ((r.dispatchFor module).run w s).1.2
      ((r.dispatchFor module).run w s).2.1
    exact ⟨.cons (Dialogue.ends_run w _ s) later, congrArg _ names⟩

/-- **The calls for one module**, with the token that is known of it afterwards: the question is
asked until it is first answered, and that answer is kept. -/
inductive History (route : Route) (module : ModuleId) : List Call → Option Token → Prop
  | unasked : History route module [] none
  | refused (text : String) {calls : List Call} {known : Option Token} :
      History route module calls known →
      History route module (.refused route module text :: calls) known
  | given (token : Token) (later : Nat) :
      History route module
        (.given route module token :: List.replicate later (.recalled route module token))
        (some token)

namespace Calls

theorem route_eq (h : r.Calls calls r') : r'.route = r.route := by
  induction h with
  | nil => rfl
  | cons called _ ih => exact ih.trans (ends_dispatchFor_iff.1 called).route_eq

/-- **A token that is known stays**, and is not asked for. -/
theorem recalled (h : r.Calls calls r') (known : r.tokens.find? module = some token) :
    ∃ n, calls.filter (·.module = module) = List.replicate n (.recalled r.route module token) ∧
      r'.tokens.find? module = some token := by
  induction h with
  | nil => exact ⟨0, rfl, known⟩
  | @cons r r₁ r₂ other es x calls called _ ih =>
    have called := ends_dispatchFor_iff.1 called
    by_cases same : other = module
    · subst same
      rw [List.filter_cons_of_pos (by simp)]
      cases called with
      | refused _ unknown | given _ unknown => cases unknown.symm.trans known
      | recalled there =>
        obtain rfl := Option.some.inj (there.symm.trans known)
        obtain ⟨n, later, kept⟩ := ih known
        exact ⟨n + 1, congrArg _ later, kept⟩
    · obtain ⟨n, later, kept⟩ := ih ((called.find?_of_ne same).trans known)
      rw [List.filter_cons_of_neg (by simpa using same), later, called.route_eq]
      exact ⟨n, rfl, kept⟩

/-- **What is asked for a module, and what comes of it**: refusals at first, then an answer, and
from then on that answer. -/
theorem history (h : r.Calls calls r') (unknown : r.tokens.find? module = none) :
    History r.route module (calls.filter (·.module = module)) (r'.tokens.find? module) := by
  induction h with
  | nil => exact unknown ▸ .unasked
  | @cons r r₁ r₂ other es x calls called rest ih =>
    have called := ends_dispatchFor_iff.1 called
    by_cases same : other = module
    · subst same
      rw [List.filter_cons_of_pos (by simp)]
      cases called with
      | refused text => exact .refused text (ih unknown)
      | given token =>
        obtain ⟨n, later, kept⟩ := rest.recalled (Table.find?_insert_self _ other token)
        rw [later, kept]
        exact .given token n
      | recalled known => cases known.symm.trans unknown
    · rw [List.filter_cons_of_neg (by simpa using same), ← called.route_eq]
      exact ih ((called.find?_of_ne same).trans unknown)

/-- **The calls for one module could have been made alone**, with the same answers and results. -/
theorem alone (h : r.Calls calls r') {r₀ : Resolver} (same : r₀.route = r.route)
    (known : r₀.tokens.find? module = r.tokens.find? module) :
    ∃ r₀', r₀.Calls (calls.filter (·.module = module)) r₀' ∧
      r₀'.tokens.find? module = r'.tokens.find? module := by
  induction h generalizing r₀ with
  | nil => exact ⟨r₀, .nil r₀, known⟩
  | @cons r r₁ r₂ other es x calls called _ ih =>
    have called := ends_dispatchFor_iff.1 called
    by_cases own : other = module
    · subst own
      obtain ⟨r₀₁, first, same, known⟩ := called.congr same known
      obtain ⟨r₀', later, final⟩ := ih same known
      rw [List.filter_cons_of_pos (by simp)]
      exact ⟨r₀', first.cons later, final⟩
    · rw [List.filter_cons_of_neg (by simpa using own)]
      exact ih (same.trans called.route_eq.symm) (known.trans (called.find?_of_ne own).symm)

/-- **One token is learned for each module that had none and got an answer.** -/
theorem found (h : r.Calls calls r') : ∃ learned : List ModuleId, learned.Nodup ∧
    (∀ module, module ∈ learned ↔ r.tokens.find? module = none ∧
      ∃ call ∈ calls, call.module = module ∧ call.result.isOk = true) ∧
    r'.tokens.size = r.tokens.size + learned.length := by
  induction h with
  | nil => exact ⟨[], .nil, by simp, rfl⟩
  | @cons r r₁ r₂ other es x calls called _ ih =>
    obtain ⟨learned, distinct, mem, size⟩ := ih
    cases ends_dispatchFor_iff.1 called with
    | refused text =>
      refine ⟨learned, distinct, fun module => ?_, size⟩
      simp [mem, Except.isOk, Except.toBool]
    | recalled known =>
      refine ⟨learned, distinct, fun module => ?_, size⟩
      rw [mem]
      refine and_congr_right fun unknown => ?_
      have ne : other ≠ module := fun e => by cases known.symm.trans (e ▸ unknown)
      simp [ne]
    | given token unknown =>
      have inserted := Table.find?_insert_self r.tokens other token
      refine ⟨other :: learned, ?_, fun module => ?_, ?_⟩
      · refine List.nodup_cons.2 ⟨fun again => ?_, distinct⟩
        cases inserted.symm.trans ((mem other).1 again).1
      · by_cases same : module = other
        · subst same
          simp [unknown, Except.isOk, Except.toBool]
        · have ne : other ≠ module := Ne.symm same
          rw [List.mem_cons, mem, Table.find?_insert_of_ne _ same]
          simp [same, ne]
      · have grown : (r.tokens.insert other token).size = r.tokens.size + 1 := by
          rw [Table.size_insert, unknown]
          rfl
        rw [size, grown, List.length_cons]
        omega

end Calls

end Resolver

/-- **The token of a module is asked for until it is first given, and never changes after that.**
Take any calls of a fresh resolver, for modules in any order and with any answers. The calls for one
module begin with refusals, each of which is the fault of its own call; the first answer ends the
asking, and it is what this call and all later ones call through, in direct mode together with the
function and the width of its address. These calls could have been made alone. The resolver keeps
one token for each module that got an answer, and a call with a fault leaves it as it was. The calls
of any modules with any collaborators are of this kind. -/
theorem tokens_found_once (route : Route) :
    (∀ token, route.dispatch token = match route with
      | .direct function width => .direct function token width
      | .trampoline => .trampoline token) ∧
    (∀ (calls : List Resolver.Call) (r : Resolver), (Resolver.new route).Calls calls r →
      r.route = route ∧
      (∀ module, Resolver.History route module (calls.filter (·.module = module))
          (r.tokens.find? module) ∧
        ∃ alone, (Resolver.new route).Calls (calls.filter (·.module = module)) alone ∧
          alone.tokens.find? module = r.tokens.find? module) ∧
      ∃ answered : List ModuleId, answered.Nodup ∧
        (∀ module, module ∈ answered ↔
          ∃ call ∈ calls, call.module = module ∧ call.result.isOk = true) ∧
        r.tokens.size = answered.length) ∧
    (∀ (r r' : Resolver) (module : ModuleId) (es : List Exchange) (fault : Fault),
      (r.dispatchFor module).Ends es (.error fault, r') → r' = r) ∧
    ∀ (σ : Type) (w : World σ) (s : σ) (modules : List ModuleId),
      let made := (Resolver.new route).callAll w s modules
      (Resolver.new route).Calls made.1 made.2 ∧ made.1.map (·.module) = modules := by
  refine ⟨fun _ => by cases route <;> rfl,
    fun calls r h => ⟨h.route_eq, fun module => ⟨h.history rfl, h.alone rfl rfl⟩, ?_⟩,
    fun r r' module es fault h => ?_, fun σ w s modules => Resolver.calls_callAll w _ s modules⟩
  · obtain ⟨answered, distinct, mem, size⟩ := h.found
    refine ⟨answered, distinct, fun module => (mem module).trans (and_iff_right rfl), ?_⟩
    exact size.trans (Nat.zero_add _)
  · exact (Resolver.ends_dispatchFor_iff.1 h).unchanged rfl

/-- A world that refuses the first question for a signature and answers the later ones, never twice
the same. -/
def moodyWorld : World Nat where
  answer
    | .probeSignature _ _, n =>
      (if n = 0 then .error "not yet" else .ok ⟨0x11000000 + n.toUInt32⟩, n + 1)
    | r, n => ((Script.answer r ⟨.empty, [], .empty, {}⟩).1, n)

/-- Two modules in turns: the one that was refused asks again, and each keeps its own token. -/
theorem tokens_found_once_moody :
    let route : Route := .direct 0x7FFE12345678 .bits64
    let made := (Resolver.new route).callAll moodyWorld 0 [5, 6, 5, 6, 5]
    Resolver.History route 5 [.refused route 5 "not yet", .given route 5 ⟨0x11000002⟩,
      .recalled route 5 ⟨0x11000002⟩] (some ⟨0x11000002⟩) ∧
    Resolver.History route 6 [.given route 6 ⟨0x11000001⟩, .recalled route 6 ⟨0x11000001⟩]
      (some ⟨0x11000001⟩) ∧
    (∃ answered : List ModuleId, answered.Nodup ∧ (5 ∈ answered ∧ 6 ∈ answered ∧ 7 ∉ answered) ∧
      made.2.tokens.size = answered.length) ∧
    ∃ es r, ((Resolver.new route).dispatchFor 5).Ends es (.error (.hostApi "not yet"), r) ∧
      r = Resolver.new route := by
  intro route made
  obtain ⟨-, runs, unchanged, worlds⟩ := tokens_found_once route
  obtain ⟨called, modules⟩ := worlds Nat moodyWorld 0 [5, 6, 5, 6, 5]
  obtain ⟨-, histories, answered, distinct, mem, size⟩ := runs made.1 made.2 called
  have five : 5 ∈ answered :=
    (mem 5).2 ⟨_, .tail _ (.tail _ (.head _)), rfl, rfl⟩
  have six : 6 ∈ answered := (mem 6).2 ⟨_, .tail _ (.head _), rfl, rfl⟩
  have seven : 7 ∉ answered := by
    intro h
    obtain ⟨call, asked, e, -⟩ := (mem 7).1 h
    have listed : 7 ∈ made.1.map (·.module) := List.mem_map.2 ⟨call, asked, e⟩
    rw [modules] at listed
    exact absurd listed (by decide)
  have first := Dialogue.ends_run moodyWorld ((Resolver.new route).dispatchFor 5) 0
  refine ⟨(histories 5).1, (histories 6).1, ⟨answered, distinct, ⟨five, six, seven⟩, size⟩,
    _, _, first, unchanged _ _ _ _ _ first⟩

end CilProbes
