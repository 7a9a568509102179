import CilProbes.Session.Dialogue

/-!
# How a dialogue may end

`d.Ends es a`: with some answers the dialogue `d` comes to `a`, and `es` is what was asked and
answered until then. Events are left out, since nothing depends on them. A statement about every
end of a dialogue holds of its run with every world (`ends_run`), whatever state that world keeps.

* `ends_bind`: a dialogue in two parts ends where the second part does.
* `Talk.ends_bind`: a fault of the first part is the end of both.
* `Asks`: how often a kind of request is made, whatever is answered.
-/

namespace CilProbes

namespace Dialogue

variable {α β σ : Type}

/-- The dialogue may come to a value by a list of exchanges. -/
inductive Ends : Dialogue α → List Exchange → α → Prop
  | done {a : α} : Ends (.done a) [] a
  | ask {r : Request} {next : r.Answer → Dialogue α} {answer : r.Answer} {es : List Exchange} {a : α} :
      Ends (next answer) es a → Ends (.ask r next) (⟨r, answer⟩ :: es) a
  | note {e : LogEvent} {next : Dialogue α} {es : List Exchange} {a : α} :
      Ends next es a → Ends (.note e next) es a

/-- **Every run is an end of the dialogue.** -/
theorem ends_run (w : World σ) (d : Dialogue α) (s : σ) :
    d.Ends (d.run w s).2.2.exchanges (d.run w s).1 := by
  induction d generalizing s with
  | done a => exact .done
  | ask r next ih => exact .ask (ih _ _)
  | note e next ih => exact .note (ih s)

variable {es : List Exchange} {a b : α}

@[simp] theorem ends_done : (done a).Ends es b ↔ es = [] ∧ b = a := by
  constructor
  · intro h
    cases h
    exact ⟨rfl, rfl⟩
  · rintro ⟨rfl, rfl⟩
    exact .done

@[simp] theorem ends_ask {r : Request} {next : r.Answer → Dialogue α} :
    (ask r next).Ends es a ↔ ∃ answer rest, (next answer).Ends rest a ∧ es = ⟨r, answer⟩ :: rest := by
  constructor
  · intro h
    cases h with
    | ask h => exact ⟨_, _, h, rfl⟩
  · rintro ⟨answer, rest, h, rfl⟩
    exact .ask h

@[simp] theorem ends_note {e : LogEvent} {next : Dialogue α} :
    (note e next).Ends es a ↔ next.Ends es a := by
  constructor
  · intro h
    cases h with
    | note h => exact h
  · exact .note

/-- **The ends of two dialogues in a row.** -/
theorem ends_bind {d : Dialogue α} {f : α → Dialogue β} {b : β} : (d.bind f).Ends es b ↔
    ∃ a es₁ es₂, d.Ends es₁ a ∧ (f a).Ends es₂ b ∧ es = es₁ ++ es₂ := by
  induction d generalizing es with
  | done a => simp [bind, and_assoc]
  | ask r next ih =>
    simp only [bind, ends_ask, ih]
    constructor
    · rintro ⟨answer, _, ⟨a, es₁, es₂, h₁, h₂, rfl⟩, rfl⟩
      exact ⟨a, _, es₂, ⟨answer, es₁, h₁, rfl⟩, h₂, rfl⟩
    · rintro ⟨a, _, es₂, ⟨answer, es₁, h₁, rfl⟩, h₂, rfl⟩
      exact ⟨answer, _, ⟨a, es₁, es₂, h₁, h₂, rfl⟩, rfl⟩
  | note e next ih => simp only [bind, ends_note, ih]

/-- A value computed from the end of a dialogue takes no further exchange. -/
theorem ends_map {d : Dialogue α} {f : α → β} {b : β} :
    (d.bind fun a => done (f a)).Ends es b ↔ ∃ a, d.Ends es a ∧ b = f a := by
  simp [ends_bind, and_assoc]

@[simp] theorem ends_request {r : Request} {answer : r.Answer} :
    (request r).Ends es answer ↔ es = [⟨r, answer⟩] := by
  simp [request, and_assoc]

@[simp] theorem ends_tellAll {events : List LogEvent} {u : Unit} :
    (tellAll events).Ends es u ↔ es = [] := by
  induction events with
  | nil => simp [tellAll]
  | cons e events ih => simp [tellAll, ih]

@[simp] theorem ends_tell {e : LogEvent} {u : Unit} : (tell e).Ends es u ↔ es = [] := by
  simp [tell]

/-! ## How often something is asked -/

variable {kind : Request → Bool} {n : Nat}

/-- Whatever is answered, there are at most `n` requests of a kind. -/
def Asks (d : Dialogue α) (kind : Request → Bool) (n : Nat) : Prop :=
  ∀ es a, d.Ends es a → es.countP (kind ·.request) ≤ n

theorem asks_done (a : α) : (done a).Asks kind n := by
  intro es _ ends
  obtain ⟨rfl, -⟩ := ends_done.1 ends
  exact Nat.zero_le n

theorem asks_request {r : Request} (h : kind r = false) : (request r).Asks kind n := by
  intro es answer ends
  obtain rfl := ends_request.1 ends
  simp [h]

theorem asks_once {r : Request} : (request r).Asks kind 1 := by
  intro es answer ends
  obtain rfl := ends_request.1 ends
  exact List.countP_le_length

theorem asks_tellAll (events : List LogEvent) : (tellAll events).Asks kind n := by
  intro es _ ends
  obtain rfl := ends_tellAll.1 ends
  exact Nat.zero_le n

theorem asks_tell (event : LogEvent) : (tell event).Asks kind n := asks_tellAll [event]

theorem Asks.mono {d : Dialogue α} {k : Nat} (h : d.Asks kind k) (le : k ≤ n) : d.Asks kind n :=
  fun es a ends => Nat.le_trans (h es a ends) le

/-- What does not ask may stand behind. -/
theorem Asks.bind {d : Dialogue α} {f : α → Dialogue β} (h : d.Asks kind n)
    (h' : ∀ a, (f a).Asks kind 0) : (d.bind f).Asks kind n := by
  intro es b ends
  obtain ⟨a, es₁, es₂, first, second, rfl⟩ := ends_bind.1 ends
  have before := h es₁ a first
  have behind := h' a es₂ b second
  rw [List.countP_append]
  omega

/-- What is asked for at most once is answered in one way. -/
theorem Asks.unique {d : Dialogue α} (h : d.Asks kind 1) (ends : d.Ends es a) {e e' : Exchange}
    (mem : e ∈ es) (mem' : e' ∈ es) (asked : kind e.request = true)
    (asked' : kind e'.request = true) : e = e' := by
  have once := h es a ends
  rw [List.countP_eq_length_filter] at once
  have found : e ∈ es.filter (kind ·.request) := List.mem_filter.2 ⟨mem, asked⟩
  have found' : e' ∈ es.filter (kind ·.request) := List.mem_filter.2 ⟨mem', asked'⟩
  obtain ⟨e₀, only⟩ := List.length_eq_one_iff.1
    (Nat.le_antisymm once (List.length_pos_of_mem found))
  rw [only] at found found'
  rw [List.mem_singleton.1 found, List.mem_singleton.1 found']

end Dialogue

namespace Talk

open Dialogue

variable {α β : Type} {es : List Exchange} {x : Except Fault α} {y : Except Fault β}

/-- **The ends of two talks in a row**: the fault of the first one, or an end of the second. -/
theorem ends_bind {t : Talk α} {f : α → Talk β} : (t >>= f).run.Ends es y ↔
    (∃ fault, t.run.Ends es (.error fault) ∧ y = .error fault) ∨
    ∃ a es₁ es₂, t.run.Ends es₁ (.ok a) ∧ (f a).run.Ends es₂ y ∧ es = es₁ ++ es₂ := by
  change (t.run.bind _).Ends es y ↔ _
  rw [Dialogue.ends_bind]
  constructor
  · rintro ⟨result, es₁, es₂, h₁, h₂, rfl⟩
    cases result with
    | error fault =>
      obtain ⟨rfl, rfl⟩ := ends_done.1 h₂
      rw [List.append_nil]
      exact .inl ⟨fault, h₁, rfl⟩
    | ok a => exact .inr ⟨a, es₁, es₂, h₁, h₂, rfl⟩
  · rintro (⟨fault, h, rfl⟩ | ⟨a, es₁, es₂, h₁, h₂, rfl⟩)
    · exact ⟨.error fault, es, [], h, .done, (List.append_nil es).symm⟩
    · exact ⟨.ok a, es₁, es₂, h₁, h₂, rfl⟩

@[simp] theorem ends_pure {a : α} : (pure a : Talk α).run.Ends es x ↔ es = [] ∧ x = .ok a :=
  ends_done

@[simp] theorem ends_ofExcept {value : Except Fault α} :
    (ofExcept value).run.Ends es x ↔ es = [] ∧ x = value :=
  ends_done

@[simp] theorem ends_demand {d : Dialogue (Except String α)} :
    (demand d).run.Ends es x ↔ ∃ answer, d.Ends es answer ∧ x = answer.mapError .hostApi :=
  ends_map

@[simp] theorem ends_ofLogged {l : Logged α} :
    (ofLogged l).run.Ends es x ↔ es = [] ∧ x = l.runOn.1 := by
  rw [ofLogged, ExceptT.run_mk, ends_map]
  simp

/-- A known result is no exchange; a fault of it ends the talk. -/
theorem ends_ofExcept_bind {value : Except Fault α} {f : α → Talk β} :
    (ofExcept value >>= f).run.Ends es y ↔
      (∃ fault, value = .error fault ∧ es = [] ∧ y = .error fault) ∨
      ∃ a, value = .ok a ∧ (f a).run.Ends es y := by
  rw [ends_bind]
  constructor
  · rintro (⟨fault, h, rfl⟩ | ⟨a, _, _, h, h', rfl⟩)
    · obtain ⟨rfl, rfl⟩ := ends_ofExcept.1 h
      exact .inl ⟨fault, rfl, rfl, rfl⟩
    · obtain ⟨rfl, rfl⟩ := ends_ofExcept.1 h
      exact .inr ⟨a, rfl, h'⟩
  · rintro (⟨fault, rfl, rfl, rfl⟩ | ⟨a, rfl, h⟩)
    · exact .inl ⟨fault, ends_ofExcept.2 ⟨rfl, rfl⟩, rfl⟩
    · exact .inr ⟨a, [], es, ends_ofExcept.2 ⟨rfl, rfl⟩, h, rfl⟩

/-- A refusal ends the talk, in whatever way it counts as a fault. -/
theorem ends_mapError_bind {t : Talk α} {d : Dialogue (Except String α)} {g : String → Fault}
    (asks : ∀ {es x}, t.run.Ends es x ↔ ∃ answer, d.Ends es answer ∧ x = answer.mapError g)
    {f : α → Talk β} : (t >>= f).run.Ends es y ↔
      (∃ text, d.Ends es (.error text) ∧ y = .error (g text)) ∨
      ∃ a es₁ es₂, d.Ends es₁ (.ok a) ∧ (f a).run.Ends es₂ y ∧ es = es₁ ++ es₂ := by
  simp only [ends_bind, asks]
  constructor
  · rintro (⟨fault, ⟨answer, h, e⟩, rfl⟩ | ⟨a, es₁, es₂, ⟨answer, h, e⟩, h', rfl⟩)
    · cases answer with
      | error text =>
        cases e
        exact .inl ⟨text, h, rfl⟩
      | ok a => cases e
    · cases answer with
      | error text => cases e
      | ok a =>
        cases e
        exact .inr ⟨a, es₁, es₂, h, h', rfl⟩
  · rintro (⟨text, h, rfl⟩ | ⟨a, es₁, es₂, h, h', rfl⟩)
    · exact .inl ⟨_, ⟨_, h, rfl⟩, rfl⟩
    · exact .inr ⟨a, es₁, es₂, ⟨_, h, rfl⟩, h', rfl⟩

theorem ends_demand_bind {d : Dialogue (Except String α)} {f : α → Talk β} :
    (demand d >>= f).run.Ends es y ↔
      (∃ text, d.Ends es (.error text) ∧ y = .error (.hostApi text)) ∨
      ∃ a es₁ es₂, d.Ends es₁ (.ok a) ∧ (f a).run.Ends es₂ y ∧ es = es₁ ++ es₂ :=
  ends_mapError_bind ends_demand

/-- What cannot be refused is no end of the talk. -/
theorem ends_lift_bind {d : Dialogue α} {f : α → Talk β} : (ExceptT.lift d >>= f).run.Ends es y ↔
    ∃ a es₁ es₂, d.Ends es₁ a ∧ (f a).run.Ends es₂ y ∧ es = es₁ ++ es₂ := by
  have lifted : (ExceptT.lift d >>= f).run = d.bind fun a => (f a).run := by
    change (d.bind fun a => done (Except.ok a)).bind _ = _
    rw [bind_assoc]
    rfl
  rw [lifted, Dialogue.ends_bind]

/-- What is only noted leaves no exchange. -/
theorem ends_quiet {d : Dialogue Unit} (quiet : ∀ {es u}, d.Ends es u ↔ es = []) {f : Unit → Talk β} :
    (ExceptT.lift d >>= f).run.Ends es y ↔ (f ()).run.Ends es y := by
  rw [ends_lift_bind]
  constructor
  · rintro ⟨⟨⟩, _, _, h, h', rfl⟩
    rw [quiet.1 h]
    exact h'
  · exact fun h => ⟨(), [], es, quiet.2 rfl, h, rfl⟩

@[simp] theorem ends_tell {e : LogEvent} {f : Unit → Talk β} :
    (tell e >>= f).run.Ends es y ↔ (f ()).run.Ends es y :=
  ends_quiet Dialogue.ends_tell

@[simp] theorem ends_tellAll {events : List LogEvent} {f : Unit → Talk β} :
    (ExceptT.lift (Dialogue.tellAll events) >>= f).run.Ends es y ↔ (f ()).run.Ends es y :=
  ends_quiet Dialogue.ends_tellAll

/-! ## How often something is asked -/

variable {kind : Request → Bool} {n : Nat}

theorem asks_ofExcept (value : Except Fault α) : (ofExcept value).run.Asks kind n :=
  Dialogue.asks_done value

theorem asks_pure (a : α) : (pure a : Talk α).run.Asks kind n := asks_ofExcept (.ok a)

theorem asks_demand {d : Dialogue (Except String α)} (h : d.Asks kind n) :
    (demand d).run.Asks kind n :=
  h.bind fun _ => Dialogue.asks_done _

theorem asks_lift {d : Dialogue α} (h : d.Asks kind n) :
    (ExceptT.lift d : Talk α).run.Asks kind n :=
  h.bind fun _ => Dialogue.asks_done _

theorem asks_ofLogged (l : Logged α) : (ofLogged l).run.Asks kind n :=
  (Dialogue.asks_tellAll _).bind fun _ => Dialogue.asks_done _

theorem asks_tell (event : LogEvent) : (tell event).run.Asks kind n :=
  asks_lift (Dialogue.asks_tell event)

theorem asks_bind {t : Talk α} {f : α → Talk β} (h : t.run.Asks kind n)
    (h' : ∀ a, (f a).run.Asks kind 0) : (t >>= f).run.Asks kind n := by
  refine Dialogue.Asks.bind h fun result => ?_
  cases result with
  | ok a => exact h' a
  | error fault => exact asks_ofExcept (.error fault)

end Talk

end CilProbes
