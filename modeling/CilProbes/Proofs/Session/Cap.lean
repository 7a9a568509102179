import CilProbes.Proofs.Session.OffsetMap
import CilProbes.Proofs.Session.Requests
import CilProbes.Proofs.Session.Run
import CilProbes.Proofs.Visit.Ledger

/-!
# The cap on visits

Once a method has a body with probes, the sinks of a session hear of each of its points as often as
the cap allows and never again. What counts is the number: it does not matter which recorder is
called, in which of the two ways, or what else happens in between.

* `receive_forwards`, `Runs.forwards`: of a number with a counter, the first visits are handed on.
* `asks_points`: compiling a method asks for points at most once.
* `cap_holds`: the cap over a whole session.
-/

namespace CilProbes

/-! ## Visits and what is made of them -/

/-- The number that a sink is told. -/
def SinkCall.id? : SinkCall → Option ProbeId
  | visit id | visitBuffered id | visitWithContext id _ _ => some id
  | flush => none

namespace VisitCounters

variable (c : VisitCounters)

/-- How many visits of a number may still be reported. -/
def left (id : ProbeId) : Nat := c.cap.toNat - (c.count id).toNat

theorem lt_cap_iff (id : ProbeId) : c.count id < c.cap ↔ 0 < c.left id := by
  rw [left, Nat.sub_pos_iff_lt, UInt32.lt_iff_toNat_lt]

end VisitCounters

namespace Recorder

variable (r : Recorder)

@[simp] theorem id?_passOn (a : Arrival) : (r.passOn a).id? = a.id? := by
  cases a with
  | visit id => cases h : r.safeMode <;> simp [passOn, handOn, h, SinkCall.id?, Arrival.id?]
  | visitWithContext | flush => rfl

/-- The call for a visit of a number, if it is handed on. -/
def callFor (id : ProbeId) (a : Arrival) : List SinkCall :=
  if a.id? = some id then [r.passOn a] else []

/-- **A visit of a number with a counter is handed on if the number has any left**, and then it is
counted. What arrives of other numbers plays no part. -/
theorem receive_forwards {c : VisitCounters} {id : ProbeId} (a : Arrival) (nonzero : id ≠ 0)
    (capped : c.cap ≠ 0) (room : id.toNat < c.size) :
    (r.receive c a).1.filter (·.id? = some id) = (r.callFor id a).take (c.left id) ∧
      ((r.receive c a).2.count id).toNat
        = (c.count id).toNat + ((r.receive c a).1.filter (·.id? = some id)).length := by
  rw [receive_eq, callFor]
  cases met : a.id? with
  | none => simp [met]
  | some j =>
    by_cases same : j = id
    · subst same
      obtain ⟨reported, counted⟩ := c.record_of_counted nonzero capped room
      rw [Option.elim_some, counted, reported, if_pos rfl]
      cases left : c.left j with
      | zero => simp [c.lt_cap_iff, left]
      | succ n => simp [c.lt_cap_iff, left, met]
    · have other : ¬id = j := Ne.symm same
      simp only [Option.elim_some, c.count_record_of_ne other]
      cases (c.record j).1 <;> simp [met, same]

end Recorder

namespace Occurrence

/-- The calls for the visits of a number if they are handed on, with the sink. -/
def visits (id : ProbeId) : Occurrence → List (Nat × SinkCall)
  | arrived recorder sink arrival _ => (recorder.callFor id arrival).map (sink, ·)
  | loaded .. | compiled .. => []

/-- What is handed on of a number, with the sink. -/
def forwarded (id : ProbeId) : Occurrence → List (Nat × SinkCall)
  | arrived _ sink _ calls => (calls.filter (·.id? = some id)).map (sink, ·)
  | loaded .. | compiled .. => []

theorem visits_quiet {o : Occurrence} (h : o.isArrival = false) (id : ProbeId) :
    o.visits id = [] ∧ o.forwarded id = [] := by
  cases o with
  | loaded | compiled => exact ⟨rfl, rfl⟩
  | arrived => cases h

end Occurrence

namespace Session

variable {s s' : Session} {o : Occurrence} {os : List Occurrence} {id : ProbeId}

/-- **One thing that happens hands on a visit if the number has any left**, and counts it. -/
theorem Step.forwards (h : s.Step o s') (nonzero : id ≠ 0) (capped : s.counters.cap ≠ 0)
    (room : id.toNat < s.counters.size) :
    o.forwarded id = (o.visits id).take (s.counters.left id) ∧
      (s'.counters.count id).toNat
        = (s.counters.count id).toNat + (o.forwarded id).length := by
  cases arrives : o.isArrival with
  | false =>
    obtain ⟨none, silent⟩ := Occurrence.visits_quiet arrives id
    obtain ⟨points, e⟩ := h.reserves arrives
    simp [none, silent, e]
  | true =>
    cases h with
    | loaded | compiled => cases arrives
    | arrived r sink a =>
      obtain ⟨handed, counted⟩ := r.receive_forwards a nonzero capped room
      rw [Occurrence.forwarded, Occurrence.visits, List.length_map, counted, handed, List.map_take]
      exact ⟨rfl, rfl⟩

/-- **In a run the first visits are handed on**, as many as are left, and these are counted. -/
theorem Runs.forwards (h : s.Runs os s') (nonzero : id ≠ 0) (capped : s.counters.cap ≠ 0)
    (room : id.toNat < s.counters.size) :
    os.flatMap (·.forwarded id) = (os.flatMap (·.visits id)).take (s.counters.left id) ∧
      (s'.counters.count id).toNat
        = (s.counters.count id).toNat + (os.flatMap (·.forwarded id)).length := by
  -- What is left for the rest of the run is what the first visits did not take.
  induction h with
  | nil s => simp
  | @cons s s₁ s₂ o os step _ ih =>
    obtain ⟨first, counted⟩ := step.forwards nonzero capped room
    have grows := step.grows
    obtain ⟨later, total⟩ := ih (grows.cap ▸ capped) (Nat.lt_of_lt_of_le room grows.size)
    have left : s₁.counters.left id = s.counters.left id - (o.visits id).length := by
      rw [VisitCounters.left, grows.cap, counted, first, List.length_take, VisitCounters.left]
      omega
    simp only [List.flatMap_cons]
    refine ⟨?_, ?_⟩
    · rw [first, later, left, List.take_append]
    · rw [total, counted, List.length_append, Nat.add_assoc]

end Session

/-! ## The points of a method -/

namespace Session

variable {s s' : Session} {function : FunctionId} {key : MethodKey}

/-- **Compiling a method asks for points at most once.** -/
theorem asks_points : (s.methodCompiled function key).Asks Request.forPoints 1 :=
  asks_methodCompiled (fun _ _ other => other) Dialogue.asks_once

/-- A method with a new body had its points supplied, and room was made for them. -/
theorem Step.points {a b : Nat} {es : List Exchange}
    (h : s.Step (.compiled function key es (.instrumented a b)) s') :
    ∃ points, ⟨.points key, .ok points⟩ ∈ es ∧ s'.counters = reserve points s.counters ∧
      ∀ points', ⟨.points key, .ok points'⟩ ∈ es → points' = points := by
  cases h with
  | compiled ends =>
    obtain ⟨points, _, _, _, _, _, _, supplied, -, -, -, -, reserved⟩ :=
      (ends_methodCompiled ends).of_instrumented
    refine ⟨points, supplied.1, reserved, fun points' given => ?_⟩
    have same := asks_points.unique ends given supplied.1 rfl rfl
    simpa using same

end Session

/-- **The cap on visits holds for a whole session.** Take any session with a cap, and any run of it
in which a method got a body with probes. Then every number of the points of that method has a
counter, be there a probe for it or not. From then on, of the visits of such a number other than
zero the first ones are handed on, as many as the cap exceeds the count, and these are all,
whichever recorders and entry points are called and whatever modules and methods come in between. No
count ever falls: what is no visit leaves the counts as they are. -/
theorem cap_holds (settings : Settings) (addresses : RecorderAddresses) (capped : settings.cap ≠ 0)
    {before after : List Occurrence} {s₀ s₁ s₂ : Session} {function : FunctionId} {key : MethodKey}
    {es : List Exchange} {sequence branches : Nat}
    (started : (Session.new settings addresses).Runs before s₀)
    (compiled : s₀.Step (.compiled function key es (.instrumented sequence branches)) s₁)
    (continued : s₁.Runs after s₂) :
    (∃ points, ⟨.points key, .ok points⟩ ∈ es) ∧
    (∀ points, ⟨.points key, .ok points⟩ ∈ es → ∀ id ∈ points.ids,
      id.toNat < s₁.counters.size ∧ id.toNat < s₂.counters.size ∧
      (id ≠ 0 →
        after.flatMap (·.forwarded id) = (after.flatMap (·.visits id)).take
          (settings.cap.toNat - (s₁.counters.count id).toNat) ∧
        (s₂.counters.count id).toNat
          = (s₁.counters.count id).toNat + (after.flatMap (·.forwarded id)).length)) ∧
    (∀ id, s₀.counters.count id ≤ s₁.counters.count id ∧
      s₁.counters.count id ≤ s₂.counters.count id) ∧
    (∀ (s s' : Session) (o : Occurrence), s.Step o s' → o.isArrival = false →
      ∀ id, s'.counters.count id = s.counters.count id) ∧
    ∀ (c : VisitCounters) (bound : Nat) (id : ProbeId), (c.grow bound).count id = c.count id := by
  have cap₀ : s₀.counters.cap = settings.cap := started.grows.cap
  have grows := compiled.grows
  have cap₁ : s₁.counters.cap = settings.cap := grows.cap.trans cap₀
  obtain ⟨points₀, supplied, grown, only⟩ := compiled.points
  refine ⟨⟨points₀, supplied⟩, fun points given id mem => ?_,
    fun id => ⟨grows.count id, continued.grows.count id⟩, fun s s' o step quiet id => ?_,
    VisitCounters.count_grow⟩
  · obtain rfl := only points given
    have room : id.toNat < s₁.counters.size := by
      rw [grown]
      exact Session.lt_size_reserve (cap₀ ▸ capped) mem
    refine ⟨room, Nat.lt_of_lt_of_le room continued.grows.size, fun nonzero => ?_⟩
    have forwards := continued.forwards nonzero (cap₁ ▸ capped) room
    rwa [VisitCounters.left, cap₁] at forwards
  · obtain ⟨points, e⟩ := step.reserves quiet
    rw [e, Session.count_reserve]

/-- The visits of two recorders: the first two of a number are reported, in either way. -/
theorem cap_holds_twoReturns : ∃ es s₁ s₂ after,
    (Session.new { Settings.default with cap := 2 } ⟨0, 0, .bits64⟩).Step
      (.compiled 1 ⟨1, ⟨0x06000001⟩⟩ es (.instrumented 1 2)) s₁ ∧ s₁.Runs after s₂ ∧
    after.flatMap (·.visits 8)
      = [(0, .visitBuffered 8), (1, .visitWithContext 8 1 2), (0, .visitBuffered 8)] ∧
    after.flatMap (·.forwarded 8) = [(0, .visitBuffered 8), (1, .visitWithContext 8 1 2)] := by
  let s₀ := Session.new { Settings.default with cap := 2 } ⟨0, 0, .bits64⟩
  let key : MethodKey := ⟨1, ⟨0x06000001⟩⟩
  let points : Points := ⟨[⟨0, 7⟩], [⟨1, 0, 8⟩, ⟨1, 1, 9⟩]⟩
  obtain ⟨es, s₁, compiled, only⟩ : ∃ es s₁, s₀.Step (.compiled 1 key es (.instrumented 1 2)) s₁ ∧
      ∀ points', ⟨.points key, .ok points'⟩ ∈ es → points' = points := by
    have outcome : ((s₀.methodCompiled 1 key).run Script.world twoReturnsProcess).1.1
        = .instrumented 1 2 := by
      decide +kernel
    have answers : ((s₀.methodCompiled 1 key).run Script.world twoReturnsProcess).2.2.exchanges.all
        (twoReturnsAnswer [0x16, 0x02, 0x2D, 0x01, 0x2A, 0x2A]) = true := by
      decide +kernel
    refine ⟨_, _, Session.step_run outcome, fun points' given => ?_⟩
    exact Except.ok.inj (ok_of_toOption (List.all_eq_true.1 answers _ given))
  have continued := Session.Runs.cons (s := s₁) (.arrived ⟨false⟩ 0 (.visit 8))
    (.cons (.arrived ⟨true⟩ 1 (.visitWithContext 8 1 2))
      (.cons (.arrived ⟨false⟩ 0 (.visit 8)) (.nil _)))
  obtain ⟨⟨points', given⟩, forwards, -, quiet, -⟩ :=
    cap_holds _ _ (by decide) (.nil _) compiled continued
  obtain rfl := only points' given
  obtain ⟨first, -⟩ := (forwards _ given 8 (by decide)).2.2 (by decide)
  have zero := quiet _ _ _ compiled rfl 8
  rw [zero] at first
  exact ⟨_, _, _, _, compiled, continued, rfl, first⟩

end CilProbes
