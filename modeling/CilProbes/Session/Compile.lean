import CilProbes.Coverage.Instrument
import CilProbes.Method.Decode
import CilProbes.Method.Encode
import CilProbes.Method.Listing
import CilProbes.Session

/-! # Methods about to be compiled

Just before a method is compiled, the session may put a new body in its place: the body with
probes, or the body of a helper. Whatever goes wrong on the way, the method keeps its body and the
session goes on.

* `Outcome`: what became of a method.
* `Session.replaceHelper`: the body of a helper.
* `Session.instrument`: the body with probes.
* `Session.methodCompiled`: the whole of it.
-/

namespace CilProbes

/-- Why a method was left alone. -/
inductive SkipReason where
  | noPoints
  | alreadyInstrumented
deriving DecidableEq, Repr

/-- What became of a method. -/
inductive Outcome where
  /-- It has a body with probes, as many for sequence points and for edges. -/
  | instrumented (sequence branches : Nat)
  | helperReplaced (helper : Helper)
  | skipped (reason : SkipReason)
  | failed
deriving DecidableEq, Repr

def SkipReason.text : SkipReason → String
  | noPoints => "NoPoints"
  | alreadyInstrumented => "AlreadyInstrumented"

/-- The events that list the points of a method. -/
def Points.events (p : Points) (method : Token) : List LogEvent :=
  .sequencePointsOf method :: p.sequence.map .sequencePoint
    ++ .branchPointsOf method :: p.branches.map .branchPoint

namespace Session

/-- **Puts a method in place.** The host gives room for the body, which may be more than enough,
and gets the bytes that were written. The answer is the method with its final offsets. -/
def install (key : MethodKey) (m : Method) : Talk Method := do
  let size ← Talk.ofExcept (m.bodySize false)
  let room ← Talk.demand (.request (.allocateBody key.module size))
  let (result, room) := m.encodeInto false room
  let (written, m) ← Talk.ofExcept result
  Talk.demand (.request (.setMethodBody key (room.take written)))
  pure m

variable (s : Session)

/-- The helper that a method is; without a nest in use it is none. -/
def helper? (key : MethodKey) : Option Helper :=
  if s.settings.mode = .cuckoo then s.nest.helper? key else none

/-- The method that stands for a helper. -/
def helperMethod (key : MethodKey) : Helper → Talk Method
  | .critical => Talk.ofExcept s.nest.criticalMethod
  | .safe => do
    let context ← ExceptT.lift (Dialogue.request (.correlationContext key.module))
    Talk.ofExcept (s.nest.safeMethod context)

/-- **Gives a helper its body.** -/
def replaceHelper (key : MethodKey) (helper : Helper) : Talk Outcome := do
  let m ← s.helperMethod key helper
  let _ ← install key m
  Talk.tell (.helperInstalled helper key.token)
  pure (.helperReplaced helper)

/-- The points and the decoded body of a method, if there is anything to record. -/
def prepare (key : MethodKey) : Talk (Option (Points × Method)) := do
  let points ← Talk.demand (.request (.points key))
  if points.sequence.isEmpty then
    Talk.tell (.noSequencePoints key.token)
    return none
  let body ← Talk.demand (.request (.methodBody key))
  let m ← Talk.ofExcept (Method.decode body)
  if s.settings.diagnostics then
    ExceptT.lift (Dialogue.tellAll (points.events key.token))
    Talk.tell (.listingBefore key.token m.listing)
  pure (some (points, m))

/-- Tells the host where the instructions went. The new body is in place by then, so a refusal is
noted and nothing more. -/
def reportOffsets (function : FunctionId) (key : MethodKey) (m : Method) : Dialogue Unit := do
  match ← Dialogue.request (.setOffsetMap function m.offsetMap) with
  | .ok () => pure ()
  | .error text => Dialogue.tell (.offsetMapRefused key.token (.hostApi text))

/-- **Gives a method a body with probes.** -/
def instrument (function : FunctionId) (key : MethodKey) (points : Points) (m : Method)
    (dispatch : ProbeDispatch) : Talk Outcome := do
  let (result, m) ← Talk.ofLogged (m.instrument points dispatch)
  match result with
  | .already =>
    Talk.tell (.alreadyInstrumented key.token)
    pure (.skipped .alreadyInstrumented)
  | .nothing => pure (.skipped .noPoints)
  | .applied sequence branches =>
    let m ← install key m
    if s.settings.diagnostics then Talk.tell (.listingAfter key.token m.listing)
    ExceptT.lift (reportOffsets function key m)
    pure (.instrumented sequence branches)

/-- The counters with room for the points of a method; without a cap there is nothing to count. -/
def reserve (points : Points) (c : VisitCounters) : VisitCounters :=
  if c.cap = 0 then c
  else
    let room := fun (c : VisitCounters) (id : Option ProbeId) =>
      id.elim c fun id => c.grow (id.toNat + 1)
    room (room c points.maxSequenceId?) points.maxBranchId?

/-- The session after an instrumentation. Only a new body asks for counters. -/
def afterInstrument (points : Points) : Except Fault Outcome → Session
  | .ok (.instrumented _ _) => { s with counters := reserve points s.counters }
  | _ => s

/-- The outcome for a method, or the fault on the way, and the session behind it. -/
def compile (function : FunctionId) (key : MethodKey) :
    Dialogue (Except Fault Outcome × Session) := do
  match s.helper? key with
  | some helper => pure (← (s.replaceHelper key helper).run, s)
  | none =>
    match ← (s.prepare key).run with
    | .error fault => pure (.error fault, s)
    | .ok none => pure (.ok (.skipped .noPoints), s)
    | .ok (some (points, m)) =>
      let (dispatch, resolver) ← s.resolver.dispatchFor key.module
      let s := { s with resolver }
      match dispatch with
      | .error fault => pure (.error fault, s)
      | .ok dispatch =>
        let outcome ← (s.instrument function key points m dispatch).run
        pure (outcome, s.afterInstrument points outcome)

/-- **What a session does with a method about to be compiled.** It never fails: a fault is noted,
and the method keeps its body. -/
def methodCompiled (function : FunctionId) (key : MethodKey) : Dialogue (Outcome × Session) := do
  match ← s.compile function key with
  | (.ok outcome, s) => pure (outcome, s)
  | (.error fault, s) =>
    Dialogue.tell (.leftUninstrumented key.module key.token fault)
    pure (.failed, s)

end Session

end CilProbes
