import CilProbes.Visit.Counters

/-! # Recorders

A recorder is what probes call at run time. It asks the counters whether a visit is to be reported
and hands it on to a sink: at once in safe mode and with a correlation id, otherwise through the
sink's buffer. Recorders of one session share its counters.

* `Recorder.receive`: the sink calls for one arrival.
* `Recorder.receiveAll`: those for a run of arrivals.
* `receiveAll_append`: a run of arrivals can be cut anywhere.
* `SinkCall.unbuffered`: what a sink without a buffer makes of a call.
-/

namespace CilProbes

/-- What a sink is told. -/
inductive SinkCall where
  | visit (id : ProbeId)
  /-- A visit that may wait for the next flush. -/
  | visitBuffered (id : ProbeId)
  /-- A visit with the halves of a correlation id. -/
  | visitWithContext (id : ProbeId) (high low : UInt64)
  /-- Nothing may wait any longer. -/
  | flush
deriving DecidableEq, Repr

/-- What arrives at a recorder. -/
inductive Arrival where
  | visit (id : ProbeId)
  /-- A probe with a number and the halves of a correlation id. -/
  | visitWithContext (id : ProbeId) (high low : UInt64)
  /-- The end of a thread or of the session. -/
  | flush
deriving DecidableEq, Repr

/-- The run-time side of the probes. -/
structure Recorder where
  /-- Whether every visit is handed on at once. -/
  safeMode : Bool := false
deriving DecidableEq, Repr

/-- What a sink without a buffer makes of a call. -/
def SinkCall.unbuffered : SinkCall → List SinkCall
  | visitBuffered id => [visit id]
  | flush => []
  | call => [call]

namespace Recorder

variable (r : Recorder)

def handOn (id : ProbeId) : SinkCall := if r.safeMode then .visit id else .visitBuffered id

/-- **The sink calls for one arrival.** -/
def receive (c : VisitCounters) : Arrival → List SinkCall × VisitCounters
  | .visit id =>
    let (forwarded, c) := c.record id
    (if forwarded then [r.handOn id] else [], c)
  | .visitWithContext id high low =>
    let (forwarded, c) := c.record id
    (if forwarded then [.visitWithContext id high low] else [], c)
  | .flush => ([.flush], c)

/-- **The sink calls for a run of arrivals.** -/
def receiveAll (c : VisitCounters) : List Arrival → List SinkCall × VisitCounters
  | [] => ([], c)
  | a :: as =>
    let (calls, c) := r.receive c a
    let (more, c) := receiveAll c as
    (calls ++ more, c)

/-- **A run of arrivals can be cut anywhere**: the counters carry over, nothing else does. -/
theorem receiveAll_append (c : VisitCounters) (as bs : List Arrival) :
    r.receiveAll c (as ++ bs)
      = ((r.receiveAll c as).1 ++ (r.receiveAll (r.receiveAll c as).2 bs).1,
        (r.receiveAll (r.receiveAll c as).2 bs).2) := by
  induction as generalizing c with
  | nil => rfl
  | cons a as ih => simp [receiveAll, ih]

end Recorder

end CilProbes
