import CilProbes.Session.Request

/-! # Dialogues

A dialogue is what a session does in terms of the outside world: it asks a request and goes on
with the answer, or notes an event, or is done. Nothing in it depends on who answers, so one
dialogue can be run against any collaborators, be they obliging, moody or wrong.

* `Dialogue.run`: the outcome and the transcript of a dialogue with a given world.
* `Talk`: a dialogue that may end in a fault.
* `run_bind`: the run of two dialogues in a row is the two runs in a row.
-/

namespace CilProbes

/-- A computation that asks collaborators and notes events. -/
inductive Dialogue (α : Type) where
  | done (value : α)
  | ask (request : Request) (next : request.Answer → Dialogue α)
  | note (event : LogEvent) (next : Dialogue α)

/-- The collaborators, with the state on which their answers depend. -/
structure World (σ : Type) where
  answer : (r : Request) → σ → r.Answer × σ

/-- A request together with its answer. -/
structure Exchange where
  request : Request
  answer : request.Answer

/-- One turn of a dialogue. -/
inductive Turn where
  | asked (exchange : Exchange)
  | noted (event : LogEvent)

/-- The turns of a dialogue, in order. -/
abbrev Transcript : Type := List Turn

namespace Transcript

def exchanges (t : Transcript) : List Exchange :=
  t.filterMap fun | .asked e => some e | .noted _ => none

def events (t : Transcript) : List LogEvent :=
  t.filterMap fun | .asked _ => none | .noted e => some e

end Transcript

namespace Dialogue

variable {α β σ : Type}

def bind : Dialogue α → (α → Dialogue β) → Dialogue β
  | done a, f => f a
  | ask r next, f => ask r fun answer => (next answer).bind f
  | note e next, f => note e (next.bind f)

instance : Monad Dialogue where
  pure := done
  bind := bind

def request (r : Request) : Dialogue r.Answer := ask r done

def tell (e : LogEvent) : Dialogue Unit := note e (done ())

def tellAll : List LogEvent → Dialogue Unit
  | [] => done ()
  | e :: es => note e (tellAll es)

/-- **The outcome of a dialogue with a world**, the state in which the world is left, and what was
said. -/
def run (w : World σ) : Dialogue α → σ → α × σ × Transcript
  | done a, s => (a, s, [])
  | ask r next, s =>
    let (answer, s) := w.answer r s
    let (a, s, t) := (next answer).run w s
    (a, s, .asked ⟨r, answer⟩ :: t)
  | note e next, s =>
    let (a, s, t) := next.run w s
    (a, s, .noted e :: t)

@[simp] theorem pure_eq (a : α) : (pure a : Dialogue α) = done a := rfl

@[simp] theorem bind_eq (d : Dialogue α) (f : α → Dialogue β) : d >>= f = d.bind f := rfl

/-- A dialogue that goes on with its own end is itself. -/
theorem bind_done (d : Dialogue α) : d.bind done = d := by
  induction d with
  | done a => rfl
  | ask r next ih => simp only [bind, ih]
  | note e next ih => simp only [bind, ih]

/-- Dialogues in a row can be grouped in either way. -/
theorem bind_assoc {γ : Type} (d : Dialogue α) (f : α → Dialogue β) (g : β → Dialogue γ) :
    (d.bind f).bind g = d.bind fun a => (f a).bind g := by
  induction d with
  | done a => rfl
  | ask r next ih => simp only [bind, ih]
  | note e next ih => simp only [bind, ih]

instance : LawfulMonad Dialogue := LawfulMonad.mk' Dialogue bind_done (fun _ _ => rfl) bind_assoc

@[simp] theorem run_done (w : World σ) (a : α) (s : σ) : (done a).run w s = (a, s, []) := rfl

/-- **The run of two dialogues in a row is the two runs in a row.** -/
theorem run_bind (w : World σ) (d : Dialogue α) (f : α → Dialogue β) (s : σ) :
    (d.bind f).run w s =
      let (a, s, t) := d.run w s
      let (b, s, u) := (f a).run w s
      (b, s, t ++ u) := by
  induction d generalizing s with
  | done a => rfl
  | ask r next ih => simp [bind, run, ih]
  | note e next ih => simp [bind, run, ih]

end Dialogue

/-- A dialogue that may end in a fault. -/
abbrev Talk (α : Type) : Type := ExceptT Fault Dialogue α

namespace Talk

variable {α : Type}

/-- A request whose refusal is a fault. -/
def demand (d : Dialogue (Except String α)) : Talk α :=
  ExceptT.mk (d.bind fun answer => .done (answer.mapError .hostApi))

def tell (e : LogEvent) : Talk Unit := ExceptT.lift (Dialogue.tell e)

/-- Goes on with a value, unless there is a fault instead. -/
def ofExcept (value : Except Fault α) : Talk α := ExceptT.mk (.done value)

/-- A computation that notes events, as a dialogue. -/
def ofLogged (l : Logged α) : Talk α :=
  ExceptT.mk ((Dialogue.tellAll l.runOn.2).bind fun _ => .done l.runOn.1)

end Talk

end CilProbes
