import CilProbes.Proofs.Coverage.Safe
import CilProbes.Proofs.Session.FailOpen
import CilProbes.Proofs.Writing.Relocation
import CilProbes.Session.Script

/-!
# The offset maps that a host gets

A host is told where the instructions of a method went once the method has its new body. The map is
the one that was written down when this body was encoded, so it is a table of the offsets of the old
body and leads from each instruction of it to the same one in the new body.

* `offsetMap_faithful`: the map of a method with inserted code, and the map that a host gets.
* `offsetMap_kindless`: an inserted instruction without its operand can hide those behind it.
-/

namespace CilProbes

/-- Instrumentation inserts code that stood in no body and that a body can hold. -/
theorem grows_instrument {m m' : Method} {p : Points} {d : ProbeDispatch} {outcome : Instrumented}
    {body : Bytes} (decoded : Method.decode body = .ok m)
    (instrumented : (m.instrument p d).runOn.1 = .ok (outcome, m')) :
    m.Grows (·.origin = none) m' ∧ m'.Kinded := by
  have writable := writable_of_decode decoded
  have grows := (probed_instrument writable.ordered (Logged.yields_of_runOn instrumented)).grows
  refine ⟨grows.mono fun _ new => new.1, ?_⟩
  exact grows.kinded (fun _ new => new.2) writable.ordered writable.kinded

/-- **The offset map is a faithful relocation table.** However much code goes into a method that was
decoded, its map has each offset of the old body once, and both sides go up. If the operands have
the kinds that the opcodes ask for, the new body is decoded, and this map and no other leads from
each instruction to itself in the new body. So it is after instrumentation. What the host gets with
a new body is the map of the instrumented method that was encoded into this body. -/
theorem offsetMap_faithful {σ : Type} :
    (∀ (body c : Bytes) (m m₁ m₂ : Method) (compact : Bool), Method.decode body = .ok m →
      m.Grows (·.origin = none) m₁ → m₁.encode compact = .ok (c, m₂) →
        m.Tabulates m₂.offsetMap ∧
        (m₁.Kinded → ∃ m₃, Method.decode c = .ok m₃ ∧ m.Relocates m₂ m₃ m₂.offsetMap ∧
          ∀ map, m.Tabulates map → m.Relocates m₂ m₃ map → map = m₂.offsetMap)) ∧
    (∀ (body : Bytes) (m m₁ : Method) (p : Points) (d : ProbeDispatch) (outcome : Instrumented),
      Method.decode body = .ok m → (m.instrument p d).runOn.1 = .ok (outcome, m₁) →
        m.Grows (·.origin = none) m₁ ∧ m₁.Kinded) ∧
    ∀ (s : Session) (function : FunctionId) (key : MethodKey) (w : World σ) (state : σ) (a b : Nat),
      ((s.methodCompiled function key).run w state).1.1 = .instrumented a b →
        ∃ points dispatch m m₁ c m₂ m₃ answer,
          Session.Supplied key
            ((s.methodCompiled function key).run w state).2.2.exchanges points m ∧
          (m.instrument points dispatch).runOn.1 = .ok (.applied a b, m₁) ∧
          m₁.encode false = .ok (c, m₂) ∧
          hostChanges ((s.methodCompiled function key).run w state).2.2.exchanges
            = [⟨.setMethodBody key c, .ok ()⟩, ⟨.setOffsetMap function m₂.offsetMap, answer⟩] ∧
          m.Tabulates m₂.offsetMap ∧
          Method.decode c = .ok m₃ ∧ m.Relocates m₂ m₃ m₂.offsetMap := by
  refine ⟨fun body c m m₁ m₂ compact decoded grows encoded => ⟨?_, fun kinded => ?_⟩,
    fun body m m₁ p d outcome => grows_instrument, fun s function key w state a b ended => ?_⟩
  · exact Method.offsetMap_tabulates decoded grows encoded
  · have tabulates := Method.offsetMap_tabulates decoded grows encoded
    obtain ⟨m₃, decoded₃, relocates⟩ := Method.offsetMap_relocates decoded grows encoded kinded
    refine ⟨m₃, decoded₃, relocates, fun map table leads => ?_⟩
    exact leads.unique relocates (table.before.trans tabulates.before.symm)
  · have compiled : s.Compiled function key _ (.instrumented a b) _ :=
      ended ▸ Session.ends_methodCompiled (Dialogue.ends_run w _ state)
    obtain ⟨points, m, dispatch, m₁, c, m₂, answer, supplied, -, applied, fitted, changed, -⟩ :=
      compiled.of_instrumented
    obtain ⟨body, -, decoded⟩ := supplied.2
    obtain ⟨grows, kinded⟩ := grows_instrument decoded applied
    have tabulates := Method.offsetMap_tabulates decoded grows fitted.encoded
    obtain ⟨m₃, decoded₃, relocates⟩ :=
      Method.offsetMap_relocates decoded grows fitted.encoded kinded
    exact ⟨points, dispatch, m, m₁, c, m₂, m₃, answer, supplied, applied, fitted.encoded, changed,
      tabulates, decoded₃, relocates⟩

/-- A process with one method, which returns one of two arguments, and with points for its start and
for both edges of its branch. -/
def twoReturnsProcess : Script where
  modules := Table.empty.insert 1 { ScriptedModule.blank with safeToken := some ⟨0x0A000001⟩ }
  points := [(⟨1, ⟨0x06000001⟩⟩, .ok ⟨[⟨0, 7⟩], [⟨1, 0, 8⟩, ⟨1, 1, 9⟩]⟩)]
  bodies := Table.empty.insert ⟨1, ⟨0x06000001⟩⟩ (some [0x16, 0x02, 0x2D, 0x01, 0x2A, 0x2A])
  switches := {}

/-- The body of that method once it has its probes. -/
def twoReturnsProbed : Bytes :=
  [0x03, 0x30, 0x09, 0x00, 0x27, 0x00, 0x00, 0x00, 0x00, 0x00, 0x00, 0x00,
    0x20, 0x07, 0x00, 0x00, 0x00, 0x28, 0x01, 0x00, 0x00, 0x0A, 0x02, 0x2D, 0x0C,
    0x20, 0x08, 0x00, 0x00, 0x00, 0x28, 0x01, 0x00, 0x00, 0x0A, 0x2B, 0x0C,
    0x20, 0x09, 0x00, 0x00, 0x00, 0x28, 0x01, 0x00, 0x00, 0x0A, 0x2B, 0x01, 0x2A, 0x2A]

/-- The answers in that process, with a given body of the method. -/
def twoReturnsAnswer (body : Bytes) : Exchange → Bool
  | ⟨.points _, answer⟩ => answer.toOption == some ⟨[⟨0, 7⟩], [⟨1, 0, 8⟩, ⟨1, 1, 9⟩]⟩
  | ⟨.methodBody _, answer⟩ => answer.toOption == some body
  | ⟨.setMethodBody _ installed, _⟩ => installed == twoReturnsProbed
  | _ => true

/-- Compiling the method, the host gets a map of its four instructions. -/
theorem offsetMap_faithful_twoReturns :
    ∃ m₁ c m₂, (twoReturns.instrument ⟨[⟨0, 7⟩], [⟨1, 0, 8⟩, ⟨1, 1, 9⟩]⟩
        (.trampoline ⟨0x0A000001⟩)).runOn.1 = .ok (.applied 1 2, m₁) ∧
      m₁.encode false = .ok (c, m₂) ∧ twoReturns.Tabulates m₂.offsetMap ∧
      (∃ m₃, Method.decode c = .ok m₃ ∧ twoReturns.Relocates m₂ m₃ m₂.offsetMap) ∧
      ∃ c', ∃ m' : Method, ∃ answer,
        hostChanges (((Session.new .default ⟨0, 0, .bits64⟩).methodCompiled 1
            ⟨1, ⟨0x06000001⟩⟩).run Script.world twoReturnsProcess).2.2.exchanges
          = [⟨.setMethodBody ⟨1, ⟨0x06000001⟩⟩ c', .ok ()⟩,
            ⟨.setOffsetMap 1 m'.offsetMap, answer⟩] := by
  have written : ((twoReturns.instrument ⟨[⟨0, 7⟩], [⟨1, 0, 8⟩, ⟨1, 1, 9⟩]⟩
      (.trampoline ⟨0x0A000001⟩)).runOn.1.toOption.bind fun r =>
        (r.2.encode false).toOption).isSome = true := by
    decide +kernel
  have compiled : (((Session.new .default ⟨0, 0, .bits64⟩).methodCompiled 1
      ⟨1, ⟨0x06000001⟩⟩).run Script.world twoReturnsProcess).1.1 = .instrumented 1 2 := by
    decide +kernel
  obtain ⟨m₁, applied⟩ := instrument_twoReturns
  rw [applied] at written
  obtain ⟨tables, instruments, reports⟩ := @offsetMap_faithful Script
  obtain ⟨grows, kinded⟩ := instruments _ _ _ _ _ _ decode_twoReturns applied
  obtain ⟨-, -, -, -, c', m', -, answer, -, -, -, changed, -⟩ := reports _ _ _ _ _ _ _ compiled
  cases encoded : m₁.encode false with
  | error fault => simp [Except.toOption, encoded] at written
  | ok r =>
    obtain ⟨tabulates, relocates⟩ := tables _ r.1 _ _ r.2 _ decode_twoReturns grows encoded
    obtain ⟨m₃, decoded₃, leads, -⟩ := relocates kinded
    exact ⟨m₁, r.1, r.2, applied, encoded, tabulates, ⟨m₃, decoded₃, leads⟩, c', m', answer,
      changed⟩

/-- **Operands that the opcodes do not ask for can break the map.** In front of a return goes an
instruction without the operand that its opcode asks for. What is encoded then cannot be decoded,
and the return is not found where the map says. -/
theorem offsetMap_kindless : ∃ m ids m₁ c m₂, Method.decode [0x06, 0x2A] = .ok m ∧
    (Instruction.simple .ldcI4).origin = none ∧
    m.insert 0 [.simple .ldcI4] .before = .ok (ids, m₁) ∧ m₁.encode true = .ok (c, m₂) ∧
    m₂.offsetMap = [⟨0, 1⟩] ∧ ∀ m₃, Method.decode c ≠ .ok m₃ := by
  let code : Array Instruction := #[⟨.ret, .none, some 0, 0⟩, .simple .ldcI4]
  let written : Array Instruction := #[⟨.ret, .none, some 0, 1⟩, .simple .ldcI4]
  refine ⟨{ Method.empty with stock := code.take 1, order := [0] }, [1],
    { Method.empty with stock := code, order := [1, 0] }, [0x0A, 0x20, 0x2A],
    { Method.empty with stock := written, order := [1, 0] }, ?_, rfl, ?_, ?_, ?_, ?_⟩
  · decide +kernel
  · decide +kernel
  · decide +kernel
  · decide +kernel
  · have unread : (Method.decode [0x0A, 0x20, 0x2A]).toOption = none := by decide +kernel
    intro m₃ decoded
    rw [decoded] at unread
    cases unread

end CilProbes
