import CilProbes.Method
import CilProbes.Fault

/-! # Inserting code

New code enters a method next to an anchor. Placed before it, the code takes over everything that
led to the anchor: branches and handler boundaries that named the anchor name the first new
instruction from then on, so every path to the anchor runs the new code. Placed after it, no
reference changes.

* `Method.splice`: the insertion at a known place.
* `Method.insert`: the insertion next to an anchor, with the ids of the new code.
-/

namespace CilProbes

/-- On which side of its anchor new code goes. -/
inductive Side where
  /-- In front, taking over the references to the anchor. -/
  | before
  /-- Behind, leaving every reference alone. -/
  | after
deriving DecidableEq, Repr

namespace Method

/-- The ids that `count` new instructions get. -/
def freshIds (m : Method) (count : Nat) : List InstrId := List.range' m.nextId count

/-- Puts code at a place of the order and enters it in the stock. -/
def splice (m : Method) (place : Nat) (code : List Instruction) : Method :=
  { m with
    stock := m.stock ++ code.toArray
    order := m.order.take place ++ m.freshIds code.length ++ m.order.drop place }

/-- Sends every reference to `old` to `new`, in operands and in handlers. -/
def redirect (m : Method) (old new : InstrId) : Method :=
  { m with
    stock := m.stock.map (·.retarget old new)
    handlers := m.handlers.map (·.retarget old new) }

/-- **Inserts code next to an anchor.** The references are redirected before the code goes in,
so the new code keeps its own. Without code there is nothing to redirect to, and nothing
changes. -/
def insert (m : Method) (anchor : InstrId) (code : List Instruction) (side : Side) :
    Except Fault (List InstrId × Method) :=
  match m.position? anchor with
  | none => .error (.relocation (.unknownAnchor anchor))
  | some place =>
    if code.isEmpty then .ok ([], m)
    else
      let m' := match side with
        | .before => (m.redirect anchor m.nextId).splice place code
        | .after => m.splice (place + 1) code
      .ok (m.freshIds code.length, m')

end Method

end CilProbes
