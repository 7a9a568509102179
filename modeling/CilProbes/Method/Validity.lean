import CilProbes.Fault
import CilProbes.Locator
import CilProbes.Method

/-! # Valid methods

A method can be laid out when every branch and every handler boundary names an instruction of the
order and no exception region is empty. `validate` reports the first reference that breaks this:
branches come before handlers, and of a handler first its boundaries, then its regions, then its
filter block.

* `Method.places`: the place of every instruction, for many look-ups.
* `Method.relocationFault?`: the first broken reference.
-/

namespace CilProbes.Method

/-- The place of every instruction in the order. -/
def places (m : Method) : Locator := Locator.ofKeys m.stock.size m.order

/-- The first target of an instruction that has no place. -/
def targetFault? (places : Locator) (id : InstrId) (i : Instruction) : Option RelocationFault :=
  i.targets.findSome? fun t =>
    if (places.find? t).isSome then none else some (.danglingTarget i.mnemonic id t)

/-- Whether a region starts before it ends; the end of the code is behind every instruction. -/
def regionHolds (places : Locator) (count : Nat) (start : InstrId) (stop : Option InstrId) :
    Bool :=
  match places.find? start, stop.elim (some count) places.find? with
  | some s, some e => s < e
  | _, _ => false

/-- What is wrong with the handler of the clause with a given number. -/
def handlerFault? (places : Locator) (count : Nat) (h : Handler) (clause : Nat) :
    Option RelocationFault :=
  match h.boundaries.find? fun b => (places.find? b).isNone with
  | some b => some (.danglingBoundary clause b)
  | none =>
    if regionHolds places count h.tryStart h.tryEnd
        && regionHolds places count h.handlerStart h.handlerEnd then
      if h.isFilter && h.filterStart.isNone then some (.missingFilter clause) else none
    else some (.emptyRegion clause)

/-- **The first broken reference.** -/
def relocationFault? (m : Method) : Option RelocationFault :=
  let places := m.places
  match m.sequence.findSome? fun (id, i) => targetFault? places id i with
  | some fault => some fault
  | none => m.handlers.zipIdx.findSome? fun (h, clause) => handlerFault? places m.size h clause

/-- Refuses a method with a broken reference. -/
def validate (m : Method) : Except Fault Unit :=
  match m.relocationFault? with
  | some fault => .error (.relocation fault)
  | none => .ok ()

end CilProbes.Method
