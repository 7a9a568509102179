import CilProbes.Bytes.Cursor
import CilProbes.Fault

/-! # Readers

A reader consumes bytes at a cursor and ends with a value or a fault. Either way it leaves the
cursor somewhere: a fault in the middle of a structure leaves it behind the fields already read.

* `Reader.step`: one cursor operation, with the fault that stands for its refusal.
* `Reader.whileMore`: one item after the other, to the end of the bytes.
-/

namespace CilProbes

/-- A consumer of bytes. -/
abbrev Reader (α : Type) : Type := ExceptT Fault (StateM Cursor) α

namespace Reader

variable {α β : Type}

/-- A cursor operation; `fault` when the bytes run out. -/
def step (op : Cursor → Option (α × Cursor)) (fault : Fault) : Reader α :=
  ExceptT.mk fun c =>
    match op c with
    | some (a, c') => (.ok a, c')
    | none => (.error fault, c)

/-- A cursor movement; `fault` when the bytes run out. -/
def move (op : Cursor → Option Cursor) (fault : Fault) : Reader Unit :=
  step (fun c => (op c).map fun c' => ((), c')) fault

def look (f : Cursor → α) : Reader α :=
  ExceptT.mk fun c => (.ok (f c), c)

def field (α : Type) [FixedWidth α] (fault : Fault) : Reader α :=
  step (Cursor.read? α) fault

def fields (α : Type) [FixedWidth α] (fault : Fault) : (count : Nat) → Reader (List α)
  | count => go count []
where
  /-- Collects the fields back to front. -/
  go : Nat → List α → Reader (List α)
    | 0, done => pure done.reverse
    | count + 1, done => do
      let a ← field α fault
      go count (a :: done)

/-- Collects items while bytes remain, but at most `tries` of them. -/
def collect (item : Reader α) : (tries : Nat) → (done : List α) → Reader (List α)
  | 0, done => pure done.reverse
  | tries + 1, done => do
    if ← look Cursor.hasMore then
      let a ← item
      collect item tries (a :: done)
    else
      pure done.reverse

/-- **One item after the other**, to the end of the bytes. An item that reads at least one byte
is tried often enough. -/
def whileMore (item : Reader α) : Reader (List α) := do
  collect item (← look Cursor.remaining) []

/-- The outcome of reading a byte string from its start. -/
def runOn (r : Reader α) (bs : Bytes) : Except Fault α :=
  (r.run.run (Cursor.ofBytes bs)).1

end Reader

end CilProbes
