import CilProbes.Bytes.LittleEndian

/-! # Cursors

A cursor is a position in a byte string. Every operation either moves it within the string or
leaves it alone: reading past the end is refused, never cut short.

* `rest` is the view of a cursor: the bytes from its position on.
* `take?_eq`: bytes can be taken exactly when the rest starts with that many, and those are the
  bytes taken.
-/

namespace CilProbes

/-- A position in a byte string. -/
structure Cursor where
  data : Array UInt8
  /-- How many of them lie behind. -/
  pos : Nat
deriving DecidableEq

namespace Cursor

/-- The cursor at the start of a byte string. -/
def ofBytes (bs : Bytes) : Cursor := ⟨bs.toArray, 0⟩

def size (c : Cursor) : Nat := c.data.size

def remaining (c : Cursor) : Nat := c.data.size - c.pos

/-- Whether any byte lies ahead. -/
def hasMore (c : Cursor) : Bool := c.pos < c.data.size

/-- **The bytes ahead.** -/
def rest (c : Cursor) : Bytes := c.data.toList.drop c.pos

/-- The same string, at another position; the end is a position too. -/
def seek? (c : Cursor) (pos : Nat) : Option Cursor :=
  if pos ≤ c.data.size then some { c with pos } else none

def advance? (c : Cursor) (step : Nat) : Option Cursor := c.seek? (c.pos + step)

/-- How far a position is from the next multiple of `alignment`. -/
def padding (alignment pos : Nat) : Nat := (alignment - pos % alignment) % alignment

/-- The cursor at the next multiple of `alignment`. -/
def align? (c : Cursor) (alignment : Nat) : Option Cursor :=
  c.advance? (padding alignment c.pos)

def peek? (c : Cursor) : Option UInt8 := c.data[c.pos]?

/-- The next `count` bytes, and the cursor behind them. -/
def take? (c : Cursor) (count : Nat) : Option (Bytes × Cursor) :=
  (c.advance? count).map fun c' => ((c.data.extract c.pos c'.pos).toList, c')

/-- The next field, and the cursor behind it. -/
def read? (α : Type) [FixedWidth α] (c : Cursor) : Option (α × Cursor) :=
  (c.take? (FixedWidth.width α)).map fun (bs, c') => (FixedWidth.ofBytes bs, c')

/-! ## The view -/

@[simp] theorem rest_ofBytes (bs : Bytes) : (ofBytes bs).rest = bs := by
  simp [ofBytes, rest]

@[simp] theorem length_rest (c : Cursor) : c.rest.length = c.remaining := by
  simp [rest, remaining]

theorem hasMore_eq (c : Cursor) : c.hasMore = !c.rest.isEmpty := by
  by_cases h : c.pos < c.data.size
  · simp [hasMore, rest, h]
  · simp [hasMore, rest, h, Nat.le_of_not_lt h]

/-- **Bytes are taken from the front of the rest**, whenever it is long enough. -/
theorem take?_eq (c : Cursor) (count : Nat) (inside : c.pos ≤ c.data.size) :
    c.take? count = if count ≤ c.remaining
      then some (c.rest.take count, { c with pos := c.pos + count }) else none := by
  have h : c.pos + count ≤ c.data.size ↔ count ≤ c.remaining := by
    simp only [remaining]; omega
  by_cases hc : count ≤ c.remaining
  · have hp := h.mpr hc
    simp [take?, advance?, seek?, hp, hc, rest, List.extract_eq_take_drop]
  · have hp : ¬ c.pos + count ≤ c.data.size := fun hp => hc (h.mp hp)
    simp [take?, advance?, seek?, hp, hc]

end Cursor

end CilProbes
