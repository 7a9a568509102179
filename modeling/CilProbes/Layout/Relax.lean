/-! # Branch relaxation

Code is a row of pieces: some have a fixed size, the others are branches, which take two bytes
when their target is near and five otherwise. Widening one branch moves all pieces behind it, so
others may have to be widened too. The row starts with every branch short; every short branch that
does not reach its target is widened, until all reach.

* `place`: the offsets of the pieces, as running sums of their sizes.
* `isCramped`: a short branch that does not reach its target.
* `settle`: widens until no branch is cramped. Branches only ever widen, so one try for each
  branch is enough.
-/

namespace CilProbes.Relax

/-- A piece of code. -/
inductive Piece where
  | fixed (size : Nat)
  /-- A branch to the start of the piece at a place. -/
  | branch (dest : Nat)
deriving DecidableEq, Repr

/-- A piece together with the form it has at present. -/
structure Slot where
  piece : Piece
  /-- Whether it is in the long form. -/
  long : Bool
deriving DecidableEq, Repr

def shortSize : Nat := 2

def longSize : Nat := 5

/-- The greatest size of code, up to which every displacement fits 32 bits. -/
def codeLimit : Nat := 0x7FFFFFFF

def Slot.size (s : Slot) : Nat :=
  match s.piece with
  | .fixed n => n
  | .branch _ => if s.long then longSize else shortSize

/-- Enters the offsets of the slots behind those already placed. -/
def placeFrom (placed : Array Nat) (next : Nat) : List Slot → Array Nat × Nat
  | [] => (placed, next)
  | s :: ss => placeFrom (placed.push next) (next + s.size) ss

/-- **The offsets of the slots**, and the offset behind the last. -/
def place (slots : List Slot) : Array Nat × Nat := placeFrom #[] 0 slots

/-- Whether a displacement fits a signed byte. -/
def reachesShort (displacement : Int) : Bool := -128 ≤ displacement && displacement ≤ 127

/-- Whether a displacement fits four signed bytes. -/
def reachesLong (displacement : Int) : Bool :=
  -0x80000000 ≤ displacement && displacement ≤ 0x7FFFFFFF

/-- How far a target is from the end of a branch of a given size. -/
def displacement (offsets : Array Nat) (source size dest : Nat) : Int :=
  (offsets[dest]?.getD 0 : Int) - ((offsets[source]?.getD 0 : Int) + size)

/-- **A short branch that does not reach its target.** -/
def isCramped (offsets : Array Nat) (source : Nat) (s : Slot) : Bool :=
  match s.piece with
  | .fixed _ => false
  | .branch dest => !s.long && !reachesShort (displacement offsets source shortSize dest)

def widen (offsets : Array Nat) (slots : List Slot) : List Slot :=
  slots.mapIdx fun source s => if isCramped offsets source s then { s with long := true } else s

/-- Whether any branch is cramped. -/
def anyCramped (offsets : Array Nat) (slots : List Slot) : Bool :=
  slots.zipIdx.any fun (s, source) => isCramped offsets source s

/-- Widens until no branch is cramped; the size of the code when it exceeds the limit. -/
def settle : (tries : Nat) → List Slot → Except Nat (List Slot)
  | tries, slots =>
    let (offsets, total) := place slots
    if codeLimit < total then .error total
    else
      match tries with
      | 0 => .ok slots
      | tries + 1 =>
        if anyCramped offsets slots then settle tries (widen offsets slots) else .ok slots

/-- Whether a piece is a branch. -/
def Piece.isBranch : Piece → Bool
  | .fixed _ => false
  | .branch _ => true

/-- **The forms of a row of pieces**, from all short to the first in which every branch
reaches. -/
def solve (pieces : List Piece) : Except Nat (List Slot) :=
  settle (pieces.countP (·.isBranch)) (pieces.map fun p => ⟨p, false⟩)

end CilProbes.Relax
