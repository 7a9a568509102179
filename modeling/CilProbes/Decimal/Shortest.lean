/-! # Shortest decimals

A binary floating-point number stands for an interval of reals: those that round to it. This
module picks, of all decimals in that interval, one with the fewest digits, and of those the one
nearest to the number itself; of two equally near ones it picks the larger.

The number is given exactly, as `mantissa * 2 ^ exponent`, and all comparisons are between natural
numbers.

* `Dyadic.readsBack`: the interval, ends included when the mantissa is even.
* `Dyadic.shortest`: the digits picked.
-/

namespace CilProbes.Decimal

/-- A positive number `mantissa * 2 ^ exponent`, as a floating-point format holds it. -/
structure Dyadic where
  mantissa : Nat
  /-- The power of two. -/
  exponent : Int
  /-- Whether the next number below is only half as far away as the next one above. -/
  narrowBelow : Bool
deriving DecidableEq, Repr

/-- The decimal `digits * 10 ^ exponent`. -/
structure Digits where
  /-- The digits, read as one number. -/
  digits : Nat
  /-- The power of ten. -/
  exponent : Int
deriving DecidableEq, Repr

def twos (n : Nat) : Nat := Nat.pow 2 n

def tens (n : Nat) : Nat := Nat.pow 10 n

/-- Compares `a * 10 ^ i` with `n * 2 ^ j`. -/
def compareScaled (a : Nat) (i : Int) (n : Nat) (j : Int) : Ordering :=
  compare (a * tens i.toNat * twos (-j).toNat) (n * twos j.toNat * tens (-i).toNat)

namespace Dyadic

/-- **The reals that round to `x`**: up to halfway to the neighbours, and that far exactly when
the mantissa is even. -/
def readsBack (x : Dyadic) (d : Digits) : Bool :=
  let low := if x.narrowBelow then 4 * x.mantissa - 1 else 4 * x.mantissa - 2
  let atLow := compareScaled d.digits d.exponent low (x.exponent - 2)
  let atHigh := compareScaled d.digits d.exponent (4 * x.mantissa + 2) (x.exponent - 2)
  let even := x.mantissa % 2 == 0
  (atLow == .gt || (even && atLow == .eq)) && (atHigh == .lt || (even && atHigh == .eq))

/-- The greatest point of the grid of step `10 ^ e` that is not above `x`, in steps. -/
def floorOn (x : Dyadic) (e : Int) : Nat :=
  (x.mantissa * twos x.exponent.toNat * tens (-e).toNat)
    / (twos (-x.exponent).toNat * tens e.toNat)

/-- Of the two grid points around `x`, the one in the interval; of two the nearer, and of two
equally near ones the upper. -/
def candidate? (x : Dyadic) (e : Int) : Option Digits :=
  let below : Digits := ⟨x.floorOn e, e⟩
  let above : Digits := ⟨x.floorOn e + 1, e⟩
  match x.readsBack below, x.readsBack above with
  | true, true =>
    -- twice the number against the sum of the two points
    if compareScaled (below.digits + above.digits) e x.mantissa (x.exponent + 1) == .gt
    then some below else some above
  | true, false => some below
  | false, true => some above
  | false, false => none

/-- Tries the grids of one digit, two digits and so on, below `10 ^ top`. -/
def search (x : Dyadic) (top : Int) : (tries : Nat) → (digits : Nat) → Option Digits
  | 0, _ => none
  | tries + 1, digits =>
    match x.candidate? (top - digits) with
    | some d => some d
    | none => search x top tries (digits + 1)

/-- Moves an estimate of the decimal exponent up until `x < 10 ^ k`. -/
def raise (x : Dyadic) : (tries : Nat) → Int → Int
  | 0, k => k
  | tries + 1, k =>
    if compareScaled 1 k x.mantissa x.exponent == .gt then k else raise x tries (k + 1)

/-- The least power of ten above `x`. The binary logarithm gives an estimate from below. -/
def magnitude (x : Dyadic) : Int :=
  raise x 4 (((x.mantissa.log2 : Int) + x.exponent) * 30102 / 100000 - 1)

/-- The exact value of `x`, for the case that no short decimal is found. -/
def exact (x : Dyadic) : Digits :=
  ⟨x.mantissa * twos x.exponent.toNat * Nat.pow 5 (-x.exponent).toNat, -(-x.exponent).toNat⟩

/-- **The shortest decimal** that rounds to `x`. -/
def shortest (x : Dyadic) : Digits :=
  (x.search x.magnitude 20 1).getD x.exact

end Dyadic

/-- Drops trailing zeros from the digits into the exponent. -/
def Digits.strip (d : Digits) : (tries : Nat) → Digits
  | 0 => d
  | tries + 1 =>
    if d.digits % 10 = 0 ∧ d.digits ≠ 0
    then Digits.strip ⟨d.digits / 10, d.exponent + 1⟩ tries else d

/-- Positional notation without an exponent: zeros fill the gap to the decimal point, and an
integral value has no point. -/
def Digits.positional (d : Digits) : List Char :=
  let ds := Nat.toDigits 10 d.digits
  if d.exponent ≥ 0 then ds ++ List.replicate d.exponent.toNat '0'
  else
    let places := (-d.exponent).toNat
    if places < ds.length then
      ds.take (ds.length - places) ++ '.' :: ds.drop (ds.length - places)
    else '0' :: '.' :: (List.replicate (places - ds.length) '0' ++ ds)

end CilProbes.Decimal
