import CilProbes.Bytes.LittleEndian
import CilProbes.Decimal.Shortest

/-! # Floating-point constants

A method body holds floating-point constants in the two usual binary formats. They are kept as
bit patterns, so that a constant passes through an edit unchanged whatever it stands for.

* `Layout`: the widths of the two fields below the sign.
* `same`: the equality of numbers, for which the two zeros agree and a NaN differs from itself.
* `text`: the shortest positional decimal that rounds back to the number.
-/

namespace CilProbes

/-- A 32-bit floating-point constant. -/
structure Binary32 where
  bits : UInt32
deriving DecidableEq, Repr, Inhabited

/-- A 64-bit floating-point constant. -/
structure Binary64 where
  bits : UInt64
deriving DecidableEq, Repr, Inhabited

namespace Binary

/-- The two fields below the sign bit of a format. -/
structure Layout where
  fraction : Nat
  exponent : Nat

def single : Layout := ⟨23, 8⟩

def double : Layout := ⟨52, 11⟩

namespace Layout

open Decimal (twos)

variable (l : Layout) (bits : Nat)

def fractionOf : Nat := bits % twos l.fraction

def exponentOf : Nat := bits / twos l.fraction % twos l.exponent

/-- Whether the sign bit is set. -/
def isNegative : Bool := bits / twos (l.fraction + l.exponent) % 2 == 1

/-- Whether the exponent field is all ones: an infinity or a NaN. -/
def isSpecial : Bool := l.exponentOf bits == twos l.exponent - 1

/-- Whether the pattern is a NaN. -/
def isNaN : Bool := l.isSpecial bits && l.fractionOf bits != 0

/-- Whether the pattern is a zero of either sign. -/
def isZero : Bool := l.exponentOf bits == 0 && l.fractionOf bits == 0

/-- The magnitude of a finite pattern. -/
def magnitude : Decimal.Dyadic :=
  let bias : Int := twos (l.exponent - 1) - 1 + l.fraction
  if l.exponentOf bits = 0 then ⟨l.fractionOf bits, 1 - bias, false⟩
  else
    { mantissa := twos l.fraction + l.fractionOf bits
      exponent := l.exponentOf bits - bias
      narrowBelow := l.fractionOf bits == 0 && l.exponentOf bits > 1 }

/-- Equality of numbers: a NaN differs from everything, the zeros agree, and all other patterns
agree with themselves only. -/
def same (a b : Nat) : Bool :=
  !l.isNaN a && !l.isNaN b && (a == b || (l.isZero a && l.isZero b))

/-- The text of a constant: `NaN` without a sign, `inf`, or the shortest decimal. -/
def text : String :=
  if l.isNaN bits then "NaN"
  else
    let magnitude :=
      if l.isSpecial bits then "inf".toList
      else if l.isZero bits then ['0']
      else ((l.magnitude bits).shortest.strip 400).positional
    String.ofList (if l.isNegative bits then '-' :: magnitude else magnitude)

end Layout

end Binary

namespace Binary32

def same (a b : Binary32) : Bool := Binary.single.same a.bits.toNat b.bits.toNat

def text (a : Binary32) : String := Binary.single.text a.bits.toNat

instance : FixedWidth Binary32 := .along bits mk (fun _ => rfl) fun _ => rfl

end Binary32

namespace Binary64

def same (a b : Binary64) : Bool := Binary.double.same a.bits.toNat b.bits.toNat

def text (a : Binary64) : String := Binary.double.text a.bits.toNat

instance : FixedWidth Binary64 := .along bits mk (fun _ => rfl) fun _ => rfl

end Binary64

end CilProbes
