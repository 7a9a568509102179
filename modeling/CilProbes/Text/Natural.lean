/-! # Natural numbers in text

Decimal digits, with a plus sign in front if need be, for numbers below a bound.

* `parse`: the number, or why there is none.
* `NumeralFault.message`: the reason in words.
-/

namespace CilProbes

/-- Why a text is no number below the bound. -/
inductive NumeralFault where
  /-- There is no text. -/
  | empty
  /-- Something else than a digit stands where a digit should, or no digit does. -/
  | invalidDigit
  | tooLarge
deriving DecidableEq, Repr

def NumeralFault.message : NumeralFault → String
  | empty => "cannot parse integer from empty string"
  | invalidDigit => "invalid digit found in string"
  | tooLarge => "number too large to fit in target type"

namespace Numeral

def digit? (c : Char) : Option Nat :=
  if '0' ≤ c ∧ c ≤ '9' then some (c.toNat - '0'.toNat) else none

/-- Appends digits to a number. The fault met first counts, be it a character that is no digit or
a digit with which the number reaches the bound. -/
def extend (bound : Nat) (n : Nat) : List Char → Except NumeralFault Nat
  | [] => .ok n
  | c :: cs =>
    match digit? c with
    | none => .error .invalidDigit
    | some d => if 10 * n + d < bound then extend bound (10 * n + d) cs else .error .tooLarge

/-- **The number that a text denotes**, if it is below the bound. -/
def parse (bound : Nat) : List Char → Except NumeralFault Nat
  | [] => .error .empty
  | '+' :: cs => if cs.isEmpty then .error .invalidDigit else extend bound 0 cs
  | cs => extend bound 0 cs

end Numeral

end CilProbes
