/-! # Hexadecimal text

Numbers in base sixteen, padded on the left with zeros to a least width. Offsets are written in
lower case (`IL_001a`), opcode bytes and wide constants in upper case.

* `lower`, `upper`: the padded digits.
* `ofDigits?`: reads digits of either case back.
-/

namespace CilProbes.Hex

/-- The digits of `n`, most significant first, at least `width` of them. -/
def digits (width n : Nat) : List Char :=
  (Nat.toDigits 16 n).leftpad width '0'

/-- Lower-case digits, at least `width` of them. -/
def lower (width n : Nat) : String :=
  String.ofList (digits width n)

/-- Upper-case digits, at least `width` of them. -/
def upper (width n : Nat) : String :=
  String.ofList ((digits width n).map Char.toUpper)

/-- The name of a code offset, with four lower-case digits or more. -/
def label (offset : Nat) : String :=
  "IL_" ++ lower 4 offset

/-- The value of one digit, in either case. -/
def digitValue? (c : Char) : Option Nat :=
  if '0' ≤ c ∧ c ≤ '9' then some (c.toNat - 48)
  else if 'a' ≤ c ∧ c ≤ 'f' then some (c.toNat - 87)
  else if 'A' ≤ c ∧ c ≤ 'F' then some (c.toNat - 55)
  else none

/-- The number written by a list of digits; other characters are refused. -/
def ofDigits? (cs : List Char) : Option Nat :=
  cs.foldlM (fun n c => (digitValue? c).map (16 * n + ·)) 0

end CilProbes.Hex
