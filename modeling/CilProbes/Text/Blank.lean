/-! # Blank characters

The characters that count as white space in Unicode, and text without them at its ends.

* `isBlank`: the class.
* `trim`: drops blanks at both ends.
-/

namespace CilProbes.Blank

/-- The blank characters, by code point. -/
def codePoints : List (Nat × Nat) :=
  [(0x09, 0x0D), (0x20, 0x20), (0x85, 0x85), (0xA0, 0xA0), (0x1680, 0x1680), (0x2000, 0x200A),
    (0x2028, 0x2029), (0x202F, 0x202F), (0x205F, 0x205F), (0x3000, 0x3000)]

/-- Whether a character is blank. -/
def isBlank (c : Char) : Bool :=
  codePoints.any fun (first, last) => first ≤ c.toNat && c.toNat ≤ last

/-- The text without blanks at its start. -/
def trimStart (cs : List Char) : List Char := cs.dropWhile isBlank

/-- The text without blanks at either end. -/
def trim (cs : List Char) : List Char := (trimStart (trimStart cs).reverse).reverse

end CilProbes.Blank
