import CilProbes.Bytes.LittleEndian
import CilProbes.Text.Hex

/-! # Metadata tokens

A token names a row of a metadata table: the table in its high byte, the row in the other three.
Operands, locals signatures, catch types and the probe targets themselves are tokens.

* `ofParts`: the token of a row; row numbers are cut to 24 bits.
* `kind?`: the table, if it is one that instrumentation refers to.
* `nonNull?`: the nil token stands for "none".
-/

namespace CilProbes

/-- A metadata token. -/
structure Token where
  /-- Table and row, packed into 32 bits. -/
  value : UInt32
deriving DecidableEq, Repr, Inhabited

/-- The metadata tables that instrumentation refers to. -/
inductive TokenKind where
  /-- A type declared outside the module. -/
  | typeRef
  /-- A type declared in the module. -/
  | typeDef
  /-- A field, such as the halves of a correlation id. -/
  | field
  /-- A method declared in the module. -/
  | methodDef
  /-- A method or field declared outside the module. -/
  | memberRef
  /-- A signature of an indirect call or of locals. -/
  | standAloneSig
  /-- A generic type. -/
  | typeSpec
deriving DecidableEq, Repr

namespace TokenKind

def table : TokenKind → UInt8
  | typeRef => 0x01
  | typeDef => 0x02
  | field => 0x04
  | methodDef => 0x06
  | memberRef => 0x0A
  | standAloneSig => 0x11
  | typeSpec => 0x1B

def all : List TokenKind :=
  [typeRef, typeDef, field, methodDef, memberRef, standAloneSig, typeSpec]

/-- The kind with a given table number. -/
def ofTable? (n : UInt8) : Option TokenKind := all.find? (·.table == n)

theorem ofTable?_table (k : TokenKind) : ofTable? k.table = some k := by
  cases k <;> rfl

end TokenKind

namespace Token

def null : Token := ⟨0⟩

/-- The token of a row, of which the low 24 bits count. -/
def ofParts (kind : TokenKind) (row : UInt32) : Token :=
  ⟨(kind.table.toUInt32 <<< 24) ||| (row &&& 0x00FFFFFF)⟩

def table (t : Token) : UInt8 := (t.value >>> 24).toUInt8

def row (t : Token) : UInt32 := t.value &&& 0x00FFFFFF

/-- The table, if it is a known one. -/
def kind? (t : Token) : Option TokenKind := TokenKind.ofTable? t.table

/-- Whether this is the nil token. -/
def isNull (t : Token) : Bool := t.value == 0

/-- The token, unless it is nil. -/
def nonNull? (t : Token) : Option Token := if t.isNull then none else some t

/-- Eight hexadecimal digits. -/
def text (t : Token) : String := "0x" ++ Hex.lower 8 t.value.toNat

/-- The digits together with the parts. -/
def describe (t : Token) : String :=
  "Token(" ++ t.text ++ ", table: 0x" ++ Hex.lower 2 t.table.toNat ++ ", row: "
    ++ toString t.row.toNat ++ ")"

instance : FixedWidth Token := .along value mk (fun _ => rfl) fun _ => rfl

end Token

end CilProbes
