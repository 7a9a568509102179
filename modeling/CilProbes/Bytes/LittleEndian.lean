/-! # Little-endian fields

Every number of a method body stands in it with its least significant byte first. `LittleEndian`
turns a natural number into a given count of bytes and back; `FixedWidth` is the class of the
types that stand in a body as such a number.

* `decode_encode`: reading back gives the number, reduced to the width.
* `ofBytes_toBytes`, `toBytes_ofBytes`: fields and byte strings of their width correspond.
* `ofWord`, `along`: machine words stand in a body, and what is kept in them does as they do.
-/

namespace CilProbes

abbrev Bytes := List UInt8

namespace LittleEndian

/-- The `width` low bytes of `n`, least significant first. -/
def encode : (width : Nat) → (n : Nat) → Bytes
  | 0, _ => []
  | width + 1, n => UInt8.ofNat n :: encode width (n / 256)

/-- How many numbers can be told apart by a given count of bytes. -/
def capacity : (width : Nat) → Nat
  | 0 => 1
  | width + 1 => 256 * capacity width

theorem capacity_pos (width : Nat) : 0 < capacity width := by
  induction width with
  | zero => exact Nat.one_pos
  | succ width ih => exact Nat.mul_pos (by decide) ih

/-- The number with the given bytes, least significant first. -/
def decode : Bytes → Nat
  | [] => 0
  | b :: bs => b.toNat + 256 * decode bs

@[simp] theorem length_encode (width n : Nat) : (encode width n).length = width := by
  induction width generalizing n with
  | zero => rfl
  | succ width ih => simp [encode, ih]

theorem decode_lt (bs : Bytes) : decode bs < capacity bs.length := by
  induction bs with
  | nil => exact Nat.one_pos
  | cons b bs ih =>
    have := b.toNat_lt
    simp only [decode, List.length_cons, capacity]
    omega

/-- **Reading back** gives the number, reduced to the width. -/
theorem decode_encode (width n : Nat) : decode (encode width n) = n % capacity width := by
  induction width generalizing n with
  | zero => simp [encode, decode, capacity, Nat.mod_one]
  | succ width ih =>
    simp only [encode, decode, capacity, ih, UInt8.toNat_ofNat']
    exact Nat.mod_mul.symm

theorem encode_decode (bs : Bytes) : encode bs.length (decode bs) = bs := by
  induction bs with
  | nil => rfl
  | cons b bs ih =>
    have hb := b.toNat_lt
    have h1 : UInt8.ofNat (b.toNat + 256 * decode bs) = b := by
      apply UInt8.toNat_inj.mp
      rw [UInt8.toNat_ofNat']
      omega
    have h2 : (b.toNat + 256 * decode bs) / 256 = decode bs := by omega
    simp only [List.length_cons, decode, encode, h1, h2, ih]

end LittleEndian

/-- The types that stand in a body as a little-endian number of a fixed count of bytes. -/
class FixedWidth (α : Type) where
  width : Nat
  toNat : α → Nat
  ofNat : Nat → α
  toNat_lt : ∀ a, toNat a < LittleEndian.capacity width
  ofNat_toNat : ∀ a, ofNat (toNat a) = a
  toNat_ofNat : ∀ n, n < LittleEndian.capacity width → toNat (ofNat n) = n

namespace FixedWidth

variable {α : Type} [FixedWidth α]

def toBytes (a : α) : Bytes := LittleEndian.encode (width α) (toNat a)

/-- The value of a byte string of the right length. -/
def ofBytes (bs : Bytes) : α := ofNat (LittleEndian.decode bs)

@[simp] theorem length_toBytes (a : α) : (toBytes a).length = width α :=
  LittleEndian.length_encode _ _

/-- **A value is read back from its bytes.** -/
@[simp] theorem ofBytes_toBytes (a : α) : ofBytes (toBytes a) = a := by
  rw [ofBytes, toBytes, LittleEndian.decode_encode, Nat.mod_eq_of_lt (toNat_lt a), ofNat_toNat]

/-- **Every byte string of the right length is the bytes of a value.** -/
theorem toBytes_ofBytes {bs : Bytes} (h : bs.length = width α) :
    toBytes (ofBytes bs : α) = bs := by
  have hd : LittleEndian.decode bs < LittleEndian.capacity (width α) :=
    h ▸ LittleEndian.decode_lt bs
  rw [toBytes, ofBytes, toNat_ofNat _ hd, ← h, LittleEndian.encode_decode]

/-! ## Words and what is kept in them -/

/-- A word of a number of bytes, which keeps of a number what the bytes hold. -/
@[reducible] def ofWord {ω : Type} (width : Nat) (number : ω → Nat) (word : Nat → ω)
    (word_number : ∀ w, word (number w) = w)
    (number_word : ∀ n, number (word n) = n % LittleEndian.capacity width) : FixedWidth ω where
  width := width
  toNat := number
  ofNat := word
  toNat_lt w := by
    rw [← word_number w, number_word]
    exact Nat.mod_lt _ (LittleEndian.capacity_pos width)
  ofNat_toNat := word_number
  toNat_ofNat n h := by rw [number_word, Nat.mod_eq_of_lt h]

/-- The values that are kept in those of another type, by a pair of inverse functions. -/
@[reducible] def along {β : Type} (into : β → α) (back : α → β) (back_into : ∀ b, back (into b) = b)
    (into_back : ∀ a, into (back a) = a) : FixedWidth β where
  width := width α
  toNat b := toNat (into b)
  ofNat n := back (ofNat n)
  toNat_lt b := toNat_lt (into b)
  ofNat_toNat b := by rw [ofNat_toNat, back_into]
  toNat_ofNat n h := by rw [into_back, toNat_ofNat n h]

instance : FixedWidth UInt8 :=
  ofWord 1 UInt8.toNat UInt8.ofNat (fun _ => UInt8.ofNat_toNat) fun _ => UInt8.toNat_ofNat'

instance : FixedWidth UInt16 :=
  ofWord 2 UInt16.toNat UInt16.ofNat (fun _ => UInt16.ofNat_toNat) fun _ => UInt16.toNat_ofNat'

instance : FixedWidth UInt32 :=
  ofWord 4 UInt32.toNat UInt32.ofNat (fun _ => UInt32.ofNat_toNat) fun _ => UInt32.toNat_ofNat'

instance : FixedWidth UInt64 :=
  ofWord 8 UInt64.toNat UInt64.ofNat (fun _ => UInt64.ofNat_toNat) fun _ => UInt64.toNat_ofNat'

instance : FixedWidth Int8 :=
  along Int8.toUInt8 UInt8.toInt8 Int8.toInt8_toUInt8 UInt8.toUInt8_toInt8

instance : FixedWidth Int16 :=
  along Int16.toUInt16 UInt16.toInt16 Int16.toInt16_toUInt16 UInt16.toUInt16_toInt16

instance : FixedWidth Int32 :=
  along Int32.toUInt32 UInt32.toInt32 Int32.toInt32_toUInt32 UInt32.toUInt32_toInt32

instance : FixedWidth Int64 :=
  along Int64.toUInt64 UInt64.toInt64 Int64.toInt64_toUInt64 UInt64.toUInt64_toInt64

end FixedWidth

end CilProbes
