import CilProbes.Bytes.LittleEndian

/-! # Buffers

A buffer is a byte string of fixed length with an offset at which the next field goes. A field
that does not fit is refused and changes nothing; a sequence of fields is written up to the
first that does not fit, so a refused sequence leaves its leading fields behind.

* `put?`: one field.
* `putAll`: a sequence of fields, and whether all of them went in.
* `fitting_eq`: fields that fit all go in.
-/

namespace CilProbes

/-- A byte string that is written field by field. -/
structure Buffer where
  data : Bytes
  /-- Where the next field goes. -/
  offset : Nat
deriving DecidableEq, Repr

namespace Buffer

/-- Replaces the bytes of `data` at `offset` by `field`. -/
def overwrite (data : Bytes) (offset : Nat) (field : Bytes) : Bytes :=
  data.take offset ++ field ++ data.drop (offset + field.length)

/-- The buffer with a field written at the offset, which moves behind it. -/
def put? (b : Buffer) (field : Bytes) : Option Buffer :=
  if b.offset + field.length ≤ b.data.length
  then some ⟨overwrite b.data b.offset field, b.offset + field.length⟩
  else none

/-- The bytes of the leading fields that fit into `room` bytes, and whether these are all. -/
def fitting : (room : Nat) → List Bytes → Bytes × Bool
  | _, [] => ([], true)
  | room, f :: fs =>
    if f.length ≤ room
    then let (bs, all) := fitting (room - f.length) fs; (f ++ bs, all)
    else ([], false)

/-- Writes the leading fields that fit, and tells whether these are all. -/
def putAll (b : Buffer) (fields : List Bytes) : Buffer × Bool :=
  if b.offset ≤ b.data.length then
    let (bs, all) := fitting (b.data.length - b.offset) fields
    (⟨overwrite b.data b.offset bs, b.offset + bs.length⟩, all)
  else (b, fields.isEmpty)

/-- The next field of a buffer that is read, and the buffer with the offset behind it. -/
def get? (α : Type) [FixedWidth α] (b : Buffer) : Option (α × Buffer) :=
  if b.offset + FixedWidth.width α ≤ b.data.length
  then some (FixedWidth.ofBytes ((b.data.drop b.offset).take (FixedWidth.width α)),
    { b with offset := b.offset + FixedWidth.width α })
  else none

/-- **Fields that fit all go in.** -/
theorem fitting_eq {room : Nat} {fields : List Bytes} (h : fields.flatten.length ≤ room) :
    fitting room fields = (fields.flatten, true) := by
  induction fields generalizing room with
  | nil => rfl
  | cons f fs ih =>
    simp only [List.flatten_cons, List.length_append] at h
    have hf : f.length ≤ room := by omega
    have hfs : fs.flatten.length ≤ room - f.length := by omega
    simp [fitting, hf, ih hfs]

theorem length_overwrite {data field : Bytes} {offset : Nat}
    (h : offset + field.length ≤ data.length) :
    (overwrite data offset field).length = data.length := by
  simp only [overwrite, List.length_append, List.length_take, List.length_drop]
  omega

end Buffer

end CilProbes
