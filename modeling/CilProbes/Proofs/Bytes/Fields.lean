import CilProbes.Proofs.Bytes.Operations
import CilProbes.Proofs.Writing.Chain

/-!
# Fields in buffers

A value is written at the offset of a buffer, whatever the offset, and read back from there.

* `get?_eq_read?`: reading from a buffer is reading at a cursor with the same offset.
* `Buffer.Stores`: a buffer in which another one has taken a value.
* `Buffer.Accepts`: a value is taken if and only if there is room for it.
* `operations_stay_inside`: cursors and buffers in one statement.
-/

namespace CilProbes

open FixedWidth

variable {α : Type} [FixedWidth α]

namespace Buffer

/-- The cursor that stands at the offset. -/
def cursor (b : Buffer) : Cursor := ⟨b.data.toArray, b.offset⟩

/-- **Reading from a buffer** is reading at a cursor, and moves the offset as far. -/
theorem get?_eq_read? (b : Buffer) : b.get? α
    = (b.cursor.read? α).map fun (a, c) => (a, { b with offset := c.pos }) := by
  unfold get? Cursor.read?
  by_cases room : b.offset + width α ≤ b.data.length
  · rw [if_pos room, Cursor.take?_of_le (show b.cursor.pos + _ ≤ b.cursor.data.size from room)]
    rfl
  · have past : b.cursor.data.size < b.cursor.pos + width α := Nat.not_le.1 room
    rw [if_neg room, Cursor.take?_of_gt past]
    rfl

/-- **The buffer `b'` is `b` with a value taken at its offset**: no other byte has changed, and
reading at the old offset gives the value and the new offset, from the buffer and by a cursor. -/
structure Stores (b : Buffer) (a : α) (b' : Buffer) : Prop where
  offset : b'.offset = b.offset + width α
  others : AgreesOutside b.offset (width α) b.data b'.data
  read : { b' with offset := b.offset }.get? α = some (a, b')
  seen : (Cursor.Op.field α).reader.runAt ⟨b'.data.toArray, b.offset⟩ = (.ok a, b'.cursor)

/-- **A buffer accepts a value exactly**: it is refused, and nothing changes, if and only if it
would end behind the buffer. With offsets on words of `w` bits that is where the sum of offset and
width overflows, or exceeds the buffer. -/
structure Accepts (b : Buffer) (a : α) : Prop where
  refused : Writing.field (toBytes a) b = (.error .outOfBounds, b) ↔
    b.data.length < b.offset + width α
  overflow : ∀ w, b.data.length < 2 ^ w → b.offset < 2 ^ w → width α < 2 ^ w →
    (Writing.field (toBytes a) b = (.error .outOfBounds, b) ↔
      Word.sum? (.ofNat w b.offset) (.ofNat w (width α)) = none ∨
        b.data.length < b.offset + width α)
  done : b.offset + width α ≤ b.data.length →
    ∃ b', Writing.field (toBytes a) b = (.ok (), b') ∧ b.Stores a b'

variable {a : α} {b b' : Buffer}

/-- What is written stands at the offset. -/
theorem take_drop_overwrite {data field : Bytes} {offset : Nat} (h : offset ≤ data.length) :
    ((overwrite data offset field).drop offset).take field.length = field := by
  unfold overwrite
  rw [List.append_assoc, List.drop_left' (List.length_take_of_le h), List.take_left]

/-- **A value that fits is stored**, with any bytes around it. -/
theorem stores_overwrite (room : b.offset + width α ≤ b.data.length) :
    b.Stores a ⟨overwrite b.data b.offset (toBytes a), b.offset + width α⟩ := by
  have fits : b.offset + (toBytes a).length ≤ b.data.length := by rwa [length_toBytes]
  let c : Cursor := ⟨(overwrite b.data b.offset (toBytes a)).toArray, b.offset⟩
  have size : c.data.size = b.data.length := length_overwrite fits
  have stands : c.rest.take (width α) = toBytes a := by
    rw [← length_toBytes a]
    exact take_drop_overwrite (Nat.le_of_add_right_le room)
  have read : c.read? α = some (a, c.skip (width α)) := by
    rw [Cursor.read?, Cursor.take?_of_le (size ▸ room), stands]
    exact congrArg (fun a => some (a, c.skip (width α))) (ofBytes_toBytes a)
  refine ⟨rfl, agreesOutside_overwrite fits (Nat.le_of_eq (length_toBytes a)), ?_, ?_⟩
  · rw [get?_eq_read?]
    show (c.read? α).map _ = _
    rw [read]
    rfl
  · show (Reader.step (Cursor.read? α) .outOfBounds).runAt c = _
    rw [Reader.runAt_step, read]
    rfl

theorem put?_of_le (room : b.offset + width α ≤ b.data.length) : b.put? (toBytes a)
    = some ⟨overwrite b.data b.offset (toBytes a), b.offset + width α⟩ := by
  rw [put?, length_toBytes, if_pos room]

theorem put?_of_gt (past : b.data.length < b.offset + width α) : b.put? (toBytes a) = none := by
  rw [put?, length_toBytes, if_neg (Nat.not_le.2 past)]

/-- **Every buffer accepts every value exactly.** -/
theorem accepts (b : Buffer) (a : α) : b.Accepts a := by
  have refused : Writing.field (toBytes a) b = (.error .outOfBounds, b) ↔
      b.data.length < b.offset + width α := by
    unfold Writing.field
    by_cases room : b.offset + width α ≤ b.data.length
    · rw [put?_of_le room]
      exact ⟨nofun, fun past => absurd room (Nat.not_le.2 past)⟩
    · rw [put?_of_gt (Nat.not_le.1 room)]
      exact ⟨fun _ => Nat.not_le.1 room, fun _ => rfl⟩
  refine ⟨refused, fun w numbered offset wide => ?_, fun room => ⟨_, ?_, stores_overwrite room⟩⟩
  · rw [refused, Word.sum?_eq_none, BitVec.toNat_ofNat, BitVec.toNat_ofNat,
      Nat.mod_eq_of_lt offset, Nat.mod_eq_of_lt wide]
    omega
  · unfold Writing.field
    rw [put?_of_le room]

end Buffer

/-- **Cursors and buffers stay inside their bytes and lose none.** Behind any operations, whatever
their arguments and whichever of them have been refused, a cursor is inside the bytes that it
started with, and every further operation is exact there; words that can number the bytes are as
good as unbounded numbers for what it computes. A value of any field type is written at any offset
of any buffer exactly, and read back. -/
theorem operations_stay_inside :
    (∀ (data : Bytes) (ops : List (Σ α, Cursor.Op α)),
      let c := (Cursor.ofBytes data).after ops
      c.data = data.toArray ∧ c.pos ≤ data.length ∧
      (∀ (α : Type) (op : Cursor.Op α), ∃ reach, op.ExactAt c reach) ∧
      ∀ w, data.length < 2 ^ w → c.WordsSuffice w) ∧
    ∀ (α : Type) [FixedWidth α] (a : α) (b : Buffer), b.Accepts a := by
  refine ⟨fun data ops => ?_, fun α _ a b => b.accepts a⟩
  obtain ⟨same, inside⟩ := Cursor.after_inside ops (Cursor.inside_ofBytes data)
  have size : ((Cursor.ofBytes data).after ops).data.size = data.length := by
    rw [same]
    rfl
  exact ⟨same, size ▸ inside, fun α op => op.exactAt _,
    fun w numbered => Cursor.wordsSuffice inside (size.symm ▸ numbered)⟩

/-- Five bytes under a field, two operations that are refused, and an alignment. Two bytes more
would then be one too many, the last byte is still shown, and on words of three bits six bytes more
overflow. Minus two is stored behind the first byte; at offset seven, where the words overflow
again, it is refused. -/
theorem operations_stay_inside_fiveBytes :
    let data : Bytes := [0x34, 0x12, 0xCC, 0xCC, 0x05]
    let ops : List (Σ α, Cursor.Op α) :=
      [⟨_, .field UInt16⟩, ⟨_, .advance 9⟩, ⟨_, .seek 6⟩, ⟨_, .align 4 (by decide)⟩]
    let c := (Cursor.ofBytes data).after ops
    let minusTwo : Bytes := toBytes (-2 : Int16)
    let stored : Buffer := ⟨[0x34, 0xFE, 0xFF, 0xCC, 0x05], 3⟩
    c = ⟨data.toArray, 4⟩ ∧ c.pos ≤ data.length ∧
    (c.data.size < c.pos + 2 ∧
      (Cursor.Op.field Int16).reader.runAt c = (.error .outOfBounds, c)) ∧
    (c.pos + 1 ≤ c.data.size ∧
      ∃ byte, data[4]? = some byte ∧ Cursor.Op.peek.reader.runAt c = (.ok byte, c)) ∧
    (data.length < 2 ^ 3 ∧ c.advance? 6 = none) ∧
    (1 + 2 ≤ data.length ∧ Writing.field minusTwo ⟨data, 1⟩ = (.ok (), stored) ∧
      Buffer.Stores ⟨data, 1⟩ (-2 : Int16) stored) ∧
    (7 < 2 ^ 3 ∧ Writing.field minusTwo ⟨data, 7⟩ = (.error .outOfBounds, ⟨data, 7⟩)) := by
  intro data ops c minusTwo stored
  obtain ⟨cursors, buffers⟩ := operations_stay_inside
  obtain ⟨-, inside, exactly, words⟩ := cursors data ops
  have behind : (Cursor.ofBytes data).after ops = ⟨data.toArray, 4⟩ := by rfl
  rw [behind] at inside exactly words
  rw [show c = ⟨data.toArray, 4⟩ from behind]
  obtain ⟨_, field⟩ := exactly Int16 (.field Int16)
  cases field.reaches
  obtain ⟨_, peek⟩ := exactly UInt8 .peek
  cases peek.reaches
  have overflow := (words 3 (by decide)).sums 6
  obtain ⟨b, written, stores⟩ := (buffers Int16 (-2) ⟨data, 1⟩).done (by decide)
  have run : Writing.field minusTwo ⟨data, 1⟩ = (.ok (), stored) := by rfl
  cases run.symm.trans written
  have refused : Writing.field minusTwo ⟨data, 7⟩ = (.error .outOfBounds, ⟨data, 7⟩) :=
    ((buffers Int16 (-2) ⟨data, 7⟩).overflow 3 (by decide) (by decide) (by decide)).2
      (.inl (by decide))
  exact ⟨rfl, inside, ⟨by decide, field.refused.2 (by decide)⟩,
    ⟨by decide, peek.done (by decide)⟩, ⟨by decide, overflow⟩, ⟨by decide, run, stores⟩,
    by decide, refused⟩

end CilProbes
