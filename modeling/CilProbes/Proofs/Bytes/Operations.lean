import CilProbes.Proofs.Reading.Safety
import Mathlib.Data.Nat.Digits.Defs
import Mathlib.Order.Bounds.Defs

/-!
# Operations on cursors

A cursor under any operations in any order, some of which may be refused. The reference says for
each operation how far it reaches (`Op.Reaches`) and what it tells (`Op.Tells`), in terms of the
bytes and of the position alone.

* `Op.reader`: an operation as it is carried out.
* `Op.ExactAt`: it is refused if it reaches past the end, and otherwise it does what the reference
  says.
* `Op.exactAt`: every operation is exact at every cursor, also at one that is outside its bytes.
* `ExactAt.keeps`, `after_inside`: one operation, and any number of them, keep a cursor inside.
* `wordsSuffice`: what a cursor computes from its position may be computed on machine words.
-/

namespace CilProbes

/-! ## Numbers -/

namespace LittleEndian

/-- **The value of bytes** has them as its digits, the least significant first. -/
theorem decode_eq_ofDigits (bs : Bytes) : decode bs = Nat.ofDigits 256 (bs.map UInt8.toNat) := by
  induction bs with
  | nil => rfl
  | cons b bs ih => rw [decode, List.map_cons, Nat.ofDigits_cons, ih]

end LittleEndian

theorem FixedWidth.toNat_ofBytes {α : Type} [FixedWidth α] {bs : Bytes}
    (h : bs.length = width α) :
    toNat (ofBytes bs : α) = Nat.ofDigits 256 (bs.map UInt8.toNat) := by
  rw [ofBytes, toNat_ofNat _ (h ▸ LittleEndian.decode_lt bs), LittleEndian.decode_eq_ofDigits]

/-- The sum of two machine words, unless it overflows. -/
def Word.sum? {w : Nat} (a b : BitVec w) : Option (BitVec w) :=
  if a.uaddOverflow b then none else some (a + b)

namespace Word

variable {w : Nat} {a b : BitVec w}

theorem sum?_eq_none : sum? a b = none ↔ 2 ^ w ≤ a.toNat + b.toNat := by
  simp [sum?, BitVec.uaddOverflow]

/-- A sum that does not overflow is that of the numbers. -/
theorem sum?_of_lt (h : a.toNat + b.toNat < 2 ^ w) :
    ∃ c, sum? a b = some c ∧ c.toNat = a.toNat + b.toNat := by
  have fits : ¬ 2 ^ w ≤ a.toNat + b.toNat := Nat.not_le.2 h
  refine ⟨a + b, by simp [sum?, BitVec.uaddOverflow, fits], ?_⟩
  rw [BitVec.toNat_add, Nat.mod_eq_of_lt h]

end Word

namespace Cursor

/-! ## Operations -/

/-- An operation on a cursor, by the type of what it tells. A token is read as a field. -/
inductive Op : Type → Type 1
  | seek (pos : Nat) : Op Unit
  | advance (step : Nat) : Op Unit
  /-- There are no multiples of zero to go to. -/
  | align (alignment : Nat) (nonzero : alignment ≠ 0) : Op Unit
  | field (α : Type) [FixedWidth α] : Op α
  | bytes (count : Nat) : Op Bytes
  | peek : Op UInt8

namespace Op

variable {α : Type}

/-- An operation as it is carried out. -/
def reader : {α : Type} → Op α → Reader α
  | _, seek pos => .move (·.seek? pos) .outOfBounds
  | _, advance step => .move (·.advance? step) .outOfBounds
  | _, align alignment _ => .move (·.align? alignment) .outOfBounds
  | _, field α => .field α .outOfBounds
  | _, bytes count => .step (·.take? count) .outOfBounds
  | _, peek => .step (fun c => c.peek?.map fun b => (b, c)) .outOfBounds

/-- The place to which an operation at place `p` moves, or up to which it reads. -/
def Reaches (p reach : Nat) : {α : Type} → Op α → Prop
  | _, seek pos => reach = pos
  | _, advance step => reach = p + step
  | _, align alignment _ => IsLeast {m | alignment ∣ m ∧ p ≤ m} reach
  | _, field α => reach = p + FixedWidth.width α
  | _, bytes count => reach = p + count
  | _, peek => reach = p + 1

/-- The place behind an operation: a peek reads but does not move. -/
def lands (p reach : Nat) : {α : Type} → Op α → Nat
  | _, peek => p
  | _, _ => reach

/-- What an operation at place `p` tells of the bytes: a field the number that has them as its
little-endian digits, and movements nothing. -/
def Tells (data : Bytes) (p : Nat) : {α : Type} → Op α → α → Prop
  | _, field α, a => FixedWidth.toNat a
      = Nat.ofDigits 256 (((data.drop p).take (FixedWidth.width α)).map UInt8.toNat)
  | _, bytes count, bs => bs = (data.drop p).take count
  | _, peek, b => data[p]? = some b
  | _, seek _, _ | _, advance _, _ | _, align _ _, _ => True

/-- **An operation is exact at a cursor**: it is refused, and leaves the cursor as it is, if and
only if it reaches past the end; otherwise it tells what stands there and moves as far as it
should. -/
structure ExactAt (op : Op α) (c : Cursor) (reach : Nat) : Prop where
  reaches : op.Reaches c.pos reach
  refused : op.reader.runAt c = (.error .outOfBounds, c) ↔ c.data.size < reach
  done : reach ≤ c.data.size → ∃ a, op.Tells c.data.toList c.pos a ∧
    op.reader.runAt c = (.ok a, { c with pos := op.lands c.pos reach })

end Op

/-! ## Single operations -/

variable {α : Type} {c : Cursor} {n : Nat}

/-- Padding leads to the next multiple, and not past it. -/
theorem isLeast_padding {alignment : Nat} (nonzero : alignment ≠ 0) (p : Nat) :
    IsLeast {m | alignment ∣ m ∧ p ≤ m} (p + padding alignment p) := by
  have small : p % alignment < alignment := Nat.mod_lt p (Nat.pos_of_ne_zero nonzero)
  have whole : alignment * (p / alignment) + p % alignment = p := Nat.div_add_mod p alignment
  have divides : alignment ∣ p + padding alignment p := by
    unfold padding
    by_cases aligned : p % alignment = 0
    · rw [aligned, Nat.sub_zero, Nat.mod_self]
      exact Nat.dvd_of_mod_eq_zero aligned
    · rw [Nat.mod_eq_of_lt (by omega)]
      exact ⟨p / alignment + 1, by rw [Nat.mul_add]; omega⟩
  refine ⟨⟨divides, Nat.le_add_right _ _⟩, ?_⟩
  rintro m ⟨multiple, above⟩
  have short : padding alignment p < alignment := Nat.mod_lt _ (Nat.pos_of_ne_zero nonzero)
  -- A multiple in between would be less than the alignment away from the next one.
  by_contra below
  have gap : alignment ∣ p + padding alignment p - m := Nat.dvd_sub divides multiple
  have wide : alignment ≤ p + padding alignment p - m := Nat.le_of_dvd (by omega) gap
  omega

theorem advance?_of_le (h : c.pos + n ≤ c.data.size) : c.advance? n = some (c.skip n) := if_pos h

theorem advance?_of_gt (h : c.data.size < c.pos + n) : c.advance? n = none :=
  if_neg (Nat.not_le.2 h)

theorem take?_of_le (h : c.pos + n ≤ c.data.size) : c.take? n = some (c.rest.take n, c.skip n) := by
  rw [take?_eq c n (by omega), if_pos (by unfold remaining; omega)]
  rfl

theorem take?_of_gt (h : c.data.size < c.pos + n) : c.take? n = none := by
  rw [take?, advance?_of_gt h]
  rfl

namespace Op

/-- An operation that is a step of the cursor is exact if the step is. -/
theorem exact_step {op : Op α} {step : Cursor → Option (α × Cursor)} {reach : Nat}
    (reader : op.reader = .step step .outOfBounds) (reaches : op.Reaches c.pos reach)
    (refused : c.data.size < reach → step c = none)
    (done : reach ≤ c.data.size → ∃ a, op.Tells c.data.toList c.pos a ∧
      step c = some (a, { c with pos := op.lands c.pos reach })) : op.ExactAt c reach where
  reaches := reaches
  refused := by
    rw [reader, Reader.runAt_step]
    refine ⟨fun h => ?_, fun h => by rw [refused h]⟩
    by_contra within
    obtain ⟨a, -, e⟩ := done (Nat.not_lt.1 within)
    rw [e] at h
    cases h
  done := by
    rw [reader, Reader.runAt_step]
    intro within
    obtain ⟨a, tells, e⟩ := done within
    exact ⟨a, tells, by rw [e]⟩

/-- A movement is exact if it ends where it reaches. -/
theorem exact_move {op : Op Unit} {move : Cursor → Option Cursor} {reach : Nat}
    (reader : op.reader = .move move .outOfBounds) (reaches : op.Reaches c.pos reach)
    (tells : op.Tells c.data.toList c.pos ()) (lands : op.lands c.pos reach = reach)
    (refused : c.data.size < reach → move c = none)
    (done : reach ≤ c.data.size → move c = some { c with pos := reach }) : op.ExactAt c reach :=
  exact_step reader reaches (fun past => by rw [refused past]; rfl)
    fun within => ⟨(), tells, by rw [done within, lands]; rfl⟩

/-- **Every operation is exact**, at whatever cursor. -/
theorem exactAt (op : Op α) (c : Cursor) : ∃ reach, op.ExactAt c reach := by
  cases op with
  | seek pos =>
    exact ⟨pos, exact_move rfl rfl trivial rfl (fun past => if_neg (Nat.not_le.2 past))
      fun within => if_pos within⟩
  | advance step =>
    exact ⟨c.pos + step, exact_move rfl rfl trivial rfl advance?_of_gt advance?_of_le⟩
  | align alignment nonzero =>
    exact ⟨c.pos + padding alignment c.pos, exact_move rfl (isLeast_padding nonzero c.pos) trivial
      rfl advance?_of_gt advance?_of_le⟩
  | field α =>
    refine ⟨c.pos + FixedWidth.width α, exact_step rfl rfl (fun h => ?_) fun h =>
      ⟨FixedWidth.ofBytes (c.rest.take (FixedWidth.width α)), ?_, ?_⟩⟩
    · rw [read?, take?_of_gt h]
      rfl
    · have width : (c.rest.take (FixedWidth.width α)).length = FixedWidth.width α := by
        rw [List.length_take, length_rest, remaining]
        omega
      exact FixedWidth.toNat_ofBytes width
    · rw [read?, take?_of_le h]
      rfl
  | bytes count =>
    exact ⟨c.pos + count, exact_step rfl rfl take?_of_gt fun h => ⟨_, rfl, take?_of_le h⟩⟩
  | peek =>
    refine ⟨c.pos + 1, exact_step rfl rfl (fun h => ?_) fun h => ⟨c.data[c.pos], ?_, ?_⟩⟩
    · rw [peek?, Array.getElem?_eq_none (by omega)]
      rfl
    · show c.data.toList[c.pos]? = _
      simp
    · rw [peek?, Array.getElem?_eq_getElem h]
      rfl

/-- **An operation keeps a cursor inside its bytes**, whether it is refused or not. -/
theorem ExactAt.keeps {op : Op α} {reach : Nat} (h : op.ExactAt c reach) (inside : c.Inside) :
    (op.reader.runAt c).2.data = c.data ∧ (op.reader.runAt c).2.Inside := by
  by_cases past : c.data.size < reach
  · rw [h.refused.2 past]
    exact ⟨rfl, inside⟩
  · obtain ⟨a, -, e⟩ := h.done (Nat.not_lt.1 past)
    rw [e]
    refine ⟨rfl, ?_⟩
    cases op with
    | peek => exact inside
    | _ => exact Nat.not_lt.1 past

end Op

/-! ## Sequences of operations -/

/-- The cursor behind operations of which each may have been refused. -/
def after (c : Cursor) : List (Σ α, Op α) → Cursor
  | [] => c
  | ⟨_, op⟩ :: ops => (op.reader.runAt c).2.after ops

/-- **After any operations** a cursor is inside the same bytes. -/
theorem after_inside (ops : List (Σ α, Op α)) (inside : c.Inside) :
    (c.after ops).data = c.data ∧ (c.after ops).Inside := by
  induction ops generalizing c with
  | nil => exact ⟨rfl, inside⟩
  | cons op ops ih =>
    obtain ⟨reach, exactly⟩ := op.2.exactAt c
    obtain ⟨same, inside'⟩ := exactly.keeps inside
    obtain ⟨data, within⟩ := ih inside'
    exact ⟨data.trans same, within⟩

/-! ## Machine words -/

/-- **Machine words suffice for a cursor**: what it computes from its position comes out the same on
words of `w` bits, where a sum may overflow and a difference wrap. These are the only computations:
every movement but a seek, and every read, goes through `advance?`. -/
structure WordsSuffice (c : Cursor) (w : Nat) : Prop where
  sums : ∀ step : BitVec w, c.advance? step.toNat
    = (Word.sum? (.ofNat w c.pos) step).bind fun stop => c.seek? stop.toNat
  paddings : ∀ alignment : BitVec w, alignment ≠ 0 → padding alignment.toNat c.pos
    = ((alignment - .ofNat w c.pos % alignment) % alignment).toNat

/-- A sum that overflows lies past the end of bytes that words can number. -/
theorem wordsSuffice {w : Nat} (inside : c.Inside) (numbered : c.data.size < 2 ^ w) :
    c.WordsSuffice w := by
  have word : (BitVec.ofNat w c.pos).toNat = c.pos := by
    rw [BitVec.toNat_ofNat, Nat.mod_eq_of_lt (Nat.lt_of_le_of_lt inside numbered)]
  constructor
  · intro step
    by_cases overflow : 2 ^ w ≤ c.pos + step.toNat
    · rw [Word.sum?_eq_none.2 (word.symm ▸ overflow), advance?_of_gt (by omega)]
      rfl
    · obtain ⟨stop, sum, value⟩ := Word.sum?_of_lt (word.symm ▸ Nat.not_le.1 overflow)
      rw [sum, Option.bind_some, value, word]
      rfl
  · intro alignment nonzero
    have less : BitVec.ofNat w c.pos % alignment ≤ alignment :=
      BitVec.le_of_lt (BitVec.umod_lt _ ((BitVec.pos_iff_ne_zero alignment).2 nonzero))
    rw [BitVec.toNat_umod, BitVec.toNat_sub_of_le less, BitVec.toNat_umod, word]
    rfl

end Cursor

end CilProbes
