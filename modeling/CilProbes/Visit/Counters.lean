import CilProbes.Coverage.Points
import CilProbes.Table

/-! # Visit counters

A session may cap how often a number is reported. The counters grow in whole buckets, as methods
are instrumented; numbers without a counter are reported without being counted.

* `VisitCounters.grow`: makes room for the numbers below a bound.
* `VisitCounters.record`: counts a visit and tells whether to report it.
* `VisitCounters.count_grow`: growing changes no count.
* `VisitCounters.record_of_counted`: with a counter, visits are reported up to the cap.
-/

namespace CilProbes

/-- The visits counted so far. -/
structure VisitCounters where
  /-- How many visits of a number are reported; zero stands for all of them. -/
  cap : UInt32
  /-- The numbers below it have a counter. -/
  size : Nat
  /-- The counters that have left zero. -/
  counts : Table ProbeId UInt32
deriving DecidableEq, Repr

namespace VisitCounters

/-- The step in which the counters grow. -/
def bucket : Nat := 16384

def new (cap : UInt32) : VisitCounters := ⟨cap, 0, .empty⟩

variable (c : VisitCounters)

/-- Whether no number has a counter. -/
def isEmpty : Bool := c.size == 0

/-- The visits of a number counted so far. -/
def count (id : ProbeId) : UInt32 := (c.counts.find? id).getD 0

/-- **Makes room for the numbers below `bound`.** If that takes more counters than there are, the
new size is the least multiple of the bucket above `bound`. -/
def grow (bound : Nat) : VisitCounters :=
  if c.size < bound then { c with size := (bound / bucket + 1) * bucket } else c

/-- **Counts a visit and tells whether to report it.** Zero is no number to report. Without a cap
and without a counter every visit is reported and none counted. -/
def record (id : ProbeId) : Bool × VisitCounters :=
  if id = 0 then (false, c)
  else if c.cap = 0 ∨ c.size ≤ id.toNat then (true, c)
  else if c.count id < c.cap then (true, { c with counts := c.counts.insert id (c.count id + 1) })
  else (false, c)

/-- **Growing changes no count.** -/
@[simp] theorem count_grow (bound : Nat) (id : ProbeId) : (c.grow bound).count id = c.count id := by
  unfold grow
  split <;> rfl

/-- **Growing never shrinks.** -/
theorem size_le_size_grow (bound : Nat) : c.size ≤ (c.grow bound).size := by
  unfold grow
  split
  · simp only [bucket]
    omega
  · exact Nat.le_refl _

/-- **Growing makes room.** -/
theorem le_size_grow (bound : Nat) : bound ≤ (c.grow bound).size := by
  unfold grow
  split
  · simp only [bucket]
    omega
  · exact Nat.le_of_not_lt ‹_›

@[simp] theorem cap_grow (bound : Nat) : (c.grow bound).cap = c.cap := by
  unfold grow
  split <;> rfl

/-- A visit is counted in one counter below the cap, or nowhere. -/
theorem record_snd (id : ProbeId) : (c.record id).2 = c ∨ c.count id < c.cap ∧
    (c.record id).2 = { c with counts := c.counts.insert id (c.count id + 1) } := by
  unfold record
  split
  · exact .inl rfl
  split
  · exact .inl rfl
  split
  · exact .inr ⟨‹_›, rfl⟩
  · exact .inl rfl

@[simp] theorem cap_record (id : ProbeId) : (c.record id).2.cap = c.cap := by
  rcases c.record_snd id with h | ⟨-, h⟩ <;> rw [h]

@[simp] theorem size_record (id : ProbeId) : (c.record id).2.size = c.size := by
  rcases c.record_snd id with h | ⟨-, h⟩ <;> rw [h]

theorem count_insert (id j : ProbeId) (n : UInt32) :
    ({ c with counts := c.counts.insert id n } : VisitCounters).count j
      = if j = id then n else c.count j := by
  simp only [count, Table.find?_insert]
  split <;> rfl

/-- Below the cap there is room for one more. -/
theorem toNat_count_succ {id : ProbeId} (h : c.count id < c.cap) :
    (c.count id + 1).toNat = (c.count id).toNat + 1 := by
  have below := UInt32.lt_iff_toNat_lt.1 h
  have bound := c.cap.toNat_lt
  rw [UInt32.toNat_add, UInt32.toNat_one]
  omega

/-- **A visit leaves the other counts.** -/
theorem count_record_of_ne {id j : ProbeId} (h : j ≠ id) :
    (c.record id).2.count j = c.count j := by
  rcases c.record_snd id with e | ⟨-, e⟩
  · rw [e]
  · rw [e, count_insert, if_neg h]

/-- **No visit lowers a count.** -/
theorem count_le_count_record (id j : ProbeId) : c.count j ≤ (c.record id).2.count j := by
  by_cases h : j = id
  · subst h
    rcases c.record_snd j with e | ⟨below, e⟩
    · rw [e]
      exact UInt32.le_refl _
    · rw [e, count_insert, if_pos rfl, UInt32.le_iff_toNat_le, c.toNat_count_succ below]
      exact Nat.le_succ _
  · rw [count_record_of_ne c h]
    exact UInt32.le_refl _

/-- **Of a number with a counter the visits below the cap are reported**, and counted. -/
theorem record_of_counted {id : ProbeId} (nonzero : id ≠ 0) (capped : c.cap ≠ 0)
    (room : id.toNat < c.size) : (c.record id).1 = decide (c.count id < c.cap) ∧
      ((c.record id).2.count id).toNat = (c.count id).toNat + (c.record id).1.toNat := by
  have counted : ¬(c.cap = 0 ∨ c.size ≤ id.toNat) := by
    intro h
    exact h.elim capped (Nat.not_le_of_lt room)
  unfold record
  rw [if_neg nonzero, if_neg counted]
  split
  · rename_i below
    refine ⟨(decide_eq_true below).symm, ?_⟩
    rw [count_insert, if_pos rfl, c.toNat_count_succ below]
    rfl
  · rename_i full
    exact ⟨(decide_eq_false full).symm, rfl⟩

end VisitCounters

end CilProbes
