import CilProbes.Visit.Recorder
import Mathlib.Order.Bounds.Defs

/-!
# Counters and recorders against a ledger

Recorders of one session share its counters, which grow while visits arrive. The reference for all
of it is a ledger without counters: it notes how much room there is, and of each number how many
visits have met a counter, however many of these were reported.

* `Use`, `playAll`: anything done with shared counters, and what the sinks are told.
* `Ledger.after`, `Ledger.heard`: what the ledger says of a use.
* `Matches.play`, `Matches.plays`: one use, and any number of uses, go as the ledger says.
* `visits_match`: what follows for counters, visits and sinks.
-/

namespace CilProbes

/-! ## Visits and what is made of them -/

/-- The number of a visit. -/
def Arrival.id? : Arrival → Option ProbeId
  | visit id | visitWithContext id _ _ => some id
  | flush => none

/-- What a sink is told of an arrival that is not held back: in safe mode every visit as it is,
otherwise one without a correlation id through the buffer. -/
def Arrival.told (safe : Bool) : Arrival → SinkCall
  | visit id => bif safe then .visit id else .visitBuffered id
  | visitWithContext id high low => .visitWithContext id high low
  | flush => .flush

namespace Recorder

variable (r : Recorder)

/-- The call that hands an arrival on. -/
def passOn : Arrival → SinkCall
  | .visit id => r.handOn id
  | .visitWithContext id high low => .visitWithContext id high low
  | .flush => .flush

theorem passOn_eq (a : Arrival) : r.passOn a = a.told r.safeMode := by
  cases a with
  | visit id => cases safe : r.safeMode <;> simp [passOn, handOn, Arrival.told, safe]
  | visitWithContext | flush => rfl

/-- **An arrival is handed on or not**, as the counters say. -/
theorem receive_eq (c : VisitCounters) (a : Arrival) :
    r.receive c a = a.id?.elim ([r.passOn a], c)
      fun id => (if (c.record id).1 then [r.passOn a] else [], (c.record id).2) := by
  cases a <;> rfl

end Recorder

namespace VisitCounters

variable (c : VisitCounters) {id : ProbeId}

/-- **Growing takes the least whole number of buckets above the bound**, if it takes any. -/
theorem isLeast_size_grow {bound : Nat} (h : c.size < bound) :
    IsLeast {n | bucket ∣ n ∧ bound < n} (c.grow bound).size := by
  have size : (c.grow bound).size = (bound / bucket + 1) * bucket := by
    unfold grow
    rw [if_pos h]
  rw [size]
  refine ⟨⟨Nat.dvd_mul_left _ _, ?_⟩, ?_⟩
  · simp only [bucket]
    omega
  · rintro _ ⟨⟨n, rfl⟩, above⟩
    simp only [bucket] at above ⊢
    omega

/-- Zero is neither reported nor counted. -/
theorem record_zero : c.record 0 = (false, c) := if_pos rfl

/-- Without a cap or a counter a visit is reported and not counted. -/
theorem record_of_uncounted (nonzero : id ≠ 0) (h : c.cap = 0 ∨ c.size ≤ id.toNat) :
    c.record id = (true, c) :=
  (if_neg nonzero).trans (if_pos h)

end VisitCounters

/-! ## Uses of shared counters -/

/-- What is done with shared counters: room is made, or a recorder is called. Recorders are told
apart by numbers, and each has a sink of its own. -/
inductive Use where
  | grow (bound : Nat)
  | arrive (which : Nat) (arrival : Arrival)

section
variable (recorders : Nat → Recorder)

/-- What a use brings about: calls of a sink, and the counters behind it. -/
def Use.play (c : VisitCounters) : Use → List (Nat × SinkCall) × VisitCounters
  | grow bound => ([], c.grow bound)
  | arrive which a =>
    let (calls, c) := (recorders which).receive c a
    (calls.map (which, ·), c)

/-- What uses bring about, one after the other. -/
def playAll (c : VisitCounters) : List Use → List (Nat × SinkCall) × VisitCounters
  | [] => ([], c)
  | u :: us =>
    let (calls, c) := u.play recorders c
    let (more, c) := playAll c us
    (calls ++ more, c)

end

/-! ## The ledger -/

/-- The reference for shared counters. -/
structure Ledger where
  /-- The numbers below it have a counter. -/
  room : Nat
  /-- How many visits of a number have met its counter, reported or not. -/
  met : ProbeId → Nat

namespace Ledger

/-- The ledger before the first use. -/
def new : Ledger := ⟨0, fun _ => 0⟩

variable (l : Ledger)

/-- Whether a visit meets a counter. -/
def Meets (id : ProbeId) : Prop := id ≠ 0 ∧ id.toNat < l.room

/-- **Whether a visit is reported** under a cap. -/
def Reports (cap : Nat) (id : ProbeId) : Prop :=
  id ≠ 0 ∧ (cap = 0 ∨ l.room ≤ id.toNat ∨ l.met id < cap)

instance (id : ProbeId) : Decidable (l.Meets id) := inferInstanceAs (Decidable (_ ∧ _))

instance (cap : Nat) (id : ProbeId) : Decidable (l.Reports cap id) :=
  inferInstanceAs (Decidable (_ ∧ _))

/-- Notes a visit that meets a counter. -/
def note (id : ProbeId) : Ledger :=
  { l with met := fun j => if j = id ∧ l.Meets id then l.met j + 1 else l.met j }

/-- The ledger after a use. -/
def after : Use → Ledger
  | .grow bound =>
    { l with room := if l.room < bound
        then (bound / VisitCounters.bucket + 1) * VisitCounters.bucket else l.room }
  | .arrive _ a => a.id?.elim l l.note

/-- **What the sinks hear of a use**: one call for a visit that is reported, and one for a flush. -/
def heard (cap : Nat) (recorders : Nat → Recorder) : Use → List (Nat × SinkCall)
  | .grow _ => []
  | .arrive which a =>
    if a.id?.all (l.Reports cap ·) then [(which, a.told (recorders which).safeMode)] else []

/-- What the sinks hear of uses, one after the other. -/
def heardAll (cap : Nat) (recorders : Nat → Recorder) (l : Ledger) :
    List Use → List (Nat × SinkCall)
  | [] => []
  | u :: us => l.heard cap recorders u ++ heardAll cap recorders (l.after u) us

/-- What the ledger keeps to: whole buckets, and no notes on zero. -/
structure Proper : Prop where
  buckets : VisitCounters.bucket ∣ l.room
  zero : l.met 0 = 0

theorem proper_new : new.Proper := ⟨Nat.dvd_zero _, rfl⟩

variable {l} {cap : Nat} {id : ProbeId}

theorem Proper.after (h : l.Proper) : ∀ u, (l.after u).Proper
  | .grow bound => by
    refine ⟨?_, h.zero⟩
    show _ ∣ if l.room < bound then _ else _
    split
    · exact Nat.dvd_mul_left _ _
    · exact h.buckets
  | .arrive _ a => by
    show (a.id?.elim l l.note).Proper
    cases a.id? with
    | none => exact h
    | some id => exact ⟨h.buckets, (if_neg fun e => e.2.1 e.1.symm).trans h.zero⟩

theorem proper_foldl (us : List Use) : (us.foldl Ledger.after new).Proper :=
  List.foldlRecOn us Ledger.after proper_new fun _ h u _ => h.after u

/-- **A use adds room and notes**, and takes none away. -/
theorem le_after : ∀ u, l.room ≤ (l.after u).room ∧ ∀ id, l.met id ≤ (l.after u).met id
  | .grow bound => by
    refine ⟨?_, fun id => Nat.le_refl (l.met id)⟩
    show l.room ≤ if l.room < bound then _ else l.room
    simp only [VisitCounters.bucket]
    split <;> omega
  | .arrive _ a => by
    show l.room ≤ (a.id?.elim l l.note).room ∧ ∀ id, l.met id ≤ (a.id?.elim l l.note).met id
    cases a.id? with
    | none => exact ⟨Nat.le_refl _, fun _ => Nat.le_refl _⟩
    | some i =>
      refine ⟨Nat.le_refl _, fun id => ?_⟩
      show l.met id ≤ if id = i ∧ l.Meets i then l.met id + 1 else l.met id
      split <;> omega

/-- **What is no longer reported never is again.** -/
theorem not_reports_after (h : ¬l.Reports cap id) (us : List Use) :
    ¬(us.foldl Ledger.after l).Reports cap id := by
  induction us generalizing l with
  | nil => exact h
  | cons u us ih =>
    obtain ⟨room, met⟩ := l.le_after u
    have met := met id
    exact ih fun ⟨nonzero, reported⟩ => h ⟨nonzero, by omega⟩

/-- Of a number with a counter, visits are reported up to the cap. -/
theorem reports_iff (meets : l.Meets id) (capped : cap ≠ 0) :
    l.Reports cap id ↔ l.met id < cap := by
  obtain ⟨nonzero, room⟩ := meets
  refine ⟨fun reports => ?_, fun below => ⟨nonzero, .inr (.inr below)⟩⟩
  have := reports.2
  omega

theorem met_note_self : (l.note id).met id = if l.Meets id then l.met id + 1 else l.met id := by
  simp [note]

theorem met_note_of_ne {i j : ProbeId} (ne : j ≠ i) : (l.note i).met j = l.met j :=
  if_neg fun e => ne e.1

/-! ### Visits of different numbers -/

variable {i j : ProbeId}

/-- A visit does not change what is made of other numbers. -/
theorem reports_note (ne : i ≠ j) : (l.note i).Reports cap j ↔ l.Reports cap j := by
  unfold Reports
  rw [met_note_of_ne ne.symm]
  rfl

/-- **Visits of different numbers are noted in any order.** -/
theorem note_comm (ne : i ≠ j) : (l.note i).note j = (l.note j).note i := by
  -- A note leaves the room, and so which visits meet a counter.
  have met : ∀ k, ((l.note i).note j).met k = ((l.note j).note i).met k := by
    intro k
    simp only [note, Meets]
    grind
  exact congrArg (Ledger.mk l.room) (funext met)

end Ledger

/-! ## Counters that match a ledger -/

/-- **Counters match a ledger** if they have as much room, and of each number have counted what was
met, up to the cap. -/
structure Matches (c : VisitCounters) (l : Ledger) : Prop where
  room : c.size = l.room
  count : ∀ id, (c.count id).toNat = min c.cap.toNat (l.met id)

namespace Matches

variable {c : VisitCounters} {l : Ledger}

theorem new (cap : UInt32) : Matches (.new cap) .new :=
  ⟨rfl, fun _ => (Nat.min_zero _).symm⟩

/-- Growing makes the room that the ledger says. -/
theorem grow (h : Matches c l) (bound : Nat) : Matches (c.grow bound) (l.after (.grow bound)) := by
  refine ⟨?_, fun id => ?_⟩
  · show _ = if l.room < bound then _ else _
    rw [← h.room]
    unfold VisitCounters.grow
    split <;> rfl
  · rw [c.count_grow, c.cap_grow]
    exact h.count id

/-- A visit of a number with a counter goes as the ledger says. -/
theorem record_of_meets (h : Matches c l) {id : ProbeId} (meets : l.Meets id) (capped : c.cap ≠ 0) :
    (c.record id).1 = decide (l.Reports c.cap.toNat id) ∧
      ((c.record id).2.count id).toNat = min c.cap.toNat (l.met id + 1) := by
  obtain ⟨reported, counted⟩ := c.record_of_counted meets.1 capped (h.room ▸ meets.2)
  have positive : c.cap.toNat ≠ 0 := fun e => capped (UInt32.toNat_inj.1 e)
  have count := h.count id
  have below : c.count id < c.cap ↔ l.met id < c.cap.toNat := by
    rw [UInt32.lt_iff_toNat_lt]
    omega
  rw [counted, reported, count]
  refine ⟨decide_eq_decide.2 (below.trans (Ledger.reports_iff meets positive).symm), ?_⟩
  by_cases b : l.met id < c.cap.toNat
  · rw [decide_eq_true (below.2 b), Bool.toNat_true]
    omega
  · rw [decide_eq_false (mt below.1 b), Bool.toNat_false]
    omega

/-- A visit of any number goes as the ledger says. -/
theorem record_self (h : Matches c l) (id : ProbeId) :
    (c.record id).1 = decide (l.Reports c.cap.toNat id) ∧
      ((c.record id).2.count id).toNat = min c.cap.toNat ((l.note id).met id) := by
  have count := h.count id
  rw [Ledger.met_note_self]
  by_cases zero : id = 0
  · subst zero
    rw [c.record_zero, if_neg fun m => m.1 rfl]
    exact ⟨(decide_eq_false fun reports => reports.1 rfl).symm, count⟩
  by_cases uncapped : c.cap = 0
  · have none : c.cap.toNat = 0 := congrArg UInt32.toNat uncapped
    rw [c.record_of_uncounted zero (.inl uncapped)]
    refine ⟨(decide_eq_true ⟨zero, .inl none⟩).symm, ?_⟩
    rw [count, none, Nat.zero_min, Nat.zero_min]
  by_cases meets : l.Meets id
  · rw [if_pos meets]
    exact h.record_of_meets meets uncapped
  · have out : l.room ≤ id.toNat := Nat.not_lt.1 fun room => meets ⟨zero, room⟩
    rw [c.record_of_uncounted zero (.inr (h.room ▸ out)), if_neg meets]
    exact ⟨(decide_eq_true ⟨zero, .inr (.inl out)⟩).symm, count⟩

/-- **A visit is reported if the ledger says so**, and noted if it met a counter. -/
theorem record (h : Matches c l) (id : ProbeId) :
    (c.record id).1 = decide (l.Reports c.cap.toNat id) ∧ Matches (c.record id).2 (l.note id) := by
  obtain ⟨reported, own⟩ := h.record_self id
  refine ⟨reported, (c.size_record id).trans h.room, fun j => ?_⟩
  rw [c.cap_record]
  by_cases e : j = id
  · exact e ▸ own
  · rw [c.count_record_of_ne e, Ledger.met_note_of_ne e]
    exact h.count j

variable (recorders : Nat → Recorder)

/-- **One use goes as the ledger says**, and leaves the cap. -/
theorem play (h : Matches c l) (u : Use) :
    (u.play recorders c).1 = l.heard c.cap.toNat recorders u ∧
      Matches (u.play recorders c).2 (l.after u) ∧ (u.play recorders c).2.cap = c.cap := by
  cases u with
  | grow bound => exact ⟨rfl, h.grow bound, c.cap_grow bound⟩
  | arrive which a =>
    simp only [Use.play, Ledger.heard, Ledger.after, Recorder.receive_eq, Recorder.passOn_eq]
    cases a.id? with
    | none => exact ⟨rfl, h, rfl⟩
    | some id =>
      obtain ⟨reported, next⟩ := h.record id
      refine ⟨?_, next, c.cap_record id⟩
      rw [Option.elim_some, reported]
      by_cases r : l.Reports c.cap.toNat id <;> simp [r]

/-- **Any number of uses goes as the ledger says.** -/
theorem plays (h : Matches c l) (us : List Use) :
    (playAll recorders c us).1 = l.heardAll c.cap.toNat recorders us ∧
      Matches (playAll recorders c us).2 (us.foldl Ledger.after l) ∧
      (playAll recorders c us).2.cap = c.cap := by
  induction us generalizing c l with
  | nil => exact ⟨rfl, h, rfl⟩
  | cons u us ih =>
    obtain ⟨heard, next, cap⟩ := h.play recorders u
    obtain ⟨more, final, kept⟩ := ih next
    refine ⟨?_, final, kept.trans cap⟩
    simp only [playAll, Ledger.heardAll, heard, more, cap]

/-- Counters that match one ledger are alike. -/
theorem unique {c' : VisitCounters} (h : Matches c l) (h' : Matches c' l) (cap : c.cap = c'.cap) :
    c.size = c'.size ∧ ∀ id, c.count id = c'.count id := by
  refine ⟨h.room.trans h'.room.symm, fun id => UInt32.toNat_inj.1 ?_⟩
  rw [h.count, h'.count, cap]

/-- **What is no longer reported never is again**, whatever is done next. -/
theorem suppressed (h : Matches c l) {id : ProbeId} (off : (c.record id).1 = false)
    (us : List Use) : ((playAll recorders c us).2.record id).1 = false := by
  obtain ⟨-, final, cap⟩ := h.plays recorders us
  rw [(h.record id).1] at off
  rw [(final.record id).1, cap]
  exact decide_eq_false (Ledger.not_reports_after (of_decide_eq_false off) us)

/-- **Of two visits of different numbers both sinks hear what they would of one alone**, and the
ledger has both notes. -/
theorem playAll_pair (h : Matches c l) {k m : Nat} {a b : Arrival} {i j : ProbeId} (ne : i ≠ j)
    (hi : a.id? = some i) (hj : b.id? = some j) :
    (playAll recorders c [.arrive k a, .arrive m b]).1
        = ((Use.arrive k a).play recorders c).1 ++ ((Use.arrive m b).play recorders c).1 ∧
      Matches (playAll recorders c [.arrive k a, .arrive m b]).2 ((l.note i).note j) := by
  obtain ⟨heard, both, -⟩ := h.plays recorders [.arrive k a, .arrive m b]
  have noted : [Use.arrive k a, .arrive m b].foldl Ledger.after l = (l.note i).note j := by
    simp [Ledger.after, hi, hj]
  refine ⟨?_, noted ▸ both⟩
  rw [heard, (h.play recorders _).1, (h.play recorders _).1]
  simp [Ledger.heardAll, Ledger.heard, Ledger.after, hi, hj, Ledger.reports_note ne]

/-- **After two visits of different numbers their order does not matter**, whatever is done next. -/
theorem playAll_swap (h : Matches c l) {k m : Nat} {a b : Arrival} {i j : ProbeId} (ne : i ≠ j)
    (hi : a.id? = some i) (hj : b.id? = some j) (after : List Use) :
    let ab := playAll recorders (playAll recorders c [.arrive k a, .arrive m b]).2 after
    let ba := playAll recorders (playAll recorders c [.arrive m b, .arrive k a]).2 after
    ab.1 = ba.1 ∧ ab.2.size = ba.2.size ∧ ∀ id, ab.2.count id = ba.2.count id := by
  have one := (h.playAll_pair recorders (k := k) (m := m) ne hi hj).2
  have other := (h.playAll_pair recorders (k := m) (m := k) ne.symm hj hi).2
  rw [Ledger.note_comm ne.symm] at other
  have cap := (h.plays recorders [.arrive k a, .arrive m b]).2.2.trans
    (h.plays recorders [.arrive m b, .arrive k a]).2.2.symm
  obtain ⟨heard, matched, kept⟩ := one.plays recorders after
  obtain ⟨heard', matched', kept'⟩ := other.plays recorders after
  exact ⟨by rw [heard, heard', cap], matched.unique matched' (by rw [kept, kept', cap])⟩

end Matches

/-- **Shared counters and their recorders keep a ledger's word.** Take any cap, any recorders and
any uses so far. Then the sinks have heard what the ledger says and nothing else, and room and counts
are those of the ledger: the counters fill whole buckets, and no count is above the cap. From there,

* growing changes no count, and nothing at all if there is room enough; otherwise the size becomes
  the least multiple of the bucket above the bound;
* a visit is handed on if the counters report it: zero is neither reported nor counted, any other
  number is reported without being counted if there is no cap or no counter for it, and otherwise it
  is reported, and counted, below the cap;
* a number that is no longer reported never is again;
* visits of different numbers commute: in either order each sink hears what it would without the
  other visit, and whatever is done next finds the counters alike. -/
theorem visits_match (cap : UInt32) (recorders : Nat → Recorder) (before : List Use) :
    let c := (playAll recorders (.new cap) before).2
    ((playAll recorders (.new cap) before).1 = Ledger.new.heardAll cap.toNat recorders before ∧
      Matches c (before.foldl Ledger.after .new) ∧ c.cap = cap ∧
      VisitCounters.bucket ∣ c.size ∧ c.count 0 = 0 ∧ ∀ id, c.count id ≤ cap) ∧
    (∀ bound, c.size ≤ (c.grow bound).size ∧ (∀ id, (c.grow bound).count id = c.count id) ∧
      (bound ≤ c.size → c.grow bound = c) ∧
      (c.size < bound → IsLeast {n | VisitCounters.bucket ∣ n ∧ bound < n} (c.grow bound).size)) ∧
    (∀ (k : Nat) (a : Arrival), (Use.arrive k a).play recorders c
      = (if a.id?.all (c.record · |>.1) then [(k, a.told (recorders k).safeMode)] else [],
          a.id?.elim c (c.record · |>.2))) ∧
    (∀ id, (id = 0 → c.record id = (false, c)) ∧
      (id ≠ 0 → cap = 0 ∨ c.size ≤ id.toNat → c.record id = (true, c)) ∧
      (id ≠ 0 → cap ≠ 0 → id.toNat < c.size → (c.record id).1 = decide (c.count id < cap) ∧
        ((c.record id).2.count id).toNat = (c.count id).toNat + (c.record id).1.toNat) ∧
      (c.record id).2.size = c.size ∧ ∀ j, j ≠ id → (c.record id).2.count j = c.count j) ∧
    (∀ id, (c.record id).1 = false →
      ∀ after, ((playAll recorders c after).2.record id).1 = false) ∧
    ∀ (k m : Nat) (a b : Arrival) (i j : ProbeId), a.id? = some i → b.id? = some j → i ≠ j →
      let ab := playAll recorders c [.arrive k a, .arrive m b]
      let ba := playAll recorders c [.arrive m b, .arrive k a]
      ab.1 = ((Use.arrive k a).play recorders c).1 ++ ((Use.arrive m b).play recorders c).1 ∧
      ba.1 = ((Use.arrive m b).play recorders c).1 ++ ((Use.arrive k a).play recorders c).1 ∧
      ∀ after, (playAll recorders ab.2 after).1 = (playAll recorders ba.2 after).1 ∧
        (playAll recorders ab.2 after).2.size = (playAll recorders ba.2 after).2.size ∧
        ∀ id, (playAll recorders ab.2 after).2.count id
          = (playAll recorders ba.2 after).2.count id := by
  intro c
  obtain ⟨heard, (matched : Matches c _), (kept : c.cap = cap)⟩ :=
    (Matches.new cap).plays recorders before
  have proper : (before.foldl Ledger.after .new).Proper := Ledger.proper_foldl before
  refine ⟨⟨heard, matched, kept, matched.room ▸ proper.buckets, ?zero, fun id => ?bounded⟩,
    ?growing, ?handed, fun id => ⟨?nothing, ?uncounted, ?counted, c.size_record id, ?others⟩,
    fun id off after => matched.suppressed recorders off after, ?commute⟩
  case zero =>
    refine UInt32.toNat_inj.1 ?_
    rw [matched.count, proper.zero, Nat.min_zero]
    rfl
  case bounded =>
    rw [UInt32.le_iff_toNat_le, matched.count, kept]
    exact Nat.min_le_left _ _
  case growing =>
    intro bound
    have same (enough : bound ≤ c.size) : c.grow bound = c := if_neg (Nat.not_lt.2 enough)
    exact ⟨c.size_le_size_grow bound, c.count_grow bound, same, c.isLeast_size_grow⟩
  case handed =>
    intro k a
    simp only [Use.play, Recorder.receive_eq, Recorder.passOn_eq]
    cases a.id? with
    | none => rfl
    | some id => cases r : (c.record id).1 <;> simp [r]
  case nothing =>
    rintro rfl
    exact c.record_zero
  case uncounted =>
    intro nonzero free
    exact c.record_of_uncounted nonzero (kept.symm ▸ free)
  case counted =>
    intro nonzero capped room
    have counted := c.record_of_counted nonzero (kept.symm ▸ capped) room
    rwa [kept] at counted
  case others =>
    intro j ne
    exact c.count_record_of_ne ne
  case commute =>
    intro k m a b i j hi hj ne
    exact ⟨(matched.playAll_pair recorders ne hi hj).1,
      (matched.playAll_pair recorders ne.symm hj hi).1,
      fun after => matched.playAll_swap recorders ne hi hj after⟩

/-- A cap of two: the third visit that meets a counter is not reported, whichever recorder it is. -/
theorem visits_match_twoRecorders :
    let recorders (k : Nat) : Recorder := ⟨k == 1⟩
    let uses : List Use := [.arrive 0 (.visit 7), .grow 1, .arrive 0 (.visit 7),
      .arrive 1 (.visitWithContext 7 1 2), .arrive 1 (.visit 7), .arrive 1 (.visit 8),
      .arrive 0 .flush, .arrive 0 (.visit 0)]
    let c := (playAll recorders (.new 2) uses).2
    (playAll recorders (.new 2) uses).1 = [(0, .visitBuffered 7), (0, .visitBuffered 7),
      (1, .visitWithContext 7 1 2), (1, .visit 8), (0, .flush)] ∧
    c.grow 16384 = c ∧ IsLeast {n | 16384 ∣ n ∧ 20000 < n} (c.grow 20000).size ∧
    c.record 0 = (false, c) ∧ c.record 16384 = (true, c) ∧ (c.record 8).1 = true ∧
    (∀ after, ((playAll recorders c after).2.record 7).1 = false) ∧
    (playAll recorders c [.arrive 0 (.visit 8), .arrive 1 (.visit 9)]).1
      = [(0, .visitBuffered 8), (1, .visit 9)] := by
  intro recorders uses c
  obtain ⟨⟨heard, -⟩, grown, -, laws, off, swap⟩ := visits_match 2 recorders uses
  obtain ⟨pair, -⟩ := swap 0 1 (.visit 8) (.visit 9) 8 9 rfl rfl (by decide)
  refine ⟨heard.trans (by decide), (grown 16384).2.2.1 (by decide),
    (grown 20000).2.2.2 (by decide), (laws 0).1 rfl,
    (laws 16384).2.1 (by decide) (.inr (by decide)),
    ((laws 8).2.2.1 (by decide) (by decide) (by decide)).1.trans (by decide), off 7 (by decide),
    pair.trans (by decide)⟩

end CilProbes
