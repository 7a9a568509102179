import CilProbes.Proofs.Writing.Layout
import Mathlib.Data.List.Forall2

/-!
# Relaxation settles on the least widths

Relaxation starts with every branch short and widens what is cramped, pass after pass. Slots are
compared branch by branch: `Wider ss ss'` says that every branch long in `ss` is long in `ss'`.

* `Wider.reaches`: a short branch that reaches its target reaches it with less code around it too.
* `Wider.widen`: so a pass stays below every choice in which all short branches reach.
* `Passes n ss r`: the passes as they come, with no bound on their number.
* `settle_passes`: relaxation is these passes, and a try for each short branch is enough of them.
* `Passes.least`: they end in the least settled choice, or none of the settled ones fits.
-/

namespace CilProbes.Relax

variable {ss ss' : List Slot} {k d : Nat}

/-! ## Offsets as sums -/

theorem total_append (ss ss' : List Slot) : total (ss ++ ss') = total ss + total ss' := by
  induction ss with
  | nil => simp [total]
  | cons s ss ih => simp [total, ih, Nat.add_assoc]

theorem total_take_succ {s : Slot} (h : ss[k]? = some s) :
    total (ss.take (k + 1)) = total (ss.take k) + s.size := by
  rw [List.take_add_one, total_append, h]
  simp [total]

theorem total_take_mono (ss : List Slot) {i j : Nat} (h : i ≤ j) :
    total (ss.take i) ≤ total (ss.take j) := by
  obtain ⟨n, rfl⟩ := Nat.exists_eq_add_of_le h
  rw [List.take_add, total_append]
  omega

theorem getElem?_offsetsFrom (p : Nat) (ss : List Slot) (k : Nat) :
    (offsetsFrom p ss)[k]? = if k < ss.length then some (p + total (ss.take k)) else none := by
  induction ss generalizing p k with
  | nil => simp [offsetsFrom]
  | cons s ss ih =>
    cases k with
    | zero => simp [offsetsFrom, total]
    | succ k =>
      simp only [offsetsFrom, List.getElem?_cons_succ, ih, List.length_cons, List.take_succ_cons,
        total, Nat.add_lt_add_iff_right, Nat.add_assoc]

/-- A target behind the last piece counts as the first one. -/
def landing (ss : List Slot) (d : Nat) : Nat := if d < ss.length then d else 0

theorem offset_of_place (ss : List Slot) (d : Nat) :
    (place ss).1[d]?.getD 0 = total (ss.take (landing ss d)) := by
  simp only [place_eq, List.getElem?_toArray, getElem?_offsetsFrom, landing]
  split <;> simp [total]

/-! ## Settled slots -/

/-- A short branch at place `k` reaches the piece at place `d`. -/
def ShortReaches (ss : List Slot) (k d : Nat) : Prop :=
  -128 ≤ (total (ss.take (landing ss d)) : Int) - (total (ss.take k) + shortSize : Nat) ∧
    (total (ss.take (landing ss d)) : Int) - (total (ss.take k) + shortSize : Nat) ≤ 127

/-- **Every short branch reaches its target.** -/
def Settled (ss : List Slot) : Prop := ∀ k d, ss[k]? = some ⟨.branch d, false⟩ → ShortReaches ss k d

theorem isCramped_iff {s : Slot} (hs : ss[k]? = some s) : isCramped (place ss).1 k s = true ↔
    ∃ d, s = ⟨.branch d, false⟩ ∧ ¬ ShortReaches ss k d := by
  obtain ⟨piece, long⟩ := s
  have lt : k < ss.length := (List.getElem?_eq_some_iff.1 hs).1
  cases piece with
  | fixed n => simp [isCramped]
  | branch d =>
    cases long with
    | true => simp [isCramped]
    | false =>
      have here : landing ss k = k := if_pos lt
      have reach : reachesShort (displacement (place ss).1 k shortSize d) = true ↔
          ShortReaches ss k d := by
        simp [reachesShort, displacement, offset_of_place, here, ShortReaches]
      simp [isCramped, ← reach]

theorem settled_iff : anyCramped (place ss).1 ss = false ↔ Settled ss := by
  simp only [anyCramped, List.any_eq_false, Prod.forall, List.mem_zipIdx_iff_getElem?]
  constructor
  · intro none k d hk
    by_contra far
    exact none _ k hk ((isCramped_iff hk).2 ⟨d, rfl, far⟩)
  · intro settled s k hk cramped
    obtain ⟨d, rfl, far⟩ := (isCramped_iff hk).1 cramped
    exact far (settled k d hk)

/-! ## Wider choices -/

/-- The same piece, and long if the other one is. -/
def Slot.Wider (s s' : Slot) : Prop := s'.piece = s.piece ∧ (s.long = true → s'.long = true)

/-- **The same pieces, with every branch long that is long in `ss`.** -/
abbrev Wider (ss ss' : List Slot) : Prop := List.Forall₂ Slot.Wider ss ss'

theorem Slot.Wider.size_le {s s' : Slot} (h : s.Wider s') : s.size ≤ s'.size := by
  obtain ⟨form, long⟩ := s
  obtain ⟨form', long'⟩ := s'
  obtain ⟨rfl, hl⟩ := h
  cases form' with
  | fixed n => exact Nat.le_refl n
  | branch d =>
    cases long with
    | false => cases long' <;> simp [size, shortSize, longSize]
    | true =>
      have : long' = true := hl rfl
      simp [size, this]

theorem Wider.refl (ss : List Slot) : Wider ss ss := List.forall₂_same.2 fun _ _ => ⟨rfl, id⟩

theorem Wider.trans {ss'' : List Slot} (h : Wider ss ss') (h' : Wider ss' ss'') : Wider ss ss'' := by
  induction h generalizing ss'' with
  | nil => exact h'
  | cons hs _ ih =>
    cases h' with
    | cons hs' hss' => exact .cons ⟨hs'.1.trans hs.1, fun hl => hs'.2 (hs.2 hl)⟩ (ih hss')

theorem wider_iff : Wider ss ss' ↔ ss.length = ss'.length ∧
    ∀ (k : Nat) (s s' : Slot), ss[k]? = some s → ss'[k]? = some s' → s.Wider s' := by
  rw [Wider, List.forall₂_iff_get]
  refine and_congr_right fun _ => ⟨fun h k s s' hk hk' => ?_, fun h k hk hk' => ?_⟩
  · obtain ⟨lt, rfl⟩ := List.getElem?_eq_some_iff.1 hk
    obtain ⟨lt', rfl⟩ := List.getElem?_eq_some_iff.1 hk'
    exact h k lt lt'
  · exact h k _ _ (List.getElem?_eq_getElem hk) (List.getElem?_eq_getElem hk')

/-- What stands between two places takes no less code in the wider choice. -/
theorem Wider.gap (h : Wider ss ss') {i j : Nat} (hij : i ≤ j) :
    total (ss.take j) + total (ss'.take i) ≤ total (ss'.take j) + total (ss.take i) := by
  induction h generalizing i j with
  | nil => simp [total]
  | cons hs hss ih =>
    cases j with
    | zero =>
      have : i = 0 := by omega
      simp [this]
    | succ j =>
      cases i with
      | zero =>
        have := ih (Nat.zero_le j)
        have := hs.size_le
        simp only [List.take_zero, List.take_succ_cons, total] at *
        omega
      | succ i =>
        have := ih (Nat.le_of_succ_le_succ hij)
        simp only [List.take_succ_cons, total]
        omega

theorem Wider.take_le (h : Wider ss ss') (k : Nat) : total (ss.take k) ≤ total (ss'.take k) := by
  simpa [total] using h.gap (Nat.zero_le k)

theorem Wider.total_le (h : Wider ss ss') : total ss ≤ total ss' := by
  have := h.take_le ss.length
  rwa [List.take_length, h.length_eq, List.take_length] at this

/-- **A short branch that reaches its target reaches it with less code around it too.** Forward the
way starts behind the branch, backward in front of it: the branch itself has the same size in both
choices. -/
theorem Wider.reaches (h : Wider ss ss') (hk : ss[k]? = some ⟨.branch d, false⟩)
    (hk' : ss'[k]? = some ⟨.branch d, false⟩) (reach : ShortReaches ss' k d) :
    ShortReaches ss k d := by
  have next := total_take_succ hk
  have next' := total_take_succ hk'
  have land : landing ss' d = landing ss d := by simp [landing, h.length_eq]
  simp only [ShortReaches, land, shortSize, Slot.size] at *
  rcases Nat.lt_or_ge k (landing ss d) with forward | backward
  · have gap := h.gap (Nat.succ_le_of_lt forward)
    have := total_take_mono ss (Nat.succ_le_of_lt forward)
    simp only [Nat.succ_eq_add_one] at gap this
    simp at next next'
    omega
  · have gap := h.gap backward
    have := total_take_mono ss backward
    omega

/-! ## One pass -/

/-- The slots after a pass. -/
def pass (ss : List Slot) : List Slot := widen (place ss).1 ss

theorem getElem?_pass (ss : List Slot) (k : Nat) : (pass ss)[k]? =
    ss[k]?.map fun s => if isCramped (place ss).1 k s then { s with long := true } else s := by
  rw [pass, widen, List.getElem?_mapIdx]

theorem length_pass (ss : List Slot) : (pass ss).length = ss.length := by
  rw [pass, widen, List.length_mapIdx]

theorem wider_pass (ss : List Slot) : Wider ss (pass ss) := by
  refine wider_iff.2 ⟨(length_pass ss).symm, fun k s s' hk hk' => ?_⟩
  rw [getElem?_pass, hk, Option.map_some, Option.some.injEq] at hk'
  subst hk'
  split <;> simp [Slot.Wider]

/-- **A pass stays below every settled choice**: what is cramped is long there. -/
theorem Wider.pass (h : Wider ss ss') (settled : Settled ss') : Wider (pass ss) ss' := by
  obtain ⟨len, wider⟩ := wider_iff.1 h
  refine wider_iff.2 ⟨(length_pass ss).trans len, fun k s s' hk hk' => ?_⟩
  rw [getElem?_pass] at hk
  obtain ⟨r, hr, rfl⟩ := Option.map_eq_some_iff.1 hk
  have hw := wider k r s' hr hk'
  split
  · rename_i cramped
    refine ⟨hw.1, fun _ => ?_⟩
    obtain ⟨d, rfl, far⟩ := (isCramped_iff hr).1 cramped
    obtain ⟨piece, long⟩ := s'
    cases long with
    | true => rfl
    | false =>
      obtain ⟨rfl, -⟩ := hw
      exact absurd (h.reaches hr hk' (settled k d hk')) far
  · exact hw

/-- A branch in its short form. -/
def Slot.isShort (s : Slot) : Bool := s.piece.isBranch && !s.long

/-- How many branches are short. -/
def shorts (ss : List Slot) : Nat := ss.countP (·.isShort)

theorem Slot.Wider.isShort {s s' : Slot} (h : s.Wider s') (hs : s'.isShort = true) :
    s.isShort = true := by
  obtain ⟨same, hl⟩ := h
  simp only [Slot.isShort, Bool.and_eq_true, Bool.not_eq_true'] at hs ⊢
  refine ⟨same ▸ hs.1, ?_⟩
  cases long : s.long with
  | false => rfl
  | true => simp [hl long] at hs

theorem Wider.shorts_le (h : Wider ss ss') : shorts ss' ≤ shorts ss := by
  induction h with
  | nil => exact Nat.le_refl _
  | @cons s s' ss ss' hs _ ih =>
    have := hs.isShort
    simp only [shorts, List.countP_cons] at ih ⊢
    cases h' : s'.isShort with
    | false => simp; omega
    | true => simp [this h']; omega

theorem Wider.shorts_lt (h : Wider ss ss') (hk : ss[k]? = some ⟨.branch d, false⟩)
    (hk' : ss'[k]? = some ⟨.branch d, true⟩) : shorts ss' < shorts ss := by
  induction h generalizing k with
  | nil => simp at hk
  | @cons s s' ss ss' hs hss ih =>
    simp only [shorts, List.countP_cons] at ih ⊢
    cases k with
    | zero =>
      simp only [List.getElem?_cons_zero, Option.some.injEq] at hk hk'
      subst hk hk'
      have := Wider.shorts_le hss
      have short : (⟨.branch d, false⟩ : Slot).isShort = true := rfl
      have long : (⟨.branch d, true⟩ : Slot).isShort = false := rfl
      simp only [shorts] at this
      simp [short, long]
      omega
    | succ k =>
      have lt := ih (by simpa using hk) (by simpa using hk')
      have := hs.isShort
      cases h' : s'.isShort with
      | false => simp; omega
      | true => simp [this h']; omega

/-- A pass with a cramped branch leaves fewer short ones. -/
theorem shorts_pass (h : ¬ Settled ss) : shorts (pass ss) < shorts ss := by
  simp only [Settled, not_forall] at h
  obtain ⟨k, d, hk, far⟩ := h
  refine (wider_pass ss).shorts_lt hk ?_
  rw [getElem?_pass, hk, Option.map_some, if_pos ((isCramped_iff hk).2 ⟨d, rfl, far⟩)]

theorem settled_of_shorts (h : shorts ss = 0) : Settled ss := by
  intro k d hk
  have := List.countP_eq_zero.1 h _ (List.mem_of_getElem? hk)
  simp [Slot.isShort, Piece.isBranch] at this

/-! ## All passes -/

/-- **The passes of relaxation**: each computes the offsets anew, and either finds too much code, or
finds every branch content, or widens the cramped ones for the next pass. -/
inductive Passes : Nat → List Slot → Except Nat (List Slot) → Prop
  | tooMuch {ss : List Slot} : codeLimit < total ss → Passes 1 ss (.error (total ss))
  | settled {ss : List Slot} : total ss ≤ codeLimit → Settled ss → Passes 1 ss (.ok ss)
  | again {n : Nat} {ss : List Slot} {r : Except Nat (List Slot)} :
      total ss ≤ codeLimit → ¬ Settled ss → Passes n (pass ss) r → Passes (n + 1) ss r

/-- **Relaxation is these passes**, and ends within one for each short branch and one more. -/
theorem settle_passes {tries : Nat} (h : shorts ss ≤ tries) :
    ∃ n ≤ tries + 1, Passes n ss (settle tries ss) := by
  induction tries generalizing ss with
  | zero =>
    unfold settle
    simp only [place_eq]
    split
    · exact ⟨1, Nat.le_refl _, .tooMuch ‹_›⟩
    · exact ⟨1, Nat.le_refl _, .settled (Nat.not_lt.1 ‹_›) (settled_of_shorts (by omega))⟩
  | succ tries ih =>
    unfold settle
    simp only [place_eq]
    split
    · exact ⟨1, by omega, .tooMuch ‹_›⟩
    · rename_i fits
      have offsets : (offsetsFrom 0 ss).toArray = (place ss).1 := by rw [place_eq]
      rw [offsets]
      cases cramped : anyCramped (place ss).1 ss with
      | false =>
        simp only [Bool.false_eq_true, if_false]
        exact ⟨1, by omega, .settled (Nat.not_lt.1 fits) (settled_iff.1 cramped)⟩
      | true =>
        have open_ : ¬ Settled ss := fun settled => by simp [settled_iff.2 settled] at cramped
        have := shorts_pass open_
        have enough : shorts (pass ss) ≤ tries := by omega
        obtain ⟨n, hn, passes⟩ := ih enough
        simp only [if_true]
        exact ⟨n + 1, by omega, .again (Nat.not_lt.1 fits) open_ passes⟩

/-- What the passes end in: settled slots within the limit that are no wider than any settled choice,
or too much code in every settled choice. -/
def Least (ss : List Slot) : Except Nat (List Slot) → Prop
  | .ok r => Wider ss r ∧ Settled r ∧ total r ≤ codeLimit ∧
      ∀ ss', Wider ss ss' → Settled ss' → Wider r ss'
  | .error _ => ∀ ss', Wider ss ss' → Settled ss' → codeLimit < total ss'

/-- **The passes end in the least settled choice.** -/
theorem Passes.least {n : Nat} {r : Except Nat (List Slot)} (h : Passes n ss r) : Least ss r := by
  induction h with
  | tooMuch large => exact fun ss' wider _ => Nat.lt_of_lt_of_le large wider.total_le
  | settled fits settled => exact ⟨.refl _, settled, fits, fun ss' wider _ => wider⟩
  | @again n ss r _ _ _ ih =>
    cases r with
    | error size => exact fun ss' wider settled => ih ss' (wider.pass settled) settled
    | ok r =>
      obtain ⟨above, settled, fits, least⟩ := ih
      refine ⟨(wider_pass ss).trans above, settled, fits, fun ss' wider settled' => ?_⟩
      exact least ss' (wider.pass settled') settled'

theorem shorts_allShort (pieces : List Piece) :
    shorts (pieces.map fun p => ⟨p, false⟩) = pieces.countP (·.isBranch) := by
  rw [shorts, List.countP_map]
  simp [Function.comp_def, Slot.isShort]

/-- Solving starts with every branch short and takes a pass for each of them and one more. -/
theorem solve_passes (pieces : List Piece) : ∃ n ≤ pieces.countP (·.isBranch) + 1,
    Passes n (pieces.map fun p => ⟨p, false⟩) (solve pieces) :=
  settle_passes (Nat.le_of_eq (shorts_allShort pieces))

end CilProbes.Relax
