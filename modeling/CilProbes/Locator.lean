/-! # Locators

A locator answers "at which place does this number stand in the list" in one step. It is built
once for a list of distinct numbers and then asked many times: for the instruction at a code
offset, or for the position of an instruction id.

* `find?_ofKeys`: on a list without repetitions the locator agrees with a search of the list.
-/

namespace CilProbes

/-- For each number below a bound, the place where it stands, if any. -/
structure Locator where
  places : Array (Option Nat)

namespace Locator

/-- Enters the keys one after the other, the first at place `start`. -/
def fill : Nat → List Nat → Array (Option Nat) → Array (Option Nat)
  | _, [], a => a
  | start, k :: ks, a => fill (start + 1) ks (a.setIfInBounds k (some start))

/-- The locator of a list of keys below `bound`; keys at or above it are not entered. -/
def ofKeys (bound : Nat) (keys : List Nat) : Locator :=
  ⟨fill 0 keys (Array.replicate bound none)⟩

def find? (l : Locator) (k : Nat) : Option Nat := l.places[k]?.getD none

private theorem getElem?_fill (start : Nat) (keys : List Nat) (a : Array (Option Nat)) (k : Nat)
    (nodup : keys.Nodup) (hk : k < a.size) :
    (fill start keys a)[k]?.getD none
      = match keys.idxOf? k with
        | some i => some (start + i)
        | none => a[k]?.getD none := by
  induction keys generalizing start a with
  | nil => rfl
  | cons j ks ih =>
    obtain ⟨hj, hn⟩ := List.nodup_cons.mp nodup
    rw [fill, ih _ _ hn (by simpa using hk), List.idxOf?_cons]
    by_cases h : j = k
    · subst h
      have : ks.idxOf? j = none := by simpa [List.idxOf?_eq_none_iff] using hj
      simp [this, hk]
    · have hb : (j == k) = false := by simpa using h
      cases hi : ks.idxOf? k with
      | none => simp [hb, h]
      | some i => simp [hb]; omega

/-- **The locator agrees with a search**, on keys below the bound that do not repeat. -/
theorem find?_ofKeys {bound : Nat} {keys : List Nat} {k : Nat} (nodup : keys.Nodup)
    (hk : k < bound) : (ofKeys bound keys).find? k = keys.idxOf? k := by
  rw [find?, ofKeys, getElem?_fill 0 keys _ k nodup (by simpa using hk)]
  cases keys.idxOf? k <;> simp [hk]

end Locator

end CilProbes
