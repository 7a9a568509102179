/-! # Finite tables

A table holds one value for each of finitely many keys, in the order in which the keys first
arrived.

* `find?_insert`: the value just written is found, other keys keep theirs.
* `size_insert`: writing to a new key adds one entry, writing to a known one adds none.
-/

namespace CilProbes

/-- One value for each of finitely many keys. -/
structure Table (κ α : Type) where
  /-- The entries, in order of first arrival. -/
  entries : List (κ × α)
deriving DecidableEq, Repr

namespace Table

variable {κ α : Type} [DecidableEq κ]

/-- The table without entries. -/
def empty : Table κ α := ⟨[]⟩

instance : Inhabited (Table κ α) := ⟨empty⟩

instance : EmptyCollection (Table κ α) := ⟨empty⟩

def size (t : Table κ α) : Nat := t.entries.length

def find? (t : Table κ α) (k : κ) : Option α := t.entries.lookup k

/-- Writes over the entry of `k`, or adds one at the end. -/
def put (k : κ) (v : α) : List (κ × α) → List (κ × α)
  | [] => [(k, v)]
  | e :: es => if e.1 = k then (k, v) :: es else e :: put k v es

def insert (t : Table κ α) (k : κ) (v : α) : Table κ α := ⟨put k v t.entries⟩

/-- The table that holds a list of pairs; a later pair wins. -/
def ofList (es : List (κ × α)) : Table κ α :=
  es.foldl (fun t e => t.insert e.1 e.2) empty

@[simp] theorem find?_empty (k : κ) : (empty : Table κ α).find? k = none := rfl

private theorem lookup_put (k j : κ) (v : α) (es : List (κ × α)) :
    (put k v es).lookup j = if j = k then some v else es.lookup j := by
  induction es with
  | nil => by_cases h : j = k <;> simp [put, h]
  | cons e es ih =>
    obtain ⟨i, w⟩ := e
    by_cases hi : i = k
    · subst hi
      by_cases h : j = i
      · simp [put, h]
      · have hb : (j == i) = false := by simpa using h
        simp [put, List.lookup_cons, h, hb]
    · by_cases h : j = i
      · subst h
        simp [put, hi]
      · have hb : (j == i) = false := by simpa using h
        simp [put, hi, List.lookup_cons, hb, ih]

/-- **The value just written is found**, and other keys keep theirs. -/
theorem find?_insert (t : Table κ α) (k j : κ) (v : α) :
    (t.insert k v).find? j = if j = k then some v else t.find? j :=
  lookup_put k j v t.entries

theorem find?_insert_self (t : Table κ α) (k : κ) (v : α) : (t.insert k v).find? k = some v := by
  rw [find?_insert, if_pos rfl]

theorem find?_insert_of_ne (t : Table κ α) {k j : κ} (h : j ≠ k) (v : α) :
    (t.insert k v).find? j = t.find? j := by
  rw [find?_insert, if_neg h]

private theorem length_put (k : κ) (v : α) (es : List (κ × α)) :
    (put k v es).length = if (es.lookup k).isSome then es.length else es.length + 1 := by
  induction es with
  | nil => simp [put]
  | cons e es ih =>
    obtain ⟨i, w⟩ := e
    by_cases hi : i = k
    · subst hi
      simp [put]
    · have hb : (k == i) = false := by simpa using fun h => hi h.symm
      by_cases hs : (es.lookup k).isSome <;> simp [put, hi, List.lookup_cons, hb, ih, hs]

/-- **A new key adds one entry**, a known one none. -/
theorem size_insert (t : Table κ α) (k : κ) (v : α) :
    (t.insert k v).size = if (t.find? k).isSome then t.size else t.size + 1 :=
  length_put k v t.entries

end Table

end CilProbes
