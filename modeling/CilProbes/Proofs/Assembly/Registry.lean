import CilProbes.Assembly.Registry
import Mathlib.Data.List.Dedup
import Mathlib.Order.Compare

/-!
# The registry as a set

A registry keeps its references in ascending order and each once, so it is determined by which
references were recorded, and not by the order or the number of the records.

* `Registry.Holds`: the registry of some recorded references; `Holds.record` for one more.
* `Holds.unique`: there is one such registry.
* `between_iff`: between the least and the greatest reference of a name lie those of that name.
* `Holds.mem_byName`, `Holds.byName_sorted`, `Holds.newest?_iff`: what is found by name.
-/

namespace CilProbes

open Std

/-! ## The order of references -/

instance : TransCmp AssemblyVersion.compare :=
  inferInstanceAs (TransCmp (compareOn AssemblyVersion.numbers))

theorem AssemblyReference.compare_eq : compare = compareLex
    (compareLex (compareOn (·.name)) (compareOn (·.version.numbers))) (compareOn (·.token)) :=
  rfl

instance : TransCmp AssemblyReference.compare := by
  rw [AssemblyReference.compare_eq]
  infer_instance

instance : LawfulEqCmp AssemblyReference.compare where
  compare_self := ReflCmp.compare_self
  eq_of_compare := AssemblyReference.eq_of_compare

theorem isLE_then {o o' : Ordering} :
    (o.then o').isLE = true ↔ o.isLE = true ∧ (o = .eq → o'.isLE = true) := by
  cases o <;> simp

/-- Lists of which no entry is greater than its counterpart are in order. -/
theorem isLE_compare_of_forall₂ {α : Type} [Ord α] {l l' : List α}
    (h : List.Forall₂ (fun x y => (compare x y).isLE = true) l l') :
    (compare l l').isLE = true := by
  induction h with
  | nil => rfl
  | cons first _ ih =>
    rw [List.compare_eq_compareLex, List.compareLex_cons_cons]
    exact isLE_then.2 ⟨first, fun _ => ih⟩

/-- A list of least entries is not behind any list of its length. -/
theorem isLE_replicate_compare {α : Type} [Ord α] {b : α} {l : List α} {n : Nat}
    (length : l.length = n) (least : ∀ x, (compare b x).isLE = true) :
    (compare (List.replicate n b) l).isLE = true := by
  refine isLE_compare_of_forall₂ ?_
  rw [← length, ← List.map_const', List.forall₂_map_left_iff, List.forall₂_same]
  exact fun x _ => least x

/-- A list of greatest entries is not in front of any list of its length. -/
theorem isLE_compare_replicate {α : Type} [Ord α] {b : α} {l : List α} {n : Nat}
    (length : l.length = n) (greatest : ∀ x, (compare x b).isLE = true) :
    (compare l (List.replicate n b)).isLE = true := by
  refine isLE_compare_of_forall₂ ?_
  rw [← length, ← List.map_const', List.forall₂_map_right_iff, List.forall₂_same]
  exact fun x _ => greatest x

namespace AssemblyReference

/-- **Between the least and the greatest reference of a name** lie those of that name, and no other:
neither those of a longer name nor those of a shorter one. -/
theorem between_iff {c : AssemblyReference} (length : c.token.length = publicKeyTokenSize)
    (name : String) :
    ((lowest name).compare c).isLE = true ∧ (c.compare (highest name)).isLE = true ↔
      c.name = name := by
  constructor
  · rintro ⟨low, high⟩
    have below : (Ord.compare name c.name).isLE = true := (isLE_then.1 (isLE_then.1 low).1).1
    have above : (Ord.compare c.name name).isLE = true := (isLE_then.1 (isLE_then.1 high).1).1
    exact LawfulEqCmp.eq_of_compare (OrientedCmp.isLE_antisymm above below)
  · rintro rfl
    have numbers : c.version.numbers.length = 4 := rfl
    have number (n : UInt16) : 0 ≤ n ∧ n ≤ 0xFFFF :=
      ⟨UInt16.le_iff_toNat_le.2 (Nat.zero_le _),
        UInt16.le_iff_toNat_le.2 (Nat.le_of_lt_succ n.toNat_lt)⟩
    have byte (b : UInt8) : 0 ≤ b ∧ b ≤ 0xFF :=
      ⟨UInt8.le_iff_toNat_le.2 (Nat.zero_le _),
        UInt8.le_iff_toNat_le.2 (Nat.le_of_lt_succ b.toNat_lt)⟩
    have oldest := isLE_replicate_compare numbers fun n => isLE_compare.2 (number n).1
    have newest := isLE_compare_replicate numbers fun n => isLE_compare.2 (number n).2
    have first := isLE_replicate_compare length fun b => isLE_compare.2 (byte b).1
    have last := isLE_compare_replicate length fun b => isLE_compare.2 (byte b).2
    have same : (Ord.compare c.name c.name).isLE = true := by simp
    exact ⟨isLE_then.2 ⟨isLE_then.2 ⟨same, fun _ => oldest⟩, fun _ => first⟩,
      isLE_then.2 ⟨isLE_then.2 ⟨same, fun _ => newest⟩, fun _ => last⟩⟩

end AssemblyReference

/-! ## Tokens -/

theorem Sha1.length_digest (message : Bytes) : (Sha1.digest message).length = 20 := by
  simp [Sha1.digest, Sha1.bigEndian]

/-- **A token has eight bytes**, whatever the key is. -/
theorem length_publicKeyToken (key : Bytes) :
    (publicKeyToken key).length = publicKeyTokenSize := by
  unfold publicKeyToken
  split_ifs with _ whole
  · exact List.length_replicate
  · exact whole
  · rw [List.length_take, List.length_reverse, Sha1.length_digest]
    rfl

/-! ## Recorded references -/

/-- The references to the assemblies of a module. -/
def ModuleAssemblies.all (a : ModuleAssemblies) : List AssemblyReference :=
  (a.own :: a.references).map (·.reference)

namespace Registry

/-- **The registry of the references recorded so far**: each of them once, in ascending order. -/
structure Holds (r : Registry) (known : List AssemblyReference) : Prop where
  sorted : r.entries.Pairwise fun a b => a.compare b = .lt
  mem : ∀ c, c ∈ r.entries ↔ c ∈ known
  token : ∀ c ∈ known, c.token.length = publicKeyTokenSize

theorem enter_sorted {a : AssemblyReference} {bs : List AssemblyReference}
    (sorted : bs.Pairwise fun a b => a.compare b = .lt) :
    (enter a bs).Pairwise fun a b => a.compare b = .lt := by
  induction bs with
  | nil => exact List.pairwise_singleton ..
  | cons b bs ih =>
    obtain ⟨first, rest⟩ := List.pairwise_cons.1 sorted
    cases h : a.compare b with
    | lt =>
      simp only [enter, h]
      refine .cons (fun c hc => ?_) sorted
      rcases List.mem_cons.1 hc with rfl | hc
      · exact h
      · exact TransCmp.lt_trans h (first c hc)
    | eq => simpa only [enter, h] using sorted
    | gt =>
      simp only [enter, h]
      refine .cons (fun c hc => ?_) (ih rest)
      rcases mem_enter.1 hc with rfl | hc
      · exact OrientedCmp.lt_of_gt h
      · exact first c hc

variable {r r' : Registry} {known known' : List AssemblyReference}

theorem holds_empty : empty.Holds [] := ⟨.nil, fun _ => Iff.rfl, fun _ h => by cases h⟩

/-- **A record adds its reference**, if it is new. -/
theorem Holds.record (h : r.Holds known) (a : AssemblyRecord) :
    (r.record a).2.Holds (known ++ [a.reference]) := by
  refine ⟨?_, fun c => ?_, fun c hc => ?_⟩
  · unfold Registry.record
    split
    · exact h.sorted
    · exact enter_sorted h.sorted
  · rw [mem_record, h.mem, List.mem_append, List.mem_singleton, or_comm]
  · rcases List.mem_append.1 hc with hc | hc
    · exact h.token c hc
    · rw [List.mem_singleton.1 hc]
      exact length_publicKeyToken a.publicKey

theorem Holds.recordAll (h : r.Holds known) (a : ModuleAssemblies) :
    (r.recordAll a).Holds (known ++ a.all) := by
  unfold Registry.recordAll ModuleAssemblies.all
  generalize a.own :: a.references = records
  induction records generalizing r known with
  | nil => simpa using h
  | cons a records ih =>
    have := ih (h.record a)
    rwa [List.append_assoc] at this

theorem Holds.nodup (h : r.Holds known) : r.entries.Nodup :=
  h.sorted.imp fun {a b} lt e => by
    have self : b.compare b = .eq := ReflCmp.compare_self
    rw [e, self] at lt
    cases lt

/-- **There is one registry of some references**, in whatever order and however often they were
recorded. -/
theorem Holds.unique (h : r.Holds known) (h' : r'.Holds known')
    (same : ∀ c, c ∈ known ↔ c ∈ known') : r = r' := by
  have perm : r.entries.Perm r'.entries := by
    rw [List.perm_ext_iff_of_nodup h.nodup h'.nodup]
    exact fun c => (h.mem c).trans ((same c).trans (h'.mem c).symm)
  have entries : r.entries = r'.entries := by
    refine perm.eq_of_pairwise (fun a b _ _ lt gt => ?_) h.sorted h'.sorted
    rw [OrientedCmp.gt_of_lt lt] at gt
    cases gt
  cases r
  cases r'
  rw [mk.injEq]
  exact entries

theorem Holds.size_eq (h : r.Holds known) : r.size = known.dedup.length := by
  refine List.Perm.length_eq ((List.perm_ext_iff_of_nodup h.nodup known.nodup_dedup).2 fun c => ?_)
  rw [h.mem, List.mem_dedup]

/-- **A record is new if its reference is.** -/
theorem Holds.record_new (h : r.Holds known) (a : AssemblyRecord) :
    (r.record a).1 = true ↔ a.reference ∉ known := by
  rw [← h.mem]
  unfold Registry.record
  split <;> simp [*]

/-! ## Queries by name -/

theorem Holds.mem_byName (h : r.Holds known) {name : String} {c : AssemblyReference} :
    c ∈ r.byName name ↔ c ∈ known ∧ c.name = name := by
  unfold byName between
  rw [List.mem_filter, h.mem, Bool.and_eq_true]
  exact and_congr_right fun hc => AssemblyReference.between_iff (h.token c hc) name

end Registry

/-- One reference is in front of another by version, or by token where the versions agree. -/
def AssemblyReference.Before (b c : AssemblyReference) : Prop :=
  b.version.compare c.version = .lt ∨ b.version = c.version ∧ Ord.compare b.token c.token = .lt

/-- **The newest of some references**: of the highest version the one with the least token. -/
def AssemblyReference.Newest (c : AssemblyReference) (l : List AssemblyReference) : Prop :=
  c ∈ l ∧ ∀ b ∈ l, b.version.compare c.version = .lt ∨
    b.version = c.version ∧ (Ord.compare c.token b.token).isLE = true

/-- It does not matter how often and in which order the references are given. -/
theorem AssemblyReference.newest_congr {c : AssemblyReference} {l l' : List AssemblyReference}
    (same : ∀ b, b ∈ l ↔ b ∈ l') : c.Newest l ↔ c.Newest l' := by
  simp only [Newest, same]

namespace Registry

variable {r : Registry} {known : List AssemblyReference} {name : String} {c : AssemblyReference}

/-- The assemblies of a name stand in order of version and token. -/
theorem Holds.byName_sorted (h : r.Holds known) :
    (r.byName name).Pairwise AssemblyReference.Before := by
  have sorted : (r.byName name).Pairwise fun b c => b.compare c = .lt := h.sorted.filter _
  refine sorted.imp_of_mem fun {b c} hb hc lt => ?_
  have names : b.name = c.name := (h.mem_byName.1 hb).2.trans (h.mem_byName.1 hc).2.symm
  unfold AssemblyReference.compare at lt
  rw [names, compare_self, Ordering.then_eq_lt] at lt
  exact lt.imp_right fun e => ⟨AssemblyVersion.eq_of_compare e.1, e.2⟩

/-- There is one newest reference of a name. -/
theorem newest_unique {l : List AssemblyReference} {b : AssemblyReference} (names : b.name = c.name)
    (hb : b.Newest l) (hc : c.Newest l) : b = c := by
  have irrefl (v : AssemblyVersion) : v.compare v ≠ .lt :=
    fun lt => OrientedCmp.not_lt_of_lt lt lt
  have versions : b.version = c.version ∧ (Ord.compare c.token b.token).isLE = true := by
    refine (hc.2 b hb.1).resolve_left fun lt => ?_
    rcases hb.2 c hc.1 with lt' | ⟨same, -⟩
    · exact OrientedCmp.not_lt_of_lt lt lt'
    · exact irrefl _ (same ▸ lt)
  have tokens := ((hb.2 c hc.1).resolve_left (versions.1 ▸ irrefl _)).2
  have token : b.token = c.token :=
    LawfulEqCmp.eq_of_compare (OrientedCmp.isLE_antisymm tokens versions.2)
  cases b
  cases c
  rw [AssemblyReference.mk.injEq]
  exact ⟨names, versions.1, token⟩

/-- **The search for the newest one** finds it among references in order. -/
theorem exists_newest {f : Option AssemblyReference → AssemblyReference → Option AssemblyReference}
    (next : ∀ b a, f (some b) a = if a.version.compare b.version = .gt then some a else some b)
    {done l : List AssemblyReference} {b : AssemblyReference}
    (sorted : (done ++ l).Pairwise AssemblyReference.Before) (newest : b.Newest done) :
    ∃ c, l.foldl f (some b) = some c ∧ c.Newest (done ++ l) := by
  -- The one found so far is the newest of those that were looked at.
  induction l generalizing done b with
  | nil => exact ⟨b, rfl, by rwa [List.append_nil]⟩
  | cons a l ih =>
    have before : b.Before a :=
      (List.pairwise_append.1 sorted).2.2 b newest.1 a List.mem_cons_self
    rw [List.append_cons] at sorted ⊢
    rw [List.foldl_cons, next]
    split
    · rename_i higher
      have lower : b.version.compare a.version = .lt := OrientedCmp.lt_of_gt higher
      refine ih sorted ⟨List.mem_append_right _ List.mem_cons_self, fun x hx => ?_⟩
      rcases List.mem_append.1 hx with hx | hx
      · rcases newest.2 x hx with lt | ⟨same, -⟩
        · exact .inl (TransCmp.lt_trans lt lower)
        · exact .inl (same ▸ lower)
      · rw [List.mem_singleton.1 hx]
        exact .inr ⟨rfl, by simp⟩
    · rename_i notHigher
      obtain ⟨version, token⟩ := before.resolve_left fun lt => notHigher (OrientedCmp.gt_of_lt lt)
      refine ih sorted ⟨List.mem_append_left _ newest.1, fun x hx => ?_⟩
      rcases List.mem_append.1 hx with hx | hx
      · exact newest.2 x hx
      · rw [List.mem_singleton.1 hx]
        exact .inr ⟨version.symm, Ordering.isLE_of_eq_lt token⟩

/-- A search by name finds the newest assembly, unless there is none of the name. -/
theorem Holds.newest?_spec (h : r.Holds known) (name : String) :
    (r.byName name = [] ∧ r.newest? name = none) ∨
    ∃ c, r.newest? name = some c ∧ c.Newest (r.byName name) := by
  obtain ⟨f, fold, start, next⟩ : ∃ f : Option AssemblyReference → AssemblyReference →
      Option AssemblyReference, r.newest? name = (r.byName name).foldl f none ∧
        (∀ a, f none a = some a) ∧
        ∀ b a, f (some b) a = if a.version.compare b.version = .gt then some a else some b :=
    ⟨_, rfl, fun _ => rfl, fun _ _ => rfl⟩
  have sorted : (r.byName name).Pairwise AssemblyReference.Before := h.byName_sorted
  rw [fold]
  cases l : r.byName name with
  | nil => exact .inl ⟨rfl, rfl⟩
  | cons a as =>
    rw [l] at sorted
    have alone : a.Newest [a] := by
      refine ⟨List.mem_cons_self, fun x hx => ?_⟩
      rw [List.mem_singleton.1 hx]
      exact .inr ⟨rfl, by simp⟩
    rw [List.foldl_cons, start]
    exact .inr (exists_newest next (show ([a] ++ as).Pairwise _ from sorted) alone)

/-- **What is found is the newest assembly of a name.** -/
theorem Holds.newest?_iff (h : r.Holds known) :
    r.newest? name = some c ↔ c.Newest (r.byName name) := by
  constructor
  · intro found
    rcases h.newest?_spec name with ⟨-, e⟩ | ⟨b, e, newest⟩
    · rw [e] at found
      cases found
    · rw [e, Option.some.injEq] at found
      exact found ▸ newest
  · intro newest
    rcases h.newest?_spec name with ⟨e, -⟩ | ⟨b, e, newest'⟩
    · cases e ▸ newest.1
    · have names : b.name = c.name :=
        (h.mem_byName.1 newest'.1).2.trans (h.mem_byName.1 newest.1).2.symm
      rw [e, newest_unique names newest' newest]

/-- Nothing is found if and only if the name was never recorded. -/
theorem Holds.newest?_eq_none (h : r.Holds known) :
    r.newest? name = none ↔ ∀ c ∈ known, c.name ≠ name := by
  have nobody : r.byName name = [] ↔ ∀ c ∈ known, c.name ≠ name := by
    simp only [List.eq_nil_iff_forall_not_mem, h.mem_byName, not_and]
  rw [← nobody]
  rcases h.newest?_spec name with ⟨e, none⟩ | ⟨b, some, newest⟩
  · simp [e, none]
  · have ne : r.byName name ≠ [] := List.ne_nil_of_mem newest.1
    simp [some, ne]

end Registry

end CilProbes
