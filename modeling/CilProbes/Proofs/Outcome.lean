import CilProbes.Instruction
import CilProbes.Locator
import CilProbes.Log
import Mathlib.Data.List.Forall2

/-!
# Computations that may fail

`Computes f P g`: `f` succeeds exactly on the arguments with `P` and gives `g` of them. The three
ways in which a codec runs a step over many items keep the form: `Computes.mapM` over a list,
`Computes.operand` over the targets of an operand, and `bind_ok` for one step behind another.
`Logged.Yields` says what a computation with a log gives, whatever it notes; `Logged.Total` says that
it does not fail, and `Logged.Same` that two computations have one outcome.
-/

namespace CilProbes

variable {ε α β γ : Type}

theorem bind_ok {x : Except ε α} {f : α → Except ε β} {b : β} :
    x >>= f = .ok b ↔ ∃ a, x = .ok a ∧ f a = .ok b := by
  cases x with
  | error e =>
    refine ⟨nofun, ?_⟩
    rintro ⟨_, h, -⟩
    cases h
  | ok a =>
    refine ⟨fun h => ⟨a, rfl, h⟩, ?_⟩
    rintro ⟨_, h, h'⟩
    cases h
    exact h'

theorem map_ok {x : Except ε α} {f : α → β} {b : β} :
    x.map f = .ok b ↔ ∃ a, x = .ok a ∧ b = f a := by
  cases x with
  | error e =>
    refine ⟨nofun, ?_⟩
    rintro ⟨_, h, -⟩
    cases h
  | ok a =>
    refine ⟨fun h => ⟨a, rfl, by cases h; rfl⟩, ?_⟩
    rintro ⟨_, h, rfl⟩
    cases h
    rfl

theorem mapM_ok {f : α → Except ε β} {as : List α} {bs : List β} :
    as.mapM f = .ok bs ↔ List.Forall₂ (fun a b => f a = .ok b) as bs := by
  induction as generalizing bs with
  | nil => cases bs <;> simp [pure, Except.pure]
  | cons a as ih =>
    rw [List.mapM_cons, bind_ok]
    constructor
    · rintro ⟨b, hb, h⟩
      obtain ⟨bs', hbs, h⟩ := bind_ok.1 h
      cases h
      exact .cons hb (ih.1 hbs)
    · intro h
      cases h with
      | cons hb hbs => exact ⟨_, hb, bind_ok.2 ⟨_, ih.2 hbs, rfl⟩⟩

/-- A computation with a known first result succeeds. -/
theorem ok_of_fst {x : Except ε (α × β)} {a : α} (h : x.toOption.map Prod.fst = some a) :
    ∃ b, x = .ok (a, b) := by
  cases x with
  | error e => cases h
  | ok r =>
    cases h
    exact ⟨r.2, rfl⟩

theorem ok_of_toOption {ε α : Type} [BEq α] [LawfulBEq α] {x : Except ε α} {a : α}
    (h : (x.toOption == some a) = true) : x = .ok a := by
  cases x with
  | error => simp [Except.toOption] at h
  | ok => simpa [Except.toOption] using h

/-- What holds of the second of each pair holds of every second. -/
theorem forall_of_forall₂ {R : α → β → Prop} {P : β → Prop} {as : List α} {bs : List β}
    (h : List.Forall₂ R as bs) (hP : ∀ a b, R a b → P b) : ∀ b ∈ bs, P b := by
  induction h with
  | nil => exact fun _ h => by cases h
  | cons hr _ ih => exact List.forall_mem_cons.2 ⟨hP _ _ hr, ih⟩

theorem map_eq_of_forall₂ {f : α → γ} {g : β → γ} {as : List α} {bs : List β}
    (h : List.Forall₂ (fun a b => g b = f a) as bs) : bs.map g = as.map f := by
  induction h with
  | nil => rfl
  | cons he _ ih => rw [List.map_cons, List.map_cons, he, ih]

/-- `f` succeeds exactly on the arguments with `P`, and gives `g` of them. -/
def Computes (f : α → Except ε β) (P : α → Prop) (g : α → β) : Prop :=
  ∀ a b, f a = .ok b ↔ P a ∧ b = g a

theorem Computes.of_eq {f : α → Except ε β} {P : α → Prop} {g : α → β} (h : Computes f P g) {a : α}
    (ha : P a) : f a = .ok (g a) :=
  (h a _).2 ⟨ha, rfl⟩

theorem Computes.mapM {f : α → Except ε β} {P : α → Prop} {g : α → β} (h : Computes f P g) :
    Computes (List.mapM f) (fun as => ∀ a ∈ as, P a) (List.map g) := by
  intro as bs
  induction as generalizing bs with
  | nil => simp [pure, Except.pure, eq_comm]
  | cons a as ih =>
    rw [List.mapM_cons, bind_ok]
    constructor
    · rintro ⟨b, hb, h'⟩
      obtain ⟨bs', hbs, h'⟩ := bind_ok.1 h'
      cases h'
      obtain ⟨ha, rfl⟩ := (h a b).1 hb
      obtain ⟨has, rfl⟩ := (ih bs').1 hbs
      exact ⟨List.forall_mem_cons.2 ⟨ha, has⟩, rfl⟩
    · rintro ⟨hall, rfl⟩
      obtain ⟨ha, has⟩ := List.forall_mem_cons.1 hall
      exact ⟨g a, h.of_eq ha, bind_ok.2 ⟨as.map g, (ih _).2 ⟨has, rfl⟩, rfl⟩⟩

theorem Computes.operand {f : α → Except ε β} {P : α → Prop} {g : α → β} (h : Computes f P g) :
    Computes (Operand.mapM f) (fun o => ∀ t ∈ o.targets, P t) (Operand.map g) := by
  intro o o'
  cases o with
  | target t =>
    simp only [Operand.mapM, map_ok, h t, Operand.targets, List.mem_singleton, forall_eq,
      Operand.map]
    constructor
    · rintro ⟨_, ⟨hp, rfl⟩, ho⟩
      exact ⟨hp, ho⟩
    · rintro ⟨hp, ho⟩
      exact ⟨_, ⟨hp, rfl⟩, ho⟩
  | switch ts =>
    simp only [Operand.mapM, map_ok, h.mapM ts, Operand.targets, Operand.map]
    constructor
    · rintro ⟨_, ⟨hp, rfl⟩, ho⟩
      exact ⟨hp, ho⟩
    · rintro ⟨hp, ho⟩
      exact ⟨_, ⟨hp, rfl⟩, ho⟩
  | _ => simp [Operand.mapM, Operand.targets, Operand.map, eq_comm]

/-! ## Computations with a log -/

namespace Logged

/-- The computation succeeds with a result, on some log. -/
def Yields (l : Logged α) (a : α) : Prop := ∃ before after, l.run.run before = (.ok a, after)

theorem yields_of_runOn {l : Logged α} {a : α} (h : l.runOn.1 = .ok a) : l.Yields a :=
  ⟨[], l.runOn.2, Prod.ext h rfl⟩

theorem yields_pure {a b : α} (h : (pure a : Logged α).Yields b) : b = a := by
  obtain ⟨before, after, h⟩ := h
  cases h
  rfl

theorem yields_bind {l : Logged α} {f : α → Logged β} {b : β} (h : (l >>= f).Yields b) :
    ∃ a, l.Yields a ∧ (f a).Yields b := by
  obtain ⟨before, after, h⟩ := h
  have h : (ExceptT.bindCont f (l.run.run before).1).run (l.run.run before).2 = (.ok b, after) := h
  cases hl : (l.run.run before).1 with
  | error e =>
    rw [hl] at h
    cases h
  | ok a =>
    rw [hl] at h
    exact ⟨a, ⟨before, _, Prod.ext hl rfl⟩, _, after, h⟩

theorem yields_lift {x : Except Fault α} {a : α} (h : (liftM x : Logged α).Yields a) :
    x = .ok a := by
  obtain ⟨before, after, h⟩ := h
  cases x with
  | error e => cases h
  | ok b =>
    cases h
    rfl

/-- **What a loop keeps**: if each step passes a property on, from the entries done to these and the
next one, the loop reaches it for all entries. -/
theorem yields_foldlM {f : β → α → Logged β} {l : List α} {b b' : β} {P : List α → β → Prop}
    (h : (l.foldlM f b).Yields b') (start : P [] b)
    (step : ∀ done a rest b b', l = done ++ a :: rest → P done b → (f b a).Yields b' →
      P (done ++ [a]) b') : P l b' := by
  suffices ∀ rest done b, l = done ++ rest → P done b → (rest.foldlM f b).Yields b' → P l b' from
    this l [] b rfl start h
  intro rest
  induction rest with
  | nil =>
    intro done b e hP h
    rw [List.append_nil] at e
    rw [yields_pure h, e]
    exact hP
  | cons a rest ih =>
    intro done b e hP h
    rw [List.foldlM_cons] at h
    obtain ⟨b₁, hb₁, h⟩ := yields_bind h
    exact ih (done ++ [a]) b₁ (by rw [e]; simp) (step done a rest b b₁ e hP hb₁) h

/-! ### Computations that cannot fail -/

/-- The computation succeeds, whatever was noted before. -/
def Total (l : Logged α) : Prop := ∀ before, ∃ a after, l.run.run before = (.ok a, after)

theorem Total.runOn {l : Logged α} (h : l.Total) : ∃ a, l.runOn.1 = .ok a := by
  obtain ⟨a, after, e⟩ := h []
  exact ⟨a, congrArg Prod.fst e⟩

theorem total_pure (a : α) : (pure a : Logged α).Total := fun before => ⟨a, before, rfl⟩

theorem total_note (e : LogEvent) : (note e).Total := fun before => ⟨(), before ++ [e], rfl⟩

theorem total_lift {x : Except Fault α} {a : α} (h : x = .ok a) : (liftM x : Logged α).Total := by
  subst h
  exact fun before => ⟨a, before, rfl⟩

theorem total_bind {l : Logged α} {f : α → Logged β} (hl : l.Total)
    (hf : ∀ a, l.Yields a → (f a).Total) : (l >>= f).Total := by
  intro before
  obtain ⟨a, after, e⟩ := hl before
  obtain ⟨b, last, e'⟩ := hf a ⟨before, after, e⟩ after
  refine ⟨b, last, ?_⟩
  show (ExceptT.bindCont f (l.run.run before).1).run (l.run.run before).2 = _
  rw [e]
  exact e'

/-- A loop of steps that cannot fail cannot fail. -/
theorem total_foldlM {f : β → α → Logged β} (step : ∀ b a, (f b a).Total) (l : List α) (b : β) :
    (l.foldlM f b).Total := by
  induction l generalizing b with
  | nil => exact total_pure b
  | cons a l ih =>
    rw [List.foldlM_cons]
    exact total_bind (step b a) fun b' _ => ih b'

/-! ### Computations with the same outcome -/

section
variable {l l' : Logged α} {f f' : α → Logged β}

/-- The computations have the same outcome, whatever was noted before and whatever they note. -/
def Same (l l' : Logged α) : Prop :=
  ∀ before before', (l.run.run before).1 = (l'.run.run before').1

theorem Same.runOn (h : l.Same l') : l.runOn.1 = l'.runOn.1 := h [] []

theorem Same.symm (h : l.Same l') : l'.Same l := fun before before' => (h before' before).symm

theorem Same.trans {l'' : Logged α} (h : l.Same l') (h' : l'.Same l'') : l.Same l'' :=
  fun before before' => (h before []).trans (h' [] before')

theorem same_pure (a : α) : (pure a : Logged α).Same (pure a) := fun _ _ => rfl

theorem same_lift (x : Except Fault α) : (liftM x : Logged α).Same (liftM x) := by
  cases x <;> exact fun _ _ => rfl

theorem same_bind (hl : l.Same l') (hf : ∀ a, l.Yields a → (f a).Same (f' a)) :
    (l >>= f).Same (l' >>= f') := by
  intro before before'
  show ((ExceptT.bindCont f (l.run.run before).1).run (l.run.run before).2).1
    = ((ExceptT.bindCont f' (l'.run.run before').1).run (l'.run.run before').2).1
  rw [← hl before before']
  cases h : (l.run.run before).1 with
  | error e => rfl
  | ok a => exact hf a ⟨before, _, Prod.ext h rfl⟩ _ _

/-- What is noted first does not matter. -/
theorem same_noted (e : LogEvent) (h : l.Same l') : (do note e; l).Same l' :=
  fun before before' => h (before ++ [e]) before'

/-- A loop has the same outcome on any log if its steps do. -/
theorem same_foldlM {f : β → α → Logged β} (step : ∀ b a, (f b a).Same (f b a)) (l : List α)
    (b : β) : (l.foldlM f b).Same (l.foldlM f b) := by
  induction l generalizing b with
  | nil => exact same_pure b
  | cons a l ih =>
    rw [List.foldlM_cons]
    exact same_bind (step b a) fun b' _ => ih b'

/-- **A loop without the entries that do nothing** has the same outcome: each step is the same, or it
is left out and changes nothing. -/
theorem same_foldlM_filter {f g : β → α → Logged β} {keep : α → Bool} {l : List α} {b : β}
    {P : List α → β → Prop} (start : P [] b)
    (step : ∀ done a rest b, l = done ++ a :: rest → P done b →
      (∀ b', (f b a).Yields b' → P (done ++ [a]) b') ∧
      (f b a).Same (if keep a then g b a else pure b)) :
    (l.foldlM f b).Same ((l.filter keep).foldlM g b) := by
  suffices ∀ rest done b, l = done ++ rest → P done b →
      (rest.foldlM f b).Same ((rest.filter keep).foldlM g b) from this l [] b rfl start
  intro rest
  induction rest with
  | nil => exact fun _ b _ _ => same_pure b
  | cons a rest ih =>
    intro done b e hP
    obtain ⟨next, same⟩ := step done a rest b e hP
    have split : ((a :: rest).filter keep).foldlM g b
        = (if keep a then g b a else pure b) >>= (rest.filter keep).foldlM g := by
      rw [List.filter_cons]
      cases keep a <;> simp
    rw [List.foldlM_cons, split]
    exact same_bind same fun b' hb' => ih (done ++ [a]) b' (by rw [e]; simp) (next b' hb')

end

end Logged

/-! ## Locators -/

namespace Locator

theorem size_fill (start : Nat) (keys : List Nat) (a : Array (Option Nat)) :
    (fill start keys a).size = a.size := by
  induction keys generalizing start a with
  | nil => rfl
  | cons k keys ih => rw [fill, ih, Array.size_setIfInBounds]

/-- The locator of distinct keys below a bound agrees with a search everywhere. -/
theorem find?_of_lt {bound : Nat} {keys : List Nat} (nodup : keys.Nodup)
    (below : ∀ k ∈ keys, k < bound) (k : Nat) : (ofKeys bound keys).find? k = keys.idxOf? k := by
  rcases Nat.lt_or_ge k bound with hk | hk
  · exact find?_ofKeys nodup hk
  · have absent : keys.idxOf? k = none := by
      rw [List.idxOf?_eq_none_iff]
      exact fun hm => absurd (below k hm) (by omega)
    rw [absent, find?, Array.getElem?_eq_none]
    · rfl
    · simpa [ofKeys, size_fill] using hk

theorem idxOf?_eq_some {keys : List Nat} {k i : Nat} :
    keys.idxOf? k = some i ↔ k ∈ keys ∧ i = keys.idxOf k := by
  induction keys generalizing i with
  | nil => simp
  | cons j keys ih =>
    rw [List.idxOf?_cons, List.idxOf_cons]
    by_cases h : j = k
    · simp [h, eq_comm]
    · have h' : k ≠ j := fun e => h e.symm
      simp only [beq_eq_false_iff_ne.2 h, Bool.false_eq_true, if_false, Option.map_eq_some_iff, ih,
        List.mem_cons, h', false_or, cond_false]
      constructor
      · rintro ⟨_, ⟨hm, rfl⟩, hi⟩
        exact ⟨hm, hi.symm⟩
      · rintro ⟨hm, hi⟩
        exact ⟨_, ⟨hm, rfl⟩, hi.symm⟩

theorem find?_eq_some {bound : Nat} {keys : List Nat} (nodup : keys.Nodup)
    (below : ∀ k ∈ keys, k < bound) {k i : Nat} :
    (ofKeys bound keys).find? k = some i ↔ k ∈ keys ∧ i = keys.idxOf k := by
  rw [find?_of_lt nodup below, idxOf?_eq_some]

end Locator

end CilProbes
