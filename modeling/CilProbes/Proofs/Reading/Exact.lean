import CilProbes.Bytes.Reader

/-!
# Readers that read exactly a grammar

A grammar `G : Nat → Bytes → α → Prop` says which bytes stand for which value at a place of the
body. `Reads r G`: at every cursor inside its bytes, `r` ends with `a` if and only if the bytes
ahead start with bytes that stand for `a`, and it stops right behind them. Both directions are in
the one statement: a reader that accepts too much and one that refuses too much fail it alike.

* `Reads.pure`, `Reads.bind`, `Reads.map`, `Reads.field`, `Reads.fields`, `Reads.advance`: one
  fact for each way to build a reader.
* `Reads.guard`: a test for room in front of a reader that needs the room is not seen.
* `whileMore_iff`: items to the end of the bytes are a tiling of them (`Tiled`).
-/

namespace CilProbes

namespace Cursor

/-- The cursor `count` bytes on. -/
def skip (c : Cursor) (count : Nat) : Cursor := { c with pos := c.pos + count }

@[simp] theorem pos_skip (c : Cursor) (n : Nat) : (c.skip n).pos = c.pos + n := rfl

@[simp] theorem data_skip (c : Cursor) (n : Nat) : (c.skip n).data = c.data := rfl

theorem skip_skip (c : Cursor) (m n : Nat) : (c.skip m).skip n = c.skip (m + n) := by
  simp [skip, Nat.add_assoc]

theorem rest_skip (c : Cursor) (n : Nat) : (c.skip n).rest = c.rest.drop n := by
  simp [skip, rest]

/-- Behind a prefix of the bytes ahead the cursor is still inside. -/
theorem skip_inside {c : Cursor} {bs : Bytes} (inside : c.pos ≤ c.data.size)
    (h : bs <+: c.rest) : (c.skip bs.length).pos ≤ (c.skip bs.length).data.size := by
  have := h.length_le
  simp only [length_rest, remaining] at this
  simp only [pos_skip, data_skip]
  omega

end Cursor

theorem FixedWidth.toBytes_uint8 (b : UInt8) : toBytes b = [b] := by
  show [UInt8.ofNat b.toNat] = [b]
  rw [UInt8.ofNat_toNat]

theorem FixedWidth.take_append {α : Type} [FixedWidth α] (a : α) (n : Nat) (hn : width α = n)
    (rest : Bytes) : (toBytes a ++ rest).take n = toBytes a :=
  List.take_left' (hn ▸ length_toBytes a)

theorem FixedWidth.drop_append {α : Type} [FixedWidth α] (a : α) (n : Nat) (hn : width α = n)
    (rest : Bytes) : (toBytes a ++ rest).drop n = rest :=
  List.drop_left' (hn ▸ length_toBytes a)

namespace Reader

variable {α β : Type}

/-! ## Runs -/

/-- The outcome of a reader at a cursor. -/
def runAt (r : Reader α) (c : Cursor) : Except Fault α × Cursor := r.run.run c

theorem runAt_pure (a : α) (c : Cursor) : (pure a : Reader α).runAt c = (.ok a, c) := rfl

theorem runAt_look (f : Cursor → α) (c : Cursor) : (look f).runAt c = (.ok (f c), c) := rfl

theorem runAt_bind (r : Reader α) (f : α → Reader β) (c : Cursor) :
    (r >>= f).runAt c = match r.runAt c with
      | (.ok a, c') => (f a).runAt c'
      | (.error e, c') => (.error e, c') := by
  unfold runAt ExceptT.run StateT.run
  simp only [bind, ExceptT.bind, ExceptT.mk, StateT.bind, ExceptT.bindCont]
  cases r c with
  | mk outcome c' => cases outcome <;> rfl

theorem runAt_step (op : Cursor → Option (α × Cursor)) (fault : Fault) (c : Cursor) :
    (step op fault).runAt c = match op c with
      | some (a, c') => (.ok a, c')
      | none => (.error fault, c) := by
  show (match op c with
    | some (a, c') => ((.ok a, c') : Except Fault α × Cursor)
    | none => (.error fault, c)) = _
  cases op c <;> rfl

/-! ## Exact reading -/

/-- **A reader reads exactly a grammar**: `G p bs a` says that at place `p` the bytes `bs` stand
for `a`. -/
def Reads (r : Reader α) (G : Nat → Bytes → α → Prop) : Prop :=
  ∀ (c c' : Cursor) (a : α), c.pos ≤ c.data.size →
    (r.runAt c = (.ok a, c') ↔ ∃ bs, G c.pos bs a ∧ bs <+: c.rest ∧ c' = c.skip bs.length)

theorem Reads.congr {r : Reader α} {G G' : Nat → Bytes → α → Prop} (hr : r.Reads G)
    (h : ∀ p bs a, G p bs a ↔ G' p bs a) : r.Reads G' := by
  have : G = G' := funext fun p => funext fun bs => funext fun a => propext (h p bs a)
  exact this ▸ hr

theorem Reads.pure (a : α) : (Pure.pure a : Reader α).Reads fun _ bs b => bs = [] ∧ b = a := by
  intro c c' b _
  rw [runAt_pure]
  constructor
  · intro h
    cases h
    exact ⟨[], ⟨rfl, rfl⟩, List.nil_prefix, rfl⟩
  · rintro ⟨bs, ⟨rfl, rfl⟩, -, rfl⟩
    rfl

theorem Reads.throw (fault : Fault) :
    (MonadExcept.throw fault : Reader α).Reads fun _ _ _ => False := by
  intro c c' a _
  refine ⟨nofun, ?_⟩
  rintro ⟨_, h, -⟩
  exact h.elim

/-- One reader behind another: the bytes split between them. -/
theorem Reads.bind {r : Reader α} {f : α → Reader β} {G : Nat → Bytes → α → Prop}
    {F : α → Nat → Bytes → β → Prop} (hr : r.Reads G) (hf : ∀ a, (f a).Reads (F a)) :
    (r >>= f).Reads fun p bs b =>
      ∃ bs₁ bs₂ a, bs = bs₁ ++ bs₂ ∧ G p bs₁ a ∧ F a (p + bs₁.length) bs₂ b := by
  intro c c' b inside
  rw [runAt_bind]
  constructor
  · intro h
    split at h
    · rename_i a c₁ h₁
      obtain ⟨bs₁, hg, hp, rfl⟩ := (hr c c₁ a inside).1 h₁
      obtain ⟨bs₂, hg', hp', rfl⟩ := (hf a _ c' b (Cursor.skip_inside inside hp)).1 h
      refine ⟨bs₁ ++ bs₂, ⟨bs₁, bs₂, a, rfl, hg, hg'⟩, ?_, ?_⟩
      · rw [Cursor.rest_skip] at hp'
        obtain ⟨t, ht⟩ := hp
        rw [← ht, List.drop_left] at hp'
        rw [← ht]
        exact (List.prefix_append_right_inj bs₁).2 hp'
      · rw [Cursor.skip_skip, List.length_append]
    · cases h
  · rintro ⟨_, ⟨bs₁, bs₂, a, rfl, hg, hg'⟩, ⟨t, ht⟩, rfl⟩
    have hp : bs₁ <+: c.rest := ⟨bs₂ ++ t, by rw [← List.append_assoc]; exact ht⟩
    rw [(hr c (c.skip bs₁.length) a inside).2 ⟨bs₁, hg, hp, rfl⟩]
    refine (hf a _ _ b (Cursor.skip_inside inside hp)).2 ⟨bs₂, hg', ?_, ?_⟩
    · rw [Cursor.rest_skip, ← ht, List.append_assoc, List.drop_left]
      exact List.prefix_append _ _
    · rw [Cursor.skip_skip, List.length_append]

theorem Reads.map {r : Reader α} {G : Nat → Bytes → α → Prop} (f : α → β) (hr : r.Reads G) :
    (f <$> r).Reads fun p bs b => ∃ a, G p bs a ∧ b = f a := by
  refine (hr.bind fun a => Reads.pure (f a)).congr fun p bs b => ⟨?_, ?_⟩
  · rintro ⟨bs₁, bs₂, a, rfl, hg, rfl, rfl⟩
    exact ⟨a, by simpa using hg, rfl⟩
  · rintro ⟨a, hg, rfl⟩
    exact ⟨bs, [], a, by simp, hg, rfl, rfl⟩

/-- What the cursor shows, if it hangs on the place alone. -/
theorem Reads.look {f : Cursor → α} (g : Nat → α) (h : ∀ c, f c = g c.pos) :
    (Reader.look f).Reads fun p bs a => bs = [] ∧ a = g p := by
  intro c c' a _
  rw [runAt_look, h]
  constructor
  · intro h
    cases h
    exact ⟨[], ⟨rfl, rfl⟩, List.nil_prefix, rfl⟩
  · rintro ⟨bs, ⟨rfl, rfl⟩, -, rfl⟩
    rfl

/-- A test for room in front of a reader that needs the room is not seen. The fault may hang on
the number of bytes that remain. -/
theorem Reads.guard {r : Reader α} {G : Nat → Bytes → α → Prop} (hr : r.Reads G) {n : Nat}
    (fault : Nat → Fault) (long : ∀ p bs a, G p bs a → n ≤ bs.length) :
    (do
      let remaining ← Reader.look Cursor.remaining
      if remaining < n then MonadExcept.throw (fault remaining)
      r).Reads G := by
  intro c c' a inside
  rw [runAt_bind, runAt_look]
  by_cases room : c.remaining < n
  · simp only [room, if_true, runAt_bind]
    refine ⟨nofun, ?_⟩
    rintro ⟨bs, hg, hp, -⟩
    have h₁ := hp.length_le
    have h₂ := long _ _ _ hg
    rw [Cursor.length_rest] at h₁
    omega
  · simp only [room, if_false]
    exact hr c c' a inside

/-- A refusal in front of a reader. -/
theorem Reads.refuse {r : Reader α} {G : Nat → Bytes → α → Prop} {P : Prop} [Decidable P]
    (fault : Fault) (hr : ¬ P → r.Reads G) :
    (do
      if P then MonadExcept.throw fault
      r).Reads fun p bs a => ¬ P ∧ G p bs a := by
  intro c c' a inside
  by_cases h : P
  · simp only [h, if_true, runAt_bind]
    refine ⟨nofun, ?_⟩
    rintro ⟨_, ⟨h', -⟩, -⟩
    exact absurd trivial h'
  · simp only [h, if_false, not_false_eq_true, true_and]
    exact hr h c c' a inside

/-! ## Fields and movements -/

theorem Reads.field (α : Type) [FixedWidth α] (fault : Fault) :
    (Reader.field α fault).Reads fun _ bs a => bs = FixedWidth.toBytes a := by
  intro c c' a inside
  rw [Reader.field, runAt_step, Cursor.read?, Cursor.take?_eq c _ inside]
  by_cases room : FixedWidth.width α ≤ c.remaining
  · have len : (c.rest.take (FixedWidth.width α)).length = FixedWidth.width α := by
      rw [List.length_take, Cursor.length_rest, Nat.min_eq_left room]
    simp only [room, if_true, Option.map_some]
    constructor
    · intro h
      cases h
      refine ⟨_, rfl, ?_, ?_⟩
      · rw [FixedWidth.toBytes_ofBytes len]
        exact List.take_prefix _ _
      · rw [FixedWidth.length_toBytes]
        rfl
    · rintro ⟨bs, rfl, hp, rfl⟩
      rw [List.prefix_iff_eq_take, FixedWidth.length_toBytes] at hp
      rw [← hp, FixedWidth.ofBytes_toBytes, FixedWidth.length_toBytes]
      rfl
  · simp only [room, if_false, Option.map_none]
    refine ⟨nofun, ?_⟩
    rintro ⟨bs, rfl, hp, -⟩
    have := hp.length_le
    rw [Cursor.length_rest, FixedWidth.length_toBytes] at this
    exact absurd this room

/-- A movement by a number of bytes that hangs on the place alone. -/
theorem Reads.advance {op : Cursor → Option Cursor} {n : Nat → Nat} (fault : Fault)
    (hop : ∀ c, op c = c.advance? (n c.pos)) :
    (Reader.move op fault).Reads fun p bs _ => bs.length = n p := by
  intro c c' a inside
  rw [Reader.move, runAt_step, hop, Cursor.advance?, Cursor.seek?]
  have le : c.pos + n c.pos ≤ c.data.size ↔ n c.pos ≤ c.rest.length := by
    rw [Cursor.length_rest, Cursor.remaining]
    omega
  by_cases room : c.pos + n c.pos ≤ c.data.size
  · simp only [room, if_true, Option.map_some]
    constructor
    · intro h
      cases h
      refine ⟨c.rest.take (n c.pos), ?_, List.take_prefix _ _, ?_⟩
      · rw [List.length_take, Nat.min_eq_left (le.1 room)]
      · rw [List.length_take, Nat.min_eq_left (le.1 room)]
        rfl
    · rintro ⟨bs, hn, -, rfl⟩
      rw [hn]
      rfl
  · simp only [room, if_false, Option.map_none]
    refine ⟨fun h => (by cases h), ?_⟩
    rintro ⟨bs, hn, hp, -⟩
    rw [le, ← hn] at room
    exact absurd hp.length_le room

theorem Reads.fields_go (α : Type) [FixedWidth α] (fault : Fault) (n : Nat) (done : List α) :
    (Reader.fields.go α fault n done).Reads fun _ bs as => ∃ new : List α,
      new.length = n ∧ bs = new.flatMap FixedWidth.toBytes ∧ as = done.reverse ++ new := by
  induction n generalizing done with
  | zero =>
    refine (Reads.pure done.reverse).congr fun p bs as => ⟨?_, ?_⟩
    · rintro ⟨rfl, rfl⟩
      exact ⟨[], rfl, rfl, by simp⟩
    · rintro ⟨new, hn, rfl, rfl⟩
      rw [List.length_eq_zero_iff.1 hn]
      simp
  | succ n ih =>
    refine ((Reads.field α fault).bind fun a => ih (a :: done)).congr fun p bs as => ⟨?_, ?_⟩
    · rintro ⟨_, _, a, rfl, rfl, new, hn, rfl, rfl⟩
      exact ⟨a :: new, by simp [hn], by simp, by simp⟩
    · rintro ⟨new, hn, rfl, rfl⟩
      obtain ⟨a, new, rfl⟩ := List.exists_cons_of_length_eq_add_one hn
      exact ⟨_, _, a, List.flatMap_cons, rfl, new, by simpa using hn, rfl, by simp⟩

/-- As many fields as asked for, one after the other. -/
theorem Reads.fields (α : Type) [FixedWidth α] (fault : Fault) (n : Nat) :
    (Reader.fields α fault n).Reads fun _ bs as =>
      as.length = n ∧ bs = as.flatMap FixedWidth.toBytes := by
  refine (Reads.fields_go α fault n []).congr fun p bs as => ⟨?_, ?_⟩
  · rintro ⟨new, hn, hb, rfl⟩
    exact ⟨hn, hb⟩
  · rintro ⟨hn, hb⟩
    exact ⟨as, hn, hb, rfl⟩

/-! ## Items to the end of the bytes -/

/-- From a place on, items stand one after the other and fill the bytes. -/
inductive Tiled (G : Nat → Bytes → α → Prop) : Nat → Bytes → List α → Prop
  | nil (p : Nat) : Tiled G p [] []
  | cons {p : Nat} {b bs : Bytes} {a : α} {as : List α} :
      G p b a → Tiled G (p + b.length) bs as → Tiled G p (b ++ bs) (a :: as)

section
variable {item : Reader α} {G : Nat → Bytes → α → Prop}
  (nonempty : ∀ p bs a, G p bs a → bs ≠ [])

include nonempty in
theorem Tiled.nil_iff {p : Nat} {as : List α} : Tiled G p [] as ↔ as = [] := by
  refine ⟨fun h => ?_, fun h => h ▸ .nil p⟩
  generalize hb : ([] : Bytes) = bs at h
  cases h with
  | nil => rfl
  | cons hg _ => exact absurd (List.append_eq_nil_iff.1 hb.symm).1 (nonempty _ _ _ hg)

include nonempty in
/-- `collect` with a try for every byte that remains. -/
theorem collect_iff (hi : item.Reads G) (tries : Nat) (done as : List α) (c : Cursor)
    (inside : c.pos ≤ c.data.size) (enough : c.remaining ≤ tries) :
    ((collect item tries done).runAt c).1 = .ok as ↔
      ∃ new, Tiled G c.pos c.rest new ∧ as = done.reverse ++ new := by
  induction tries generalizing done c with
  | zero =>
    have hr : c.rest = [] := by
      rw [← List.length_eq_zero_iff, Cursor.length_rest]
      omega
    simp only [collect, runAt_pure, hr, Tiled.nil_iff nonempty, Except.ok.injEq,
      exists_eq_left, List.append_nil, eq_comm]
  | succ tries ih =>
    rw [collect, runAt_bind, runAt_look, Cursor.hasMore_eq]
    by_cases hr : c.rest = []
    · simp only [hr, List.isEmpty_nil, Bool.not_true, Bool.false_eq_true, if_false, runAt_pure,
        Tiled.nil_iff nonempty, Except.ok.injEq, exists_eq_left, List.append_nil, eq_comm]
    · simp only [List.isEmpty_eq_false_iff.2 hr, Bool.not_false, if_true]
      rw [runAt_bind]
      constructor
      · intro h
        split at h
        · rename_i a c₁ h₁
          obtain ⟨b, hg, hp, rfl⟩ := (hi c c₁ a inside).1 h₁
          have hb := List.length_pos_iff.2 (nonempty _ _ _ hg)
          have fewer : (c.skip b.length).remaining ≤ tries := by
            simp only [Cursor.remaining, Cursor.pos_skip, Cursor.data_skip] at *
            omega
          obtain ⟨new, ht, rfl⟩ :=
            (ih (a :: done) (c.skip b.length) (Cursor.skip_inside inside hp) fewer).1 h
          refine ⟨a :: new, ?_, by simp⟩
          obtain ⟨t, ht'⟩ := hp
          rw [Cursor.rest_skip, ← ht', List.drop_left] at ht
          rw [← ht']
          exact .cons hg ht
        · cases h
      · rintro ⟨new, ht, rfl⟩
        generalize hb : c.rest = bs at ht
        cases ht with
        | nil => exact absurd hb hr
        | @cons _ b bs a as hg ht =>
          have hp : b <+: c.rest := ⟨bs, hb.symm⟩
          have hb' := List.length_pos_iff.2 (nonempty _ _ _ hg)
          have fewer : (c.skip b.length).remaining ≤ tries := by
            simp only [Cursor.remaining, Cursor.pos_skip, Cursor.data_skip] at *
            omega
          rw [(hi c (c.skip b.length) a inside).2 ⟨b, hg, hp, rfl⟩]
          refine (ih (a :: done) (c.skip b.length) (Cursor.skip_inside inside hp) fewer).2
            ⟨as, ?_, by simp⟩
          rw [Cursor.rest_skip, hb, List.drop_left]
          exact ht

include nonempty in
/-- **Items to the end of the bytes** are read if and only if they tile the bytes. -/
theorem whileMore_iff (hi : item.Reads G) (bs : Bytes) (as : List α) :
    (whileMore item).runOn bs = .ok as ↔ Tiled G 0 bs as := by
  have h := collect_iff nonempty hi (Cursor.ofBytes bs).remaining [] as (Cursor.ofBytes bs)
    (Nat.zero_le _) (Nat.le_refl _)
  simp only [Cursor.rest_ofBytes, List.reverse_nil, List.nil_append, exists_eq_right'] at h
  exact h

end

end Reader

end CilProbes
