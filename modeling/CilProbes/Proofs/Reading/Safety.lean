import CilProbes.Proofs.Reading.Body

/-!
# Decoding arbitrary bytes

What decoding does with bytes of which nothing is known: its readers go forward and stay in the
bytes, and what they refuse they refuse with a decode fault (`Reader.Safe`). Three reads fall back on
the fault of a byte string that is left: the first byte of an instruction, the payload of a section
that is skipped, and the position behind the code. A test in front of each makes that impossible.

* `safe_pure`, `safe_bind`, `safe_guard`, `safe_field`, `safe_move`: one rule for each way to build a
  reader.
* `safe_collect`, `safe_readUpTo`: the loop over the code and the loop over the sections, after any
  number of steps.
* `readUpTo_stable`, `collect_stable`: both loops end on their own; more tries change nothing.
* `decode_total`: the outcomes of decoding, and bounds on what it gives.
-/

namespace CilProbes

/-- A computation that fails with decode faults alone. -/
def Decodes {α : Type} (x : Except Fault α) : Prop :=
  ∀ fault, x = .error fault → ∃ cause, fault = .decode cause

/-- A position inside the bytes; their end is one too. -/
def Cursor.Inside (c : Cursor) : Prop := c.pos ≤ c.data.size

/-- **A cursor further on** in the same bytes, and inside them. -/
structure Cursor.Leads (c c' : Cursor) : Prop where
  data : c'.data = c.data
  forward : c.pos ≤ c'.pos
  inside : c'.Inside

/-- **A reader that is safe at a cursor**: wherever it ends, it has gone forward and is still inside
the bytes, and if it fails it does so with a decode fault. -/
def Reader.Safe {α : Type} (r : Reader α) (c : Cursor) : Prop :=
  c.Leads (r.runAt c).2 ∧ Decodes (r.runAt c).1

variable {α β : Type}

/-! ## Computations -/

theorem decodes_ok (a : α) : Decodes (.ok a : Except Fault α) := nofun

theorem decodes_error (cause : DecodeFault) : Decodes (.error (.decode cause) : Except Fault α) := by
  intro fault h
  cases h
  exact ⟨cause, rfl⟩

theorem decodes_bind {x : Except Fault α} {f : α → Except Fault β} (hx : Decodes x)
    (hf : ∀ a, x = .ok a → Decodes (f a)) : Decodes (x >>= f) := by
  cases x with
  | error fault =>
    intro fault' h
    cases h
    exact hx fault rfl
  | ok a => exact hf a rfl

theorem decodes_map {x : Except Fault α} (f : α → β) (hx : Decodes x) : Decodes (x.map f) := by
  cases x with
  | error fault =>
    intro fault' h
    cases h
    exact hx fault rfl
  | ok a => exact decodes_ok (f a)

theorem decodes_mapM {f : α → Except Fault β} (hf : ∀ a, Decodes (f a)) (as : List α) :
    Decodes (as.mapM f) := by
  induction as with
  | nil => exact decodes_ok []
  | cons a as ih =>
    rw [List.mapM_cons]
    exact decodes_bind (hf a) fun b _ => decodes_bind ih fun bs _ => decodes_ok (b :: bs)

theorem decodes_operand {f : α → Except Fault β} (hf : ∀ a, Decodes (f a)) (o : Operand α) :
    Decodes (o.mapM f) := by
  cases o with
  | target t => exact decodes_map _ (hf t)
  | switch ts => exact decodes_map _ (decodes_mapM hf ts)
  | _ => exact decodes_ok _

theorem Decodes.outcome {x : Except Fault α} (h : Decodes x) :
    (∃ a, x = .ok a) ∨ ∃ cause, x = .error (.decode cause) := by
  cases x with
  | ok a => exact .inl ⟨a, rfl⟩
  | error fault =>
    obtain ⟨cause, rfl⟩ := h fault rfl
    exact .inr ⟨cause, rfl⟩

/-! ## Cursors -/

namespace Cursor

variable {c c' c'' : Cursor}

theorem Leads.refl (inside : c.Inside) : c.Leads c := ⟨rfl, Nat.le_refl _, inside⟩

theorem Leads.trans (h : c.Leads c') (h' : c'.Leads c'') : c.Leads c'' :=
  ⟨h'.data.trans h.data, Nat.le_trans h.forward h'.forward, h'.inside⟩

theorem inside_ofBytes (bs : Bytes) : (ofBytes bs).Inside := Nat.zero_le _

/-- A movement that is not refused ends inside the bytes. -/
theorem leads_advance? {n : Nat} (h : c.advance? n = some c') : c.Leads c' := by
  unfold advance? seek? at h
  split at h
  · rename_i room
    cases h
    exact ⟨rfl, Nat.le_add_right .., room⟩
  · cases h

theorem isSome_advance? {n : Nat} (inside : c.Inside) (room : n ≤ c.remaining) :
    (c.advance? n).isSome := by
  unfold Inside at inside
  unfold remaining at room
  unfold advance? seek?
  rw [if_pos (by omega)]
  rfl

/-- **Bytes that are taken are in the string**: as many as asked for, and the cursor ends behind
them. -/
theorem take?_exact {n : Nat} {bs : Bytes} (inside : c.Inside) (h : c.take? n = some (bs, c')) :
    bs = c.rest.take n ∧ bs.length = n ∧ c.Leads c' := by
  rw [take?_eq c n inside] at h
  split at h
  · rename_i room
    cases h
    refine ⟨rfl, by rw [List.length_take, length_rest, Nat.min_eq_left room], rfl,
      Nat.le_add_right .., ?_⟩
    unfold Inside at inside ⊢
    unfold remaining at room
    show c.pos + n ≤ c.data.size
    omega
  · cases h

end Cursor

/-! ## Readers -/

namespace Reader

variable {r : Reader α} {c : Cursor}

theorem safe_pure (inside : c.Inside) (a : α) : (pure a : Reader α).Safe c :=
  ⟨.refl inside, decodes_ok a⟩

theorem safe_throw (inside : c.Inside) (cause : DecodeFault) :
    (throw (.decode cause) : Reader α).Safe c :=
  ⟨.refl inside, decodes_error cause⟩

theorem safe_look (inside : c.Inside) (f : Cursor → α) : (look f).Safe c :=
  ⟨.refl inside, decodes_ok (f c)⟩

/-- A reader behind another one. -/
theorem safe_bind {f : α → Reader β} (hr : r.Safe c)
    (hf : ∀ a c', r.runAt c = (.ok a, c') → c.Leads c' → (f a).Safe c') : (r >>= f).Safe c := by
  obtain ⟨leads, decodes⟩ := hr
  unfold Safe
  rw [runAt_bind]
  cases h : r.runAt c with
  | mk outcome c' =>
    rw [h] at leads decodes
    cases outcome with
    | ok a =>
      obtain ⟨leads', decodes'⟩ := hf a c' h leads
      exact ⟨leads.trans leads', decodes'⟩
    | error fault =>
      obtain ⟨cause, rfl⟩ := decodes fault rfl
      exact ⟨leads, decodes_error cause⟩

theorem safe_map (f : α → β) (hr : r.Safe c) : (f <$> r).Safe c :=
  safe_bind hr fun a _ _ leads => safe_pure leads.inside (f a)

/-- A refusal in front of a reader. -/
theorem safe_refuse {P : Prop} [Decidable P] (inside : c.Inside) (cause : DecodeFault)
    (hr : ¬ P → r.Safe c) : (do
      if P then throw (Fault.decode cause)
      r).Safe c := by
  by_cases h : P
  · simp only [h, if_true]
    exact safe_bind (safe_throw inside cause) fun _ _ e => by cases e
  · simp only [h, if_false]
    exact hr h

/-- A test for room in front of a reader that needs the room. -/
theorem safe_guard {n : Nat} (inside : c.Inside) (cause : Nat → DecodeFault)
    (hr : n ≤ c.remaining → r.Safe c) : (do
      let remaining ← look Cursor.remaining
      if remaining < n then throw (Fault.decode (cause remaining))
      r).Safe c := by
  refine safe_bind (safe_look inside _) fun remaining c' e _ => ?_
  cases e
  exact safe_refuse inside _ fun room => hr (Nat.not_lt.1 room)

/-- A field, with a decode fault or with room for it. -/
theorem safe_field (α : Type) [FixedWidth α] {fault : Fault} (inside : c.Inside)
    (known : (∃ cause, fault = .decode cause) ∨ FixedWidth.width α ≤ c.remaining) :
    (field α fault).Safe c := by
  unfold Safe field
  rw [runAt_step, Cursor.read?]
  cases taken : c.take? (FixedWidth.width α) with
  | some taken' => exact ⟨(Cursor.take?_exact inside taken).2.2, decodes_ok _⟩
  | none =>
    refine ⟨.refl inside, ?_⟩
    rcases known with ⟨cause, rfl⟩ | room
    · exact decodes_error cause
    · rw [Cursor.take?_eq c _ inside, if_pos room] at taken
      cases taken

/-- A field in front of a reader, with a decode fault. -/
theorem safe_field_then (α : Type) [FixedWidth α] {f : α → Reader β} (inside : c.Inside)
    (cause : DecodeFault) (hf : ∀ a c', c.Leads c' → (f a).Safe c') :
    (field α (.decode cause) >>= f).Safe c :=
  safe_bind (safe_field α inside (.inl ⟨cause, rfl⟩)) fun a c' _ leads => hf a c' leads

/-- A movement, with a decode fault or with room for it. -/
theorem safe_move {op : Cursor → Option Cursor} {fault : Fault} (inside : c.Inside)
    (leads : ∀ c', op c = some c' → c.Leads c')
    (known : (∃ cause, fault = .decode cause) ∨ (op c).isSome) : (move op fault).Safe c := by
  unfold Safe move
  rw [runAt_step]
  cases moved : op c with
  | some c' => exact ⟨leads c' moved, decodes_ok ()⟩
  | none =>
    refine ⟨.refl inside, ?_⟩
    rcases known with ⟨cause, rfl⟩ | room
    · exact decodes_error cause
    · rw [moved] at room
      cases room

theorem safe_fields (α : Type) [FixedWidth α] (inside : c.Inside) (cause : DecodeFault)
    (count : Nat) : (fields α (.decode cause) count).Safe c := by
  suffices ∀ done : List α, (fields.go α (.decode cause) count done).Safe c from this []
  induction count generalizing c with
  | zero => exact fun done => safe_pure inside done.reverse
  | succ count ih =>
    exact fun done => safe_bind (safe_field α inside (.inl ⟨cause, rfl⟩)) fun a _ _ leads =>
      ih leads.inside (a :: done)

/-- **Items while bytes remain**, if an item is safe wherever a byte is ahead. -/
theorem safe_collect {item : Reader α}
    (safe : ∀ c : Cursor, c.Inside → 0 < c.remaining → item.Safe c) (tries : Nat) (done : List α)
    (inside : c.Inside) : (collect item tries done).Safe c := by
  induction tries generalizing done c with
  | zero => exact safe_pure inside done.reverse
  | succ tries ih =>
    refine safe_bind (safe_look inside _) fun more c' e _ => ?_
    cases e
    split
    · rename_i more
      have ahead : 0 < c.remaining := by
        unfold Cursor.hasMore at more
        unfold Cursor.remaining
        have := of_decide_eq_true more
        omega
      exact safe_bind (safe c inside ahead) fun a _ _ leads => ih (a :: done) leads.inside
    · exact safe_pure inside done.reverse

/-- **The loop over items ends on its own**: if each takes a byte or more, as many tries as there are
bytes ahead are as good as any larger number. -/
theorem collect_stable {item : Reader α} {G : Nat → Bytes → α → Prop} (reads : item.Reads G)
    (nonempty : ∀ p bs a, G p bs a → bs ≠ []) {tries tries' : Nat} (done : List α)
    (inside : c.Inside) (enough : c.remaining ≤ tries) (enough' : c.remaining ≤ tries') :
    (collect item tries done).runAt c = (collect item tries' done).runAt c := by
  induction tries generalizing tries' done c with
  | zero =>
    have last : c.hasMore = false := by
      unfold Cursor.hasMore
      unfold Cursor.remaining at enough
      exact decide_eq_false (by omega)
    cases tries' with
    | zero => rfl
    | succ tries' =>
      rw [collect, collect, runAt_bind, runAt_look, last]
      rfl
  | succ tries ih =>
    cases more : c.hasMore with
    | false =>
      cases tries' with
      | zero =>
        rw [collect, collect, runAt_bind, runAt_look, more]
        rfl
      | succ tries' =>
        rw [collect, collect, runAt_bind, runAt_look, runAt_bind, runAt_look, more]
        rfl
    | true =>
      have ahead : 0 < c.remaining := by
        unfold Cursor.hasMore at more
        unfold Cursor.remaining
        have := of_decide_eq_true more
        omega
      obtain ⟨more', rfl⟩ := Nat.exists_eq_add_one_of_ne_zero
        (Nat.ne_of_gt (Nat.lt_of_lt_of_le ahead enough'))
      rw [collect, collect, runAt_bind, runAt_look, runAt_bind, runAt_look, more]
      simp only [if_true, runAt_bind]
      cases h : item.runAt c with
      | mk outcome c' =>
        cases outcome with
        | error => rfl
        | ok a =>
          obtain ⟨bs, hg, hp, rfl⟩ := (reads c c' a inside).1 h
          have taken := List.length_pos_iff.2 (nonempty _ _ _ hg)
          have fewer : (c.skip bs.length).remaining + 1 ≤ c.remaining := by
            simp only [Cursor.remaining, Cursor.pos_skip, Cursor.data_skip] at *
            omega
          exact ih (a :: done) (Cursor.skip_inside inside hp) (by omega) (by omega)

/-- Items that take a byte or more are no more than the bytes. -/
theorem Tiled.length_le {G : Nat → Bytes → α → Prop} (nonempty : ∀ p bs a, G p bs a → bs ≠ [])
    {p : Nat} {bs : Bytes} {as : List α} (h : Tiled G p bs as) : as.length ≤ bs.length := by
  induction h with
  | nil => exact Nat.le_refl _
  | cons hg _ ih =>
    have := List.length_pos_iff.2 (nonempty _ _ _ hg)
    rw [List.length_cons, List.length_append]
    omega

end Reader

open Reader

/-! ## Instructions -/

namespace Coded

variable {c : Cursor}

theorem safe_readOpCode (inside : c.Inside) (ahead : 0 < c.remaining) (offset : Nat) :
    (readOpCode offset).Safe c := by
  refine safe_bind (safe_field UInt8 inside (.inr ahead)) fun first c' _ leads => ?_
  split
  · exact safe_map _ (safe_field UInt8 leads.inside (.inl ⟨_, rfl⟩))
  · exact safe_pure leads.inside _

theorem safe_readOperand (inside : c.Inside) (cause : DecodeFault) (kind : OperandKind) :
    (readOperand (.decode cause) kind).Safe c := by
  have known : ∃ cause', Fault.decode cause = .decode cause' := ⟨cause, rfl⟩
  cases kind with
  | none => exact safe_pure inside _
  | switch =>
    refine safe_bind (safe_field UInt32 inside (.inl known)) fun count c' _ leads => ?_
    exact safe_guard leads.inside (fun _ => cause) fun _ =>
      safe_bind (safe_fields Int32 leads.inside cause _) fun _ _ _ leads' =>
        safe_pure leads'.inside _
  | _ => exact safe_map _ (safe_field _ inside (.inl known))

/-- **An instruction is safe to read** wherever a byte is ahead. -/
theorem safe_read (c : Cursor) (inside : c.Inside) (ahead : 0 < c.remaining) : read.Safe c := by
  refine safe_bind (safe_look inside _) fun offset c' e _ => ?_
  cases e
  refine safe_bind (safe_readOpCode inside ahead _) fun op c' _ leads => ?_
  cases op.info? with
  | none => exact safe_throw leads.inside _
  | some info =>
    exact safe_bind (safe_readOperand leads.inside _ _) fun operand _ _ leads' =>
      safe_bind (safe_look leads'.inside _) fun _ _ _ leads'' => safe_pure leads''.inside _

end Coded

/-! ## Sections -/

namespace Section

variable {c : Cursor}

theorem safe_readClause (inside : c.Inside) (format : ClauseFormat) : (readClause format).Safe c := by
  cases format with
  | small =>
    exact safe_field_then UInt16 inside _ fun _ _ l => safe_field_then UInt16 l.inside _ fun _ _ l =>
      safe_field_then UInt8 l.inside _ fun _ _ l => safe_field_then UInt16 l.inside _ fun _ _ l =>
      safe_field_then UInt8 l.inside _ fun _ _ l => safe_field_then UInt32 l.inside _ fun _ _ l =>
      safe_pure l.inside _
  | fat =>
    exact safe_field_then UInt32 inside _ fun _ _ l => safe_field_then UInt32 l.inside _ fun _ _ l =>
      safe_field_then UInt32 l.inside _ fun _ _ l => safe_field_then UInt32 l.inside _ fun _ _ l =>
      safe_field_then UInt32 l.inside _ fun _ _ l => safe_field_then UInt32 l.inside _ fun _ _ l =>
      safe_pure l.inside _

theorem safe_readClauses (inside : c.Inside) (format : ClauseFormat) (count : Nat)
    (done : List Clause) : (readClauses format count done).Safe c := by
  induction count generalizing c done with
  | zero => exact safe_pure inside done
  | succ count ih =>
    exact safe_bind (safe_readClause inside format) fun clause _ _ leads =>
      ih leads.inside (clause :: done)

theorem safe_readSize (inside : c.Inside) (format : ClauseFormat) : (readSize format).Safe c := by
  cases format with
  | fat =>
    exact safe_bind (safe_fields UInt8 inside .sectionHeader 3) fun _ _ _ leads =>
      safe_pure leads.inside _
  | small =>
    refine safe_field_then UInt8 inside _ fun size c' leads => ?_
    exact safe_bind (safe_move leads.inside (fun _ => Cursor.leads_advance?) (.inl ⟨_, rfl⟩))
      fun _ _ _ leads' => safe_pure leads'.inside _

/-- **A section is safe to read.** The payload is skipped where there is room for it. -/
theorem safe_readOne (inside : c.Inside) (done : List Clause) : (readOne done).Safe c := by
  refine safe_bind (safe_move inside (fun _ => Cursor.leads_advance?) (.inl ⟨_, rfl⟩))
    fun _ c₁ _ l₁ => ?_
  refine safe_field_then UInt8 l₁.inside _ fun kind c₂ l₂ => ?_
  generalize (if kind &&& fatBit = 0 then ClauseFormat.small else .fat) = format
  refine safe_bind (safe_readSize l₂.inside format) fun size c₃ _ l₃ => ?_
  refine safe_refuse l₃.inside _ fun _ => safe_guard l₃.inside _ fun room => ?_
  split
  · refine safe_bind (safe_move l₃.inside (fun _ => Cursor.leads_advance?)
      (.inr (Cursor.isSome_advance? l₃.inside room))) fun _ _ _ l₄ => ?_
    exact safe_pure l₄.inside _
  · split
    · exact safe_bind (safe_readClauses l₃.inside _ _ done) fun _ _ _ l₄ => safe_pure l₄.inside _
    · exact safe_throw l₃.inside _

/-- A section takes four bytes or more. -/
theorem readOne_takes (inside : c.Inside) {done : List Clause} {r : List Clause × Bool} {c' : Cursor}
    (h : (readOne done).runAt c = (.ok r, c')) : c.pos + 4 ≤ c'.pos := by
  obtain ⟨bs, ⟨cs, isSection, -⟩, -, rfl⟩ := (readOne_reads done c c' r inside).1 h
  exact Nat.add_le_add_left isSection.length_ge c.pos

/-- **Section after section**, whatever the number of tries. -/
theorem safe_readUpTo (tries : Nat) (done : List Clause) (inside : c.Inside) :
    (readUpTo tries done).Safe c := by
  induction tries generalizing done c with
  | zero => exact safe_throw inside _
  | succ tries ih =>
    refine safe_bind (safe_readOne inside done) fun r _ _ leads => ?_
    obtain ⟨done', more⟩ := r
    cases more with
    | true => exact ih done' leads.inside
    | false => exact safe_pure leads.inside _

/-- **The loop over sections ends on its own**: one try for each four bytes ahead and one more are as
good as any larger number. -/
theorem readUpTo_stable {tries tries' : Nat} (done : List Clause) (inside : c.Inside)
    (enough : c.remaining < 4 * tries) (enough' : c.remaining < 4 * tries') :
    (readUpTo tries done).runAt c = (readUpTo tries' done).runAt c := by
  induction tries generalizing tries' done c with
  | zero => omega
  | succ tries ih =>
    obtain ⟨tries', rfl⟩ : ∃ n, tries' = n + 1 := Nat.exists_eq_add_one_of_ne_zero (by omega)
    rw [readUpTo, readUpTo, runAt_bind, runAt_bind]
    cases h : (readOne done).runAt c with
    | mk outcome c' =>
      cases outcome with
      | error => rfl
      | ok r =>
        obtain ⟨done', more⟩ := r
        have taken := readOne_takes inside h
        have leads := (safe_readOne inside done).1
        rw [h] at leads
        have fewer : c'.remaining + 4 ≤ c.remaining := by
          have := leads.inside
          unfold Cursor.Inside at this
          unfold Cursor.remaining
          rw [leads.data] at this ⊢
          simp only at this ⊢
          omega
        cases more with
        | false => rfl
        | true => exact ih done' leads.inside (by omega) (by omega)

theorem safe_readChain (inside : c.Inside) : readChain.Safe c :=
  safe_bind (safe_look inside _) fun _ _ e _ => by
    cases e
    exact safe_readUpTo _ [] inside

theorem PayloadBytes.length {kind : UInt8} {bs : Bytes} {cs : List Clause}
    (h : PayloadBytes kind bs cs) : 12 * cs.length ≤ bs.length := by
  unfold PayloadBytes at h
  split at h
  · rw [h]
    exact Nat.zero_le _
  · rw [ClausesBytes.length h, Nat.mul_comm]
    refine Nat.mul_le_mul_left _ ?_
    cases formatOf kind <;> decide

/-- **Each clause of a chain takes twelve bytes or more.** -/
theorem ChainBytes.length {p : Nat} {bs : Bytes} {cs : List Clause} (h : ChainBytes p bs cs) :
    12 * cs.length ≤ bs.length := by
  have ofSection : ∀ {p bs cs more}, SectionBytes p bs cs more → 12 * cs.length ≤ bs.length := by
    intro p bs cs more h
    cases h with
    | mk pad kind size payload cs _ _ held =>
      have := held.length
      simp only [List.length_append, List.length_cons]
      omega
  induction h with
  | last h => exact ofSection h
  | more h _ ih =>
    have := ofSection h
    rw [List.length_append, List.length_append]
    omega

end Section

/-! ## Bodies -/

theorem Header.decodes_read (body : Bytes) : Decodes (Header.read body) := by
  unfold Header.read
  split
  · exact decodes_error _
  · split
    · exact decodes_ok _
    · split
      · simp only
        split
        · exact decodes_error _
        · unfold Header.ofFatBytes
          simp only
          split
          · exact decodes_error _
          · exact decodes_ok _
      · exact decodes_error _

namespace Method

theorem decodes_resolve (places : Locator) (p : Placed) : Decodes (resolve places p) := by
  refine decodes_bind (decodes_operand (fun disp => ?_) _) fun _ _ => decodes_ok _
  unfold resolveTarget
  split
  · exact decodes_ok _
  · exact decodes_error _

theorem decodes_boundaryAt (places : Locator) (offset : Nat) :
    Decodes (boundaryAt places offset) := by
  unfold boundaryAt
  split
  · exact decodes_ok _
  · exact decodes_error _

theorem decodes_boundaryAfter (places : Locator) (codeSize offset length : Nat) :
    Decodes (boundaryAfter places codeSize offset length) := by
  unfold boundaryAfter
  split
  · exact decodes_error _
  · split
    · exact decodes_ok _
    · exact decodes_map _ (decodes_boundaryAt places _)

theorem decodes_handlerOf (places : Locator) (codeSize : Nat) (c : Clause) :
    Decodes (handlerOf places codeSize c) := by
  have start := decodes_boundaryAt places
  have stop := decodes_boundaryAfter places codeSize
  refine decodes_bind (start _) fun _ _ => decodes_bind (stop _ _) fun _ _ =>
    decodes_bind (start _) fun _ _ => decodes_bind (stop _ _) fun _ _ => ?_
  split
  · exact decodes_bind (start _) fun _ _ => decodes_ok _
  · exact decodes_ok _

/-- The sections are looked for behind the code, which is in the body. -/
theorem decodes_clausesOf {header : Header} {body : Bytes}
    (fits : header.size + header.codeSize.toNat ≤ body.length) :
    Decodes (clausesOf header body) := by
  unfold clausesOf
  split
  · have inside := Cursor.inside_ofBytes body
    have found : ((Cursor.ofBytes body).seek? (header.size + header.codeSize.toNat)).isSome := by
      unfold Cursor.seek?
      rw [if_pos (by simpa [Cursor.ofBytes] using fits)]
      rfl
    have leads : ∀ c', (Cursor.ofBytes body).seek? (header.size + header.codeSize.toNat) = some c' →
        (Cursor.ofBytes body).Leads c' := by
      intro c' h
      refine Cursor.leads_advance? (n := header.size + header.codeSize.toNat) ?_
      rw [Cursor.advance?, ← h]
      simp [Cursor.ofBytes]
    exact (safe_bind (safe_move inside leads (.inr found)) fun _ _ _ leads' =>
      Section.safe_readChain leads'.inside).2
  · exact decodes_ok _

/-- **Decoding fails with decode faults alone.** -/
theorem decodes_decode (body : Bytes) : Decodes (decode body) := by
  unfold decode
  refine decodes_bind (Header.decodes_read body) fun header _ => ?_
  by_cases short : body.length < header.size + header.codeSize.toNat
  · simp only [short, if_true]
    exact decodes_bind (decodes_error _) nofun
  · simp only [short, if_false]
    refine decodes_bind (safe_bind (safe_look (Cursor.inside_ofBytes _) _) fun _ _ e _ => ?_).2
      fun placed _ => ?_
    · cases e
      exact safe_collect Coded.safe_read _ [] (Cursor.inside_ofBytes _)
    · exact decodes_bind (decodes_mapM (decodes_resolve _) _) fun _ _ =>
        decodes_bind (decodes_clausesOf (Nat.not_lt.1 short)) fun _ _ =>
          decodes_bind (decodes_mapM (decodes_handlerOf _ _) _) fun _ _ => decodes_ok _

end Method

/-- **Decoding is total and stays in the bytes.** Any byte string is decoded or refused with a decode
fault, and so is the chain of sections at any position of one. A decoded method has no more
instructions than the code has bytes, and a handler for each clause of the chain. The reads take
whole slices of the code and of the body, and the cursor is inside after any number of instructions
and of sections. A section takes four bytes or more, so that a chain ends on its own, and a clause
twelve. -/
theorem decode_total :
    (∀ body : Bytes,
      ((∃ m, Method.decode body = .ok m) ∨ ∃ cause, Method.decode body = .error (.decode cause)) ∧
      (∀ m, Method.decode body = .ok m → ∃ h cs, Header.read body = .ok h ∧
        Method.clausesOf h body = .ok cs ∧ m.order.length ≤ h.codeSize.toNat ∧
        m.stock.size = m.order.length ∧ m.handlers.length = cs.length) ∧
      ∀ h, Header.read body = .ok h → h.size + h.codeSize.toNat ≤ body.length →
        let code := (body.drop h.size).take h.codeSize.toNat
        code.length = h.codeSize.toNat ∧
        (∀ tries, (collect Coded.read tries []).Safe (.ofBytes code)) ∧
        ∀ tries, h.codeSize.toNat ≤ tries → (collect Coded.read tries []).runAt (.ofBytes code)
          = (whileMore Coded.read).runAt (.ofBytes code)) ∧
    ∀ c : Cursor, c.Inside →
      ((∃ cs c', Section.readChain.runAt c = (.ok cs, c') ∧ c.Leads c' ∧
          12 * cs.length ≤ c'.pos - c.pos) ∨
        ∃ cause c', Section.readChain.runAt c = (.error (.decode cause), c') ∧ c.Leads c') ∧
      (∀ tries done, (Section.readUpTo tries done).Safe c) ∧
      (∀ done r c', (Section.readOne done).runAt c = (.ok r, c') → c.pos + 4 ≤ c'.pos) ∧
      (∀ tries, c.remaining < 4 * tries →
        (Section.readUpTo tries []).runAt c = Section.readChain.runAt c) ∧
      ∀ count bs c', c.take? count = some (bs, c') →
        bs = c.rest.take count ∧ bs.length = count ∧ c.Leads c' := by
  refine ⟨fun body => ⟨(Method.decodes_decode body).outcome, fun m decoded => ?_, fun h _ fits => ?_⟩,
    fun c inside => ⟨?_, fun tries done => Section.safe_readUpTo tries done inside,
      fun done r c' => Section.readOne_takes inside, fun tries enough => ?_,
      fun count bs c' => Cursor.take?_exact inside⟩⟩
  · obtain ⟨h, rs, cs, isBody, rfl⟩ := (decode_iff body m).1 decoded
    refine ⟨h, cs, (Header.read_iff _ _).2 isBody.header,
      (clausesOf_iff isBody.fits cs).2 isBody.sections, ?_, ?_, ?_⟩
    · have := isBody.tiled.length_le Coded.stands_nonempty
      rw [List.length_take] at this
      exact Nat.le_trans (Nat.le_of_eq List.length_range) (Nat.le_trans this (Nat.min_le_left ..))
    · simp [Method.linked]
    · exact List.length_map _
  · have whole : ((body.drop h.size).take h.codeSize.toNat).length = h.codeSize.toNat := by
      rw [List.length_take, List.length_drop]
      omega
    have remaining : (Cursor.ofBytes ((body.drop h.size).take h.codeSize.toNat)).remaining
        = h.codeSize.toNat := by
      rw [← Cursor.length_rest, Cursor.rest_ofBytes, whole]
    refine ⟨whole, fun tries => safe_collect Coded.safe_read tries [] (Cursor.inside_ofBytes _),
      fun tries enough => ?_⟩
    rw [whileMore, runAt_bind, runAt_look]
    exact collect_stable Coded.read_reads Coded.stands_nonempty [] (Cursor.inside_ofBytes _)
      (Nat.le_trans (Nat.le_of_eq remaining) enough) (Nat.le_refl _)
  · obtain ⟨leads, decodes⟩ := Section.safe_readChain inside
    cases e : Section.readChain.runAt c with
    | mk outcome c' =>
      rw [e] at leads decodes
      cases outcome with
      | ok cs =>
        obtain ⟨bs, chain, -, rfl⟩ := (Section.readChain_reads c c' cs inside).1 e
        have taken := chain.length
        refine .inl ⟨cs, _, rfl, leads, ?_⟩
        rw [Cursor.pos_skip]
        omega
      | error fault =>
        obtain ⟨cause, rfl⟩ := decodes fault rfl
        exact .inr ⟨cause, c', rfl, leads⟩
  · rw [Section.readChain, runAt_bind, runAt_look]
    exact Section.readUpTo_stable [] inside enough (by omega)

/-- A chain whose last section announces another one is refused, with the cursor at the end. -/
theorem decode_total_announced : (Cursor.ofBytes [0x80, 4, 0, 0]).Inside ∧
    ∃ c', Section.readChain.runAt (.ofBytes [0x80, 4, 0, 0])
      = (.error (.decode .sectionMissing), c') ∧ (Cursor.ofBytes [0x80, 4, 0, 0]).Leads c' := by
  have inside : (Cursor.ofBytes [0x80, 4, 0, 0]).Inside :=
    Cursor.inside_ofBytes _
  have refused : (Section.readChain.runAt (.ofBytes [0x80, 4, 0, 0])).1
      = .error (.decode .sectionMissing) := by rfl
  refine ⟨inside, ?_⟩
  rcases (decode_total.2 _ inside).1 with ⟨cs, c', e, -⟩ | ⟨cause, c', e, leads⟩
  · rw [e] at refused
    cases refused
  · rw [e] at refused
    cases refused
    exact ⟨c', e, leads⟩

end CilProbes
