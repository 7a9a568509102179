import CilProbes.Exception.Section
import CilProbes.Proofs.Reading.Exact

/-!
# Reading exception sections

The format of the sections behind the code, as a grammar of bytes: `ClauseBytes` for a clause,
`SectionBytes` for a section with its padding, `ChainBytes` for a chain of sections. The readers of
`Exception/Section.lean` read exactly these (`readClause_reads`, `readOne_reads`,
`readChain_reads`). A section takes four bytes or more (`SectionBytes.length_ge`), which is why one
try for every byte ahead is enough for a chain.
-/

namespace CilProbes.Section

open Reader

/-! ## The format -/

/-- A clause in one of the two formats. Flag bits without a meaning are dropped, in the wide format
also the upper half of the flags. -/
inductive ClauseBytes : ClauseFormat → Bytes → Clause → Prop
  | small (flags tryOffset : UInt16) (tryLength : UInt8) (handlerOffset : UInt16)
      (handlerLength : UInt8) (filterOrType : UInt32) :
      ClauseBytes .small
        (FixedWidth.toBytes flags ++ (FixedWidth.toBytes tryOffset ++
          (FixedWidth.toBytes tryLength ++ (FixedWidth.toBytes handlerOffset ++
            (FixedWidth.toBytes handlerLength ++ FixedWidth.toBytes filterOrType)))))
        ⟨ClauseFlags.masked ⟨flags⟩, tryOffset.toUInt32, tryLength.toUInt32,
          handlerOffset.toUInt32, handlerLength.toUInt32, filterOrType⟩
  | fat (flags tryOffset tryLength handlerOffset handlerLength filterOrType : UInt32) :
      ClauseBytes .fat
        (FixedWidth.toBytes flags ++ (FixedWidth.toBytes tryOffset ++
          (FixedWidth.toBytes tryLength ++ (FixedWidth.toBytes handlerOffset ++
            (FixedWidth.toBytes handlerLength ++ FixedWidth.toBytes filterOrType)))))
        ⟨ClauseFlags.masked ⟨flags.toUInt16⟩, tryOffset, tryLength, handlerOffset, handlerLength,
          filterOrType⟩

/-- The rest of a section header: three bytes in the wide format, otherwise one byte and two
reserved ones. -/
inductive SizeBytes : ClauseFormat → Bytes → Nat → Prop
  | small (size : UInt8) (reserved : Bytes) :
      reserved.length = 2 → SizeBytes .small (size :: reserved) size.toNat
  | fat (bs : Bytes) : bs.length = 3 → SizeBytes .fat bs (LittleEndian.decode bs)

/-- The format that a kind byte announces. -/
def formatOf (kind : UInt8) : ClauseFormat := if kind &&& fatBit = 0 then .small else .fat

/-- A row of clauses, whatever the place it starts at. -/
abbrev ClausesBytes (format : ClauseFormat) (bs : Bytes) (cs : List Clause) : Prop :=
  Tiled (fun _ => ClauseBytes format) 0 bs cs

/-- What stands behind a section header: a whole number of clauses, or bytes to skip. -/
def PayloadBytes (kind : UInt8) (bs : Bytes) (cs : List Clause) : Prop :=
  if kind &&& exceptionBit = 0 then cs = [] else ClausesBytes (formatOf kind) bs cs

/-- A section at a place, with its padding: the clauses it holds, and whether another follows. The
size counts the header. -/
inductive SectionBytes : Nat → Bytes → List Clause → Bool → Prop
  | mk {p : Nat} (pad : Bytes) (kind : UInt8) (size payload : Bytes) (cs : List Clause) :
      pad.length = Cursor.padding alignment p →
      SizeBytes (formatOf kind) size (ClauseFormat.headerSize + payload.length) →
      PayloadBytes kind payload cs →
      SectionBytes p (pad ++ kind :: (size ++ payload)) cs (kind &&& moreBit != 0)

/-- **A chain of sections**: all but the last announce another. -/
inductive ChainBytes : Nat → Bytes → List Clause → Prop
  | last {p : Nat} {bs : Bytes} {cs : List Clause} :
      SectionBytes p bs cs false → ChainBytes p bs cs
  | more {p : Nat} {b bs : Bytes} {cs cs' : List Clause} :
      SectionBytes p b cs true → ChainBytes (p + b.length) bs cs' →
        ChainBytes p (b ++ bs) (cs ++ cs')

/-! ## Clauses -/

theorem ClauseBytes.masked {format : ClauseFormat} {bs : Bytes} {c : Clause}
    (h : ClauseBytes format bs c) : c.flags.masked = c.flags := by
  have twice : ∀ f : ClauseFlags, f.masked.masked = f.masked := by
    intro f
    simp [ClauseFlags.masked, UInt16.and_assoc]
  cases h <;> exact twice _

theorem ClausesBytes.masked {format : ClauseFormat} {p : Nat} {bs : Bytes} {cs : List Clause}
    (h : Tiled (fun _ => ClauseBytes format) p bs cs) : ∀ c ∈ cs, c.flags.masked = c.flags := by
  induction h with
  | nil => exact fun _ h => by cases h
  | cons hc _ ih => exact List.forall_mem_cons.2 ⟨hc.masked, ih⟩

theorem SectionBytes.masked {p : Nat} {bs : Bytes} {cs : List Clause} {more : Bool}
    (h : SectionBytes p bs cs more) : ∀ c ∈ cs, c.flags.masked = c.flags := by
  cases h with
  | mk pad kind size payload cs _ _ behind =>
    unfold PayloadBytes at behind
    split at behind
    · rw [behind]
      exact fun _ h => by cases h
    · exact ClausesBytes.masked behind

/-- The clauses of a body have no flags without a meaning. -/
theorem ChainBytes.masked {p : Nat} {bs : Bytes} {cs : List Clause} (h : ChainBytes p bs cs) :
    ∀ c ∈ cs, c.flags.masked = c.flags := by
  induction h with
  | last h => exact h.masked
  | more h _ ih =>
    intro c hc
    rcases List.mem_append.1 hc with hc | hc
    · exact h.masked c hc
    · exact ih c hc

theorem ClauseBytes.length {format : ClauseFormat} {bs : Bytes} {c : Clause}
    (h : ClauseBytes format bs c) : bs.length = format.clauseSize := by
  cases h <;> simp [FixedWidth.width, ClauseFormat.clauseSize]

/-- **A clause is read exactly.** -/
theorem readClause_reads (format : ClauseFormat) :
    (readClause format).Reads fun _ => ClauseBytes format := by
  cases format with
  | small =>
    refine ((Reads.field UInt16 _).bind fun flags => (Reads.field UInt16 _).bind fun tryOffset =>
      (Reads.field UInt8 _).bind fun tryLength => (Reads.field UInt16 _).bind fun handlerOffset =>
      (Reads.field UInt8 _).bind fun handlerLength =>
      (Reads.field UInt32 _).bind fun filterOrType => Reads.pure _).congr fun p bs c => ⟨?_, ?_⟩
    · rintro ⟨_, _, flags, rfl, rfl, _, _, tryOffset, rfl, rfl, _, _, tryLength, rfl, rfl,
        _, _, handlerOffset, rfl, rfl, _, _, handlerLength, rfl, rfl, _, _, filterOrType, rfl, rfl,
        rfl, rfl⟩
      rw [List.append_nil]
      exact .small ..
    · rintro ⟨⟩
      exact ⟨_, _, _, rfl, rfl, _, _, _, rfl, rfl, _, _, _, rfl, rfl, _, _, _, rfl, rfl,
        _, _, _, rfl, rfl, _, _, _, (List.append_nil _).symm, rfl, rfl, rfl⟩
  | fat =>
    refine ((Reads.field UInt32 _).bind fun flags => (Reads.field UInt32 _).bind fun tryOffset =>
      (Reads.field UInt32 _).bind fun tryLength => (Reads.field UInt32 _).bind fun handlerOffset =>
      (Reads.field UInt32 _).bind fun handlerLength =>
      (Reads.field UInt32 _).bind fun filterOrType => Reads.pure _).congr fun p bs c => ⟨?_, ?_⟩
    · rintro ⟨_, _, flags, rfl, rfl, _, _, tryOffset, rfl, rfl, _, _, tryLength, rfl, rfl,
        _, _, handlerOffset, rfl, rfl, _, _, handlerLength, rfl, rfl, _, _, filterOrType, rfl, rfl,
        rfl, rfl⟩
      rw [List.append_nil]
      exact .fat ..
    · rintro ⟨⟩
      exact ⟨_, _, _, rfl, rfl, _, _, _, rfl, rfl, _, _, _, rfl, rfl, _, _, _, rfl, rfl,
        _, _, _, rfl, rfl, _, _, _, (List.append_nil _).symm, rfl, rfl, rfl⟩

theorem tiled_place {α : Type} {G : Bytes → α → Prop} {p q : Nat} {bs : Bytes} {as : List α}
    (h : Tiled (fun _ => G) p bs as) : Tiled (fun _ => G) q bs as := by
  induction h generalizing q with
  | nil => exact .nil q
  | cons hg _ ih => exact .cons hg ih

theorem ClausesBytes.length {format : ClauseFormat} {p : Nat} {bs : Bytes} {cs : List Clause}
    (h : Tiled (fun _ => ClauseBytes format) p bs cs) :
    bs.length = cs.length * format.clauseSize := by
  induction h with
  | nil => rw [List.length_nil, List.length_nil, Nat.zero_mul]
  | cons hc _ ih =>
    rw [List.length_append, hc.length, ih, List.length_cons, Nat.succ_mul, Nat.add_comm]

theorem readClauses_reads (format : ClauseFormat) (count : Nat) (done : List Clause) :
    (readClauses format count done).Reads fun _ bs cs => ∃ new, new.length = count ∧
      ClausesBytes format bs new ∧ cs = new.reverse ++ done := by
  induction count generalizing done with
  | zero =>
    refine (Reads.pure done).congr fun p bs cs => ⟨?_, ?_⟩
    · rintro ⟨rfl, rfl⟩
      exact ⟨[], rfl, .nil 0, rfl⟩
    · rintro ⟨new, hn, ht, rfl⟩
      rw [List.length_eq_zero_iff.1 hn] at ht ⊢
      cases ht
      exact ⟨rfl, rfl⟩
  | succ count ih =>
    refine ((readClause_reads format).bind fun c => ih (c :: done)).congr fun p bs cs => ⟨?_, ?_⟩
    · rintro ⟨_, _, c, rfl, hc, new, hn, ht, rfl⟩
      exact ⟨c :: new, by simp [hn], .cons hc (tiled_place ht), by simp⟩
    · rintro ⟨new, hn, ht, rfl⟩
      cases ht with
      | nil => cases hn
      | cons hc ht =>
        exact ⟨_, _, _, rfl, hc, _, by simpa using hn, tiled_place ht, by simp⟩

/-! ## Sections -/

theorem flatMap_uint8 (bs : Bytes) : bs.flatMap FixedWidth.toBytes = bs := by
  induction bs with
  | nil => rfl
  | cons b bs ih => rw [List.flatMap_cons, ih, FixedWidth.toBytes_uint8, List.singleton_append]

theorem readSize_reads (format : ClauseFormat) :
    (readSize format).Reads fun _ => SizeBytes format := by
  cases format with
  | small =>
    refine ((Reads.field UInt8 _).bind fun size =>
      (Reads.advance (n := fun _ => 2) _ fun _ => rfl).bind fun _ =>
        Reads.pure size.toNat).congr fun p bs n => ⟨?_, ?_⟩
    · rintro ⟨_, _, size, rfl, rfl, reserved, _, _, rfl, hr, rfl, rfl⟩
      rw [FixedWidth.toBytes_uint8, List.append_nil]
      exact .small size reserved hr
    · rintro ⟨size, reserved, hr⟩
      exact ⟨[size], reserved, size, rfl, (FixedWidth.toBytes_uint8 size).symm, reserved, [], (),
        by simp, hr, rfl, rfl⟩
  | fat =>
    refine ((Reads.fields UInt8 _ 3).bind fun bytes =>
      Reads.pure (LittleEndian.decode bytes)).congr fun p bs n => ⟨?_, ?_⟩
    · rintro ⟨_, _, bytes, rfl, ⟨hn, rfl⟩, rfl, rfl⟩
      rw [flatMap_uint8, List.append_nil]
      exact .fat bytes hn
    · intro h
      cases h with
      | fat _ hn => exact ⟨bs, [], bs, by simp, ⟨hn, (flatMap_uint8 bs).symm⟩, rfl, rfl⟩

theorem readPayload_reads (kind : UInt8) (payload : Nat) (more : Bool) (done : List Clause) :
    (if kind &&& exceptionBit = 0 then do
        Reader.move (·.advance? payload) .outOfBounds
        pure (done, more)
      else if payload % (formatOf kind).clauseSize = 0 then do
        pure (← readClauses (formatOf kind) (payload / (formatOf kind).clauseSize) done, more)
      else throw (.decode (.sectionPayload (formatOf kind) payload)) :
        Reader (List Clause × Bool)).Reads
      fun _ bs r => bs.length = payload ∧ ∃ cs, PayloadBytes kind bs cs ∧
        r = (cs.reverse ++ done, more) := by
  unfold PayloadBytes
  by_cases hk : kind &&& exceptionBit = 0
  · simp only [hk, if_true]
    refine ((Reads.advance (n := fun _ => payload) _ fun _ => rfl).bind fun _ =>
      Reads.pure (done, more)).congr fun p bs r => ⟨?_, ?_⟩
    · rintro ⟨bs, _, _, rfl, hb, rfl, rfl⟩
      exact ⟨by simpa using hb, [], rfl, rfl⟩
    · rintro ⟨hb, _, rfl, rfl⟩
      exact ⟨bs, [], (), by simp, hb, rfl, rfl⟩
  · have pos : 0 < (formatOf kind).clauseSize := by
      cases formatOf kind <;> decide
    simp only [hk, if_false]
    by_cases whole : payload % (formatOf kind).clauseSize = 0
    · simp only [whole, if_true]
      refine ((readClauses_reads _ _ done).bind fun cs =>
        Reads.pure (cs, more)).congr fun p bs r => ⟨?_, ?_⟩
      · rintro ⟨bs, _, _, rfl, ⟨cs, hn, ht, rfl⟩, rfl, rfl⟩
        rw [List.append_nil]
        refine ⟨?_, cs, ht, rfl⟩
        rw [ClausesBytes.length ht, hn]
        exact Nat.div_mul_cancel (Nat.dvd_of_mod_eq_zero whole)
      · rintro ⟨hb, cs, ht, rfl⟩
        refine ⟨bs, [], _, by simp, ⟨cs, ?_, ht, rfl⟩, rfl, rfl⟩
        rw [← hb, ClausesBytes.length ht, Nat.mul_div_cancel _ pos]
    · simp only [whole, if_false]
      refine (Reads.throw _).congr fun p bs r => ⟨False.elim, ?_⟩
      rintro ⟨hb, cs, ht, -⟩
      rw [← hb, ClausesBytes.length ht, Nat.mul_mod_left] at whole
      exact whole rfl

/-- What stands behind the kind and the size of a section. -/
theorem readSized_reads (kind : UInt8) (size : Nat) (done : List Clause) :
    (do
      if size < ClauseFormat.headerSize then throw (.decode (.sectionTooSmall size))
      let payload := size - ClauseFormat.headerSize
      let remaining ← Reader.look Cursor.remaining
      if remaining < payload then
        throw (.decode (.sectionOverrun size (remaining + ClauseFormat.headerSize)))
      let more := kind &&& moreBit != 0
      if kind &&& exceptionBit = 0 then
        Reader.move (·.advance? payload) .outOfBounds
        pure (done, more)
      else if payload % (formatOf kind).clauseSize = 0 then
        pure (← readClauses (formatOf kind) (payload / (formatOf kind).clauseSize) done, more)
      else
        throw (.decode (.sectionPayload (formatOf kind) payload)) :
      Reader (List Clause × Bool)).Reads
      fun _ bs r => ClauseFormat.headerSize + bs.length = size ∧ ∃ cs, PayloadBytes kind bs cs ∧
        r = (cs.reverse ++ done, kind &&& moreBit != 0) := by
  refine (Reads.refuse _ fun _ => (readPayload_reads kind (size - ClauseFormat.headerSize)
    (kind &&& moreBit != 0) done).guard _ fun p bs r h => ?_).congr fun p bs r => ⟨?_, ?_⟩
  · exact Nat.le_of_eq h.1.symm
  · rintro ⟨hs, hb, cs, hp, rfl⟩
    exact ⟨by omega, cs, hp, rfl⟩
  · rintro ⟨rfl, cs, hp, rfl⟩
    exact ⟨by omega, by omega, cs, hp, rfl⟩

/-- **A section is read exactly.** -/
theorem readOne_reads (done : List Clause) :
    (readOne done).Reads fun p bs r => ∃ cs, SectionBytes p bs cs r.2 ∧ r.1 = cs.reverse ++ done := by
  refine ((Reads.advance (n := Cursor.padding alignment) _ fun _ => rfl).bind fun _ =>
    (Reads.field UInt8 _).bind fun kind => (readSize_reads (formatOf kind)).bind fun size =>
      readSized_reads kind size done).congr fun p bs r => ⟨?_, ?_⟩
  · rintro ⟨pad, _, _, rfl, hpad, _, _, kind, rfl, rfl, sizeBytes, payload, size, rfl, hs,
      rfl, cs, hp, rfl⟩
    rw [FixedWidth.toBytes_uint8, List.singleton_append]
    exact ⟨cs, .mk pad kind sizeBytes payload cs hpad hs hp, rfl⟩
  · obtain ⟨cs', more⟩ := r
    rintro ⟨cs, h, rfl⟩
    cases h with
    | mk pad kind size payload cs hpad hs hp =>
      exact ⟨pad, _, (), rfl, hpad, [kind], size ++ payload, kind, rfl,
        (FixedWidth.toBytes_uint8 kind).symm, size, payload, _, rfl, hs, rfl, cs, hp, rfl⟩

/-! ## Chains -/

theorem SizeBytes.length {format : ClauseFormat} {bs : Bytes} {n : Nat}
    (h : SizeBytes format bs n) : bs.length = 3 := by
  cases h with
  | small size reserved hr => rw [List.length_cons, hr]
  | fat _ hb => exact hb

theorem SectionBytes.length_ge {p : Nat} {bs : Bytes} {cs : List Clause} {more : Bool}
    (h : SectionBytes p bs cs more) : 4 ≤ bs.length := by
  cases h with
  | mk pad kind size payload cs hpad hs hp =>
    rw [List.length_append, List.length_cons, List.length_append, hs.length]
    omega

/-- A chain with more tries than bytes ahead. -/
theorem readUpTo_iff (tries : Nat) (done cs : List Clause) (c c' : Cursor)
    (inside : c.pos ≤ c.data.size) (enough : c.remaining < tries) :
    (readUpTo tries done).runAt c = (.ok cs, c') ↔
      ∃ bs new, ChainBytes c.pos bs new ∧ cs = done.reverse ++ new ∧
        bs <+: c.rest ∧ c' = c.skip bs.length := by
  induction tries generalizing done c with
  | zero => omega
  | succ tries ih =>
    have fewer : ∀ {b : Bytes}, b <+: c.rest → 4 ≤ b.length →
        (c.skip b.length).remaining < tries := by
      intro b hp hb
      have := hp.length_le
      simp only [Cursor.length_rest, Cursor.remaining, Cursor.pos_skip, Cursor.data_skip] at *
      omega
    rw [readUpTo, runAt_bind]
    constructor
    · intro h
      split at h
      · rename_i r c₁ h₁
        obtain ⟨b, ⟨cs₁, hsec, hr⟩, hp, rfl⟩ := (readOne_reads done c c₁ r inside).1 h₁
        obtain ⟨done', more⟩ := r
        simp only at h hsec hr
        subst hr
        cases more with
        | false =>
          simp only [Bool.false_eq_true, if_false, runAt_pure] at h
          cases h
          exact ⟨b, cs₁, .last hsec, by simp, hp, rfl⟩
        | true =>
          simp only [if_true] at h
          obtain ⟨bs, new, hc, rfl, hp', rfl⟩ :=
            (ih _ _ (Cursor.skip_inside inside hp) (fewer hp hsec.length_ge)).1 h
          refine ⟨b ++ bs, cs₁ ++ new, .more hsec hc, by simp, ?_, ?_⟩
          · obtain ⟨t, ht⟩ := hp
            rw [Cursor.rest_skip, ← ht, List.drop_left] at hp'
            rw [← ht]
            exact (List.prefix_append_right_inj b).2 hp'
          · rw [Cursor.skip_skip, List.length_append]
      · cases h
    · rintro ⟨bs, new, hc, rfl, ⟨t, ht⟩, rfl⟩
      cases hc with
      | last hsec =>
        rw [(readOne_reads done c (c.skip bs.length) (new.reverse ++ done, false) inside).2
          ⟨bs, ⟨new, hsec, rfl⟩, ⟨t, ht⟩, rfl⟩]
        simp [runAt_pure]
      | @more _ b bs cs₁ new hsec hc =>
        have hp : b <+: c.rest := ⟨bs ++ t, by rw [← List.append_assoc]; exact ht⟩
        rw [(readOne_reads done c (c.skip b.length) (cs₁.reverse ++ done, true) inside).2
          ⟨b, ⟨cs₁, hsec, rfl⟩, hp, rfl⟩]
        simp only [if_true]
        refine (ih _ _ (Cursor.skip_inside inside hp) (fewer hp hsec.length_ge)).2
          ⟨bs, new, hc, by simp, ?_, ?_⟩
        · rw [Cursor.rest_skip, ← ht, List.append_assoc, List.drop_left]
          exact List.prefix_append _ _
        · rw [Cursor.skip_skip, List.length_append]

/-- **A chain of sections is read exactly.** -/
theorem readChain_reads : readChain.Reads ChainBytes := by
  intro c c' cs inside
  rw [readChain, runAt_bind, runAt_look, readUpTo_iff _ _ _ _ _ inside (Nat.lt_succ_self _)]
  constructor
  · rintro ⟨bs, new, hc, rfl, hp⟩
    exact ⟨bs, hc, hp⟩
  · rintro ⟨bs, hc, hp⟩
    exact ⟨bs, cs, hc, rfl, hp⟩

end CilProbes.Section
