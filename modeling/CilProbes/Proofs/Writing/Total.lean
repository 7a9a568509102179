import CilProbes.Proofs.Writing.Steps

/-!
# What writing a body comes to

* `Method.Refused`: the four reasons for which a method is not written.
* `encodeInto_of_encode`, `encode_of_encodeInto`: everything else is written, in the bytes of
  `encode` and nothing behind them.
* `writeInto_exact`: the outcome of writing field by field, for every method and every buffer.
-/

namespace CilProbes

open Relax

/-- The code is too long in every choice of widths in which the short branches reach. -/
def Method.TooLong (m : Method) : Prop :=
  ∀ w, Settled (m.slotsIn w) → 0x7FFFFFFF < total (m.slotsIn w)

/-- **Why a method is not written** into a buffer of `room` bytes. -/
inductive Method.Refused (m : Method) (compact : Bool) (room : Nat) : Fault → Prop
  | invalid {cause : RelocationFault} : m.validate = .error (.relocation cause) →
      Refused m compact room (.relocation cause)
  | tooLong {size : Nat} : m.layout = .error (.encode (.codeSize size)) → m.TooLong →
      Refused m compact room (.encode (.codeSize size))
  | noRoom {size : Nat} : m.bodySize compact = .ok size → room < size →
      Refused m compact room (.encode (.bufferTooShort size room))
  | manyClauses {size : Nat} : m.bodySize compact = .ok size → size ≤ room →
      0xFFFFFF < ClauseFormat.fat.dataSize m.handlers.length →
      Refused m compact room (.encode (.sectionTooLarge m.handlers.length .fat))

namespace Section

/-- Only the fat format can run out of sizes: the small one is chosen when it has enough. -/
theorem sizeFault?_select (cs : List Clause) (compact : Bool) :
    sizeFault? (ClauseFormat.select cs compact) cs =
      if 0xFFFFFF < ClauseFormat.fat.dataSize cs.length
      then some (.encode (.sectionTooLarge cs.length .fat)) else none := by
  unfold sizeFault? ClauseFormat.select
  split
  · rename_i narrow
    simp only [Bool.and_eq_true, decide_eq_true_eq] at narrow
    have size := narrow.2
    rw [if_neg (Nat.not_lt.2 size), if_neg]
    simp only [ClauseFormat.dataSize, ClauseFormat.headerSize, ClauseFormat.clauseSize,
      ClauseFormat.limit] at *
    omega
  · rfl

end Section

section
variable {m : Method} {d : Draft} {compact : Bool}

/-- The bytes of a draft. -/
def Draft.body (d : Draft) (compact : Bool) (front : Bytes) : Bytes :=
  front ++ (if d.clauses.isEmpty then [] else Section.bytes (d.format compact) d.clauses)

theorem length_handlers (hd : m.draft = .ok d) : d.clauses.length = m.handlers.length := by
  obtain ⟨l, cs, -, hc, rfl⟩ := Method.draft_iff.1 hd
  exact (mapM_ok.1 hc).length_eq.symm

variable (hd : m.draft = .ok d) {front : Bytes} (hf : d.front = .ok front)

include hd hf

theorem length_body (compact : Bool) : (d.body compact front).length = d.size compact := by
  rw [← length_front hd hf, Draft.body, List.length_append]
  cases d.clauses.isEmpty with
  | true => rfl
  | false => simp [Section.length_bytes]

/-- What is written into a buffer with room for the body. -/
theorem encodeInto_of_draft {buffer : Bytes} (room : d.size compact ≤ buffer.length) :
    m.encodeInto compact buffer =
      if 0xFFFFFF < ClauseFormat.fat.dataSize m.handlers.length
      then (.error (.encode (.sectionTooLarge m.handlers.length .fat)),
        Buffer.overwrite buffer 0 front)
      else (.ok (d.size compact, m.place d.layout),
        d.body compact front ++ buffer.drop (d.size compact)) := by
  have length := length_body hd hf compact
  have whole : ∀ bs : Bytes, Buffer.overwrite buffer 0 bs = bs ++ buffer.drop bs.length := by
    intro bs
    simp [Buffer.overwrite]
  rw [← length]
  unfold Method.encodeInto
  rw [hd]
  simp only
  rw [if_neg (Nat.not_lt.2 room), hf]
  simp only
  cases hc : d.clauses.isEmpty with
  | true =>
    have none : m.handlers.length = 0 := by
      rw [← length_handlers hd, List.isEmpty_iff.1 hc]
      rfl
    simp only [if_true, whole, none]
    rw [if_neg (by decide)]
    simp [Draft.body, hc]
  | false =>
    simp only [Bool.false_eq_true, if_false, Draft.format, Section.sizeFault?_select,
      length_handlers hd, whole]
    by_cases many : 0xFFFFFF < ClauseFormat.fat.dataSize m.handlers.length
    · simp only [many, if_true]
    · simp [many, Draft.body, hc, Draft.format]

end

/-- **A body that is encoded is written into any buffer with room for it**, and nothing behind it
is. -/
theorem encodeInto_of_encode {m m' : Method} {compact : Bool} {bytes buffer : Bytes}
    (h : m.encode compact = .ok (bytes, m')) (room : bytes.length ≤ buffer.length) :
    m.encodeInto compact buffer = (.ok (bytes.length, m'), bytes ++ buffer.drop bytes.length) := by
  obtain ⟨l, cs, -, hl, hc, -⟩ := Method.encode_iff.1 h
  have hd := Method.draft_iff.2 ⟨l, cs, hl, hc, rfl⟩
  obtain ⟨front, hf, size, rfl, rfl⟩ := (Method.encode_of_draft hd).1 h
  have length := length_body hd hf compact
  rw [Draft.body] at length
  rw [length] at room ⊢
  rw [encodeInto_of_draft hd hf room, if_neg, Draft.body]
  rw [← length_handlers hd]
  intro many
  cases he : cs.isEmpty with
  | true =>
    rw [List.isEmpty_iff.1 he] at many
    change 0xFFFFFF < ClauseFormat.fat.dataSize 0 at many
    exact absurd many (by decide)
  | false =>
    have := size he
    rw [Draft.format, Section.sizeFault?_select, if_pos many] at this
    cases this

/-- **Whatever is written into a buffer are the bytes of `encode`**, at its start. -/
theorem encode_of_encodeInto {m m' : Method} {compact : Bool} {size : Nat} {buffer buffer' : Bytes}
    (h : m.encodeInto compact buffer = (.ok (size, m'), buffer')) :
    m.encode compact = .ok (buffer'.take size, m') ∧ m.bodySize compact = .ok size ∧
      size ≤ buffer.length ∧ (buffer'.take size).length = size := by
  cases hd : m.draft with
  | error fault =>
    rw [Method.encodeInto, hd] at h
    cases h
  | ok d =>
    rcases Nat.lt_or_ge buffer.length (d.size compact) with short | room
    · rw [Method.encodeInto, hd] at h
      simp only [if_pos short] at h
      cases h
    · cases hf : d.front with
      | error fault =>
        rw [Method.encodeInto, hd] at h
        simp only [if_neg (Nat.not_lt.2 room), hf] at h
        cases h
      | ok front =>
        have length := length_body hd hf compact
        rw [encodeInto_of_draft hd hf room] at h
        split at h
        · cases h
        · rename_i few
          cases h
          rw [List.take_left' length]
          refine ⟨(Method.encode_of_draft hd).2 ⟨front, hf, fun he => ?_, rfl, rfl⟩, ?_, room, length⟩
          · rw [Draft.format, Section.sizeFault?_select, length_handlers hd, if_neg few]
          · rw [Method.bodySize, hd]
            rfl

section
variable {m : Method} (ordered : m.Ordered)

include ordered

/-- Whether there is anything to write, and if not, why. -/
theorem draft_cases :
    (∃ cause, m.validate = .error (.relocation cause) ∧ m.draft = .error (.relocation cause)) ∨
    (∃ size, m.layout = .error (.encode (.codeSize size)) ∧ m.TooLong ∧
      m.draft = .error (.encode (.codeSize size))) ∨
    ∃ d, m.draft = .ok d ∧ m.validate = .ok () ∧ ¬ m.TooLong := by
  have draft_error : ∀ fault, m.layout = .error fault → m.draft = .error fault := by
    intro fault h
    unfold Method.draft
    rw [h]
    rfl
  cases hf : m.relocationFault? with
  | some cause =>
    have invalid : m.validate = .error (.relocation cause) := by
      unfold Method.validate
      rw [hf]
    refine .inl ⟨cause, invalid, draft_error _ ?_⟩
    unfold Method.layout
    rw [invalid]
    rfl
  | none =>
    have valid : m.validate = .ok () := by
      unfold Method.validate
      rw [hf]
    have tooLong := layout_tooLong valid ordered
    obtain ⟨n, r, -, -, hl⟩ := layout_passes valid
    cases r with
    | error size => exact .inr (.inl ⟨size, hl, tooLong.1 ⟨size, hl⟩, draft_error _ hl⟩)
    | ok ss =>
      obtain ⟨cs, code, -, -, -, -, hd⟩ := draft_of_layout ordered hl
      refine .inr (.inr ⟨_, hd, valid, fun long => ?_⟩)
      obtain ⟨size, he⟩ := tooLong.2 long
      rw [hl] at he
      cases he

/-- **A method is refused and left alone, or it is written.** -/
theorem writeInto_cases (compact : Bool) (buffer : Bytes) :
    (∃ fault buffer', m.writeInto compact buffer = (.error fault, m, buffer') ∧
      m.Refused compact buffer.length fault ∧
      ((∀ size, m.bodySize compact = .ok size → buffer.length < size) → buffer' = buffer)) ∨
    ∃ size m' buffer', m.writeInto compact buffer = (.ok size, m', buffer') ∧
      m.validate = .ok () ∧ ¬ m.TooLong ∧ m.bodySize compact = .ok size ∧ size ≤ buffer.length ∧
      ClauseFormat.fat.dataSize m.handlers.length ≤ 0xFFFFFF := by
  have stays : ∀ fault, m.draft = .error fault →
      m.writeInto compact buffer = (.error fault, m, buffer) := by
    intro fault h
    unfold Method.writeInto
    rw [h]
  rcases draft_cases ordered with ⟨cause, invalid, hd⟩ | ⟨size, hl, long, hd⟩ | ⟨d, hd, valid, fits⟩
  · exact .inl ⟨_, _, stays _ hd, .invalid invalid, fun _ => rfl⟩
  · exact .inl ⟨_, _, stays _ hd, .tooLong hl long, fun _ => rfl⟩
  · have size : m.bodySize compact = .ok (d.size compact) := by
      unfold Method.bodySize
      rw [hd]
      rfl
    obtain ⟨front, hf⟩ := exists_front ordered hd
    rcases Nat.lt_or_ge buffer.length (d.size compact) with short | room
    · refine .inl ⟨_, _, ?_, .noRoom size short, fun _ => rfl⟩
      unfold Method.writeInto
      rw [hd]
      exact if_pos short
    · have written := Method.writeInto_eq ordered compact buffer
      rw [encodeInto_of_draft hd hf room] at written
      rcases Nat.lt_or_ge 0xFFFFFF (ClauseFormat.fat.dataSize m.handlers.length) with many | few
      · rw [if_pos many] at written
        refine .inl ⟨_, _, written, .manyClauses size room many, fun short => ?_⟩
        exact absurd (short _ size) (Nat.not_lt.2 room)
      · rw [if_neg (Nat.not_lt.2 few)] at written
        exact .inr ⟨_, _, _, written, valid, fits, size, room, few⟩

/-- The bytes that are written when there are any. -/
theorem encode_of_bodySize {compact : Bool} {size : Nat} (hs : m.bodySize compact = .ok size)
    (few : ClauseFormat.fat.dataSize m.handlers.length ≤ 0xFFFFFF) :
    ∃ l cs code, m.layout = .ok l ∧ l.code = .ok code ∧ code.length = l.codeSize ∧
      List.Forall₂ l.States m.handlers cs ∧
      m.encode compact = .ok ((l.header m cs).fields.flatten
        ++ (code ++ l.tail compact (l.header m cs) cs), m.place l) ∧
      ((l.header m cs).fields.flatten
        ++ (code ++ l.tail compact (l.header m cs) cs)).length = size := by
  obtain ⟨d, hd, rfl⟩ : ∃ d, m.draft = .ok d ∧ size = d.size compact := by
    obtain ⟨d, hd, rfl⟩ := map_ok.1 hs
    exact ⟨d, hd, rfl⟩
  obtain ⟨l, -, hl, -, -⟩ := Method.draft_iff.1 hd
  obtain ⟨cs, code, hc, states, hcode, length, hd'⟩ := draft_of_layout ordered hl
  have small : (ClauseFormat.select cs compact).dataSize cs.length
      ≤ (ClauseFormat.select cs compact).limit := by
    rw [← Method.sizeFault_eq_none, Section.sizeFault?_select, (mapM_ok.1 hc).length_eq.symm,
      if_neg (Nat.not_lt.2 few)]
  have encoded : m.encode compact = .ok ((l.header m cs).fields.flatten
      ++ (code ++ l.tail compact (l.header m cs) cs), m.place l) :=
    Method.encode_iff.2 ⟨l, cs, code, hl, hc, hcode, fun _ => small, rfl, rfl⟩
  rw [hd, Except.ok.injEq] at hd'
  subst hd'
  refine ⟨l, cs, code, hl, hcode, length, states, encoded, ?_⟩
  obtain ⟨front, hf, -, e, -⟩ := (Method.encode_of_draft hd).1 encoded
  rw [e]
  exact length_body hd hf compact

end

/-- **Writing is exactly sized, total and atomic.** Written field by field, a body comes out as
`encodeInto` has it at once. Writing stops for one of four reasons and leaves the method alone; for
lack of room it leaves the buffer alone too. In all other cases the body has the announced size,
its bytes depend on nothing but the method, and what stands behind them stays. -/
theorem writeInto_exact {m : Method} (built : m.Built) (compact : Bool) :
    (∀ buffer : Bytes,
      (m.encodeInto compact buffer =
        ((m.writeInto compact buffer).1.map fun size => (size, (m.writeInto compact buffer).2.1),
          (m.writeInto compact buffer).2.2)) ∧
      ((∃ fault, (m.writeInto compact buffer).1 = .error fault) ↔
        m.validate ≠ .ok () ∨ m.TooLong ∨
          (∃ size, m.bodySize compact = .ok size ∧ buffer.length < size) ∨
          0xFFFFFF < ClauseFormat.fat.dataSize m.handlers.length) ∧
      ∀ fault, (m.writeInto compact buffer).1 = .error fault →
        m.Refused compact buffer.length fault ∧ (m.writeInto compact buffer).2.1 = m ∧
        ((∀ size, m.bodySize compact = .ok size → buffer.length < size) →
          (m.writeInto compact buffer).2.2 = buffer)) ∧
    ((∃ size, m.bodySize compact = .ok size) ↔ m.validate = .ok () ∧ ¬ m.TooLong) ∧
    ∀ size, m.bodySize compact = .ok size →
      ClauseFormat.fat.dataSize m.handlers.length ≤ 0xFFFFFF →
      ∃ l cs code, m.layout = .ok l ∧ l.code = .ok code ∧ code.length = l.codeSize ∧
        (l.header m cs).codeSize.toNat = l.codeSize ∧ List.Forall₂ l.States m.handlers cs ∧
        (∀ r ∈ l.rows, r.instruction.targets.length < UInt32.size) ∧
        ((l.header m cs).fields.flatten
          ++ (code ++ l.tail compact (l.header m cs) cs)).length = size ∧
        ∀ buffer : Bytes, size ≤ buffer.length → m.writeInto compact buffer =
          (.ok size, m.place l, (l.header m cs).fields.flatten
            ++ (code ++ l.tail compact (l.header m cs) cs) ++ buffer.drop size) := by
  have ordered := built.ordered
  refine ⟨fun buffer => ⟨?_, ?_, ?_⟩, ?_, ?_⟩
  · rw [Method.writeInto_eq ordered]
    rcases m.encodeInto compact buffer with ⟨result, buffer'⟩
    cases result <;> rfl
  · constructor
    · rintro ⟨fault, stopped⟩
      rcases writeInto_cases ordered compact buffer with ⟨_, _, -, refused, -⟩ | ⟨_, _, _, e, -⟩
      · cases refused with
        | invalid h => exact .inl (by rw [h]; nofun)
        | tooLong _ h => exact .inr (.inl h)
        | noRoom h short => exact .inr (.inr (.inl ⟨_, h, short⟩))
        | manyClauses _ _ h => exact .inr (.inr (.inr h))
      · rw [e] at stopped
        cases stopped
    · intro h
      rcases writeInto_cases ordered compact buffer with
        ⟨fault, _, e, -⟩ | ⟨size, _, _, -, valid, fits, announced, room, few⟩
      · exact ⟨fault, by rw [e]⟩
      · rcases h with h | h | ⟨size', h, short⟩ | h
        · exact absurd valid h
        · exact absurd h fits
        · rw [announced, Except.ok.injEq] at h
          omega
        · omega
  · intro fault stopped
    rcases writeInto_cases ordered compact buffer with ⟨_, _, e, refused, stays⟩ | ⟨_, _, _, e, -⟩
    · rw [e] at stopped
      cases stopped
      rw [e]
      exact ⟨refused, rfl, stays⟩
    · rw [e] at stopped
      cases stopped
  · rcases draft_cases ordered with ⟨cause, h, hd⟩ | ⟨size, -, h, hd⟩ | ⟨d, hd, valid, fits⟩
    all_goals simp only [Method.bodySize, hd, Except.map]
    · simp [h]
    · simp [h]
    · simp [valid, fits]
  · intro size announced few
    obtain ⟨l, cs, code, hl, hcode, length, states, encoded, total⟩ :=
      encode_of_bodySize ordered announced few
    have lays := Layout.lays_of_layout hl
    refine ⟨l, cs, code, hl, hcode, length, lays.codeSize_header cs, states, ?_, total, ?_⟩
    · intro r hr
      exact Layout.length_targets (Nat.le_trans (lays.run.next_le.2 r hr) lays.limit)
    · intro buffer room
      rw [Method.writeInto_eq ordered, encodeInto_of_encode encoded (by omega), total]

/-- The jump and the return take four bytes of any longer buffer, and are not written into two. -/
theorem writeInto_exact_jumpAhead : jumpAhead.Built ∧ jumpAhead.bodySize true = .ok 4 ∧
    (∃ body m', body.length = 4 ∧ ∀ buffer : Bytes, 4 ≤ buffer.length →
      jumpAhead.writeInto true buffer = (.ok 4, m', body ++ buffer.drop 4)) ∧
    ∃ fault, (jumpAhead.writeInto true [7, 7]).1 = .error fault ∧ jumpAhead.Refused true 2 fault ∧
      (jumpAhead.writeInto true [7, 7]).2 = (jumpAhead, [7, 7]) := by
  have announced : jumpAhead.bodySize true = .ok 4 := by decide +kernel
  obtain ⟨refused, -, written⟩ := writeInto_exact jumpAhead_built true
  refine ⟨jumpAhead_built, announced, ?_, ?_⟩
  · obtain ⟨l, cs, code, -, -, -, -, -, -, length, writes⟩ := written 4 announced (by decide)
    exact ⟨_, _, length, writes⟩
  · obtain ⟨-, stops, left⟩ := refused [7, 7]
    obtain ⟨fault, stopped⟩ := stops.2 (.inr (.inr (.inl ⟨4, announced, by decide⟩)))
    obtain ⟨reason, same, untouched⟩ := left fault stopped
    refine ⟨fault, stopped, reason, Prod.ext same (untouched fun size h => ?_)⟩
    rw [announced, Except.ok.injEq] at h
    rw [← h]
    decide

end CilProbes
