import CilProbes.Proofs.Writing.Total

/-!
# Chains of written sections

Exception sections are written one at a time, and other programs put sections of their own between
them. Whatever stands in such a chain, reading it gives the clauses of the exception sections.

* `Buffer.putAll_cases`, `Section.written_write`: what writing a section comes to, in any buffer.
* `ClauseFormat.select_eq_small`: when the narrow format is chosen.
* `Section.Chain`: links one behind the other, each on a multiple of four.
* `Chain.chainBytes`: a chain has the format that is read.
* `sections_written_read`: writing and reading in one statement.
-/

namespace CilProbes

/-! ## Writing up to the end of a buffer -/

/-- Byte strings of one length that differ at most in `size` bytes from `offset` on. -/
structure AgreesOutside (offset size : Nat) (old new : Bytes) : Prop where
  length : new.length = old.length
  before : new.take offset = old.take offset
  behind : new.drop (offset + size) = old.drop (offset + size)

theorem AgreesOutside.refl (offset size : Nat) (bs : Bytes) : AgreesOutside offset size bs bs :=
  ⟨rfl, rfl, rfl⟩

namespace Buffer

/-- What is written over a stretch of the bytes leaves the others alone. -/
theorem agreesOutside_overwrite {data bs : Bytes} {offset size : Nat}
    (fits : offset + bs.length ≤ data.length) (short : bs.length ≤ size) :
    AgreesOutside offset size data (overwrite data offset bs) where
  length := length_overwrite fits
  before := by
    unfold overwrite
    rw [List.append_assoc, List.take_left' (List.length_take_of_le (by omega))]
  behind := by
    have reach : offset + size = (data.take offset ++ bs).length + (size - bs.length) := by
      rw [List.length_append, List.length_take_of_le (by omega)]
      omega
    have again : offset + bs.length + (size - bs.length) = offset + size := by omega
    unfold overwrite
    rw [reach, ← List.drop_drop, List.drop_left, List.drop_drop, again, ← reach]

/-- The leading fields that fit are as many bytes as there is room for, or fewer. -/
theorem length_fitting_le (room : Nat) (fields : List Bytes) :
    (fitting room fields).1.length ≤ room ∧
      (fitting room fields).1.length ≤ fields.flatten.length := by
  induction fields generalizing room with
  | nil => simp [fitting]
  | cons f fs ih =>
    unfold fitting
    split
    · have rest := ih (room - f.length)
      simp only [List.length_append, List.flatten_cons]
      omega
    · simp

/-- Fields that do not fit do not all go in. -/
theorem fitting_short {room : Nat} {fields : List Bytes} (h : room < fields.flatten.length) :
    (fitting room fields).2 = false := by
  induction fields generalizing room with
  | nil => simp at h
  | cons f fs ih =>
    unfold fitting
    split
    · simp only [List.flatten_cons, List.length_append] at h
      exact ih (by omega)
    · rfl

/-- **Fields go in as a whole, or up to the end of the buffer.** -/
theorem putAll_cases (b : Buffer) (fields : List Bytes) :
    (b.offset + fields.flatten.length ≤ b.data.length ∧ b.putAll fields =
      (⟨overwrite b.data b.offset fields.flatten, b.offset + fields.flatten.length⟩, true)) ∨
    (b.data.length < b.offset + fields.flatten.length ∧
      (fields ≠ [] → (b.putAll fields).2 = false) ∧
      AgreesOutside b.offset fields.flatten.length b.data (b.putAll fields).1.data) := by
  unfold putAll
  by_cases inside : b.offset ≤ b.data.length
  · rw [if_pos inside]
    by_cases fits : b.offset + fields.flatten.length ≤ b.data.length
    · rw [fitting_eq (by omega)]
      exact .inl ⟨fits, rfl⟩
    · obtain ⟨room, part⟩ := length_fitting_le (b.data.length - b.offset) fields
      exact .inr ⟨Nat.not_le.1 fits, fun _ => fitting_short (by omega),
        agreesOutside_overwrite (by omega) part⟩
  · rw [if_neg inside]
    exact .inr ⟨by omega, fun some => by simpa using some, .refl _ _ _⟩

end Buffer

/-- **The narrow format is chosen** where it is allowed, and every field of the clauses and the size
of the section fit it. -/
theorem ClauseFormat.select_eq_small {cs : List Clause} {compact : Bool} :
    select cs compact = small ↔ compact = true ∧
      (∀ c ∈ cs, c.tryOffset.toNat < 2 ^ 16 ∧ c.handlerOffset.toNat < 2 ^ 16 ∧
        c.tryLength.toNat < 2 ^ 8 ∧ c.handlerLength.toNat < 2 ^ 8) ∧
      4 + cs.length * 12 ≤ 255 := by
  have fits : ∀ c : Clause, c.fitsSmall = true ↔ c.tryOffset.toNat < 2 ^ 16 ∧
      c.handlerOffset.toNat < 2 ^ 16 ∧ c.tryLength.toNat < 2 ^ 8 ∧
      c.handlerLength.toNat < 2 ^ 8 := by
    intro c
    simp only [Clause.fitsSmall, Bool.and_eq_true, decide_eq_true_eq, UInt32.le_iff_toNat_le,
      UInt32.reduceToNat]
    omega
  have chosen : select cs compact = small ↔ (compact && cs.all (·.fitsSmall) &&
      decide (small.dataSize cs.length ≤ small.limit)) = true := by
    unfold select
    split <;> simp [*]
  rw [chosen]
  simp only [Bool.and_eq_true, List.all_eq_true, fits, decide_eq_true_eq, and_assoc]
  rfl

namespace Section

/-! ## Writing a section -/

/-- **The ways in which writing a section ends**, with the buffer that is left. -/
inductive Written (format : ClauseFormat) (cs : List Clause) (b : Buffer) :
    Except Fault Unit → Buffer → Prop
  | whole : format.dataSize cs.length ≤ 0xFFFFFF →
      b.offset + format.dataSize cs.length ≤ b.data.length →
      Written format cs b (.ok ()) ⟨Buffer.overwrite b.data b.offset (bytes format cs),
        b.offset + format.dataSize cs.length⟩
  | tooLarge : 0xFFFFFF < format.dataSize cs.length →
      Written format cs b (.error (.encode (.sectionTooLarge cs.length format))) b
  | cutShort {b' : Buffer} : format.dataSize cs.length ≤ 0xFFFFFF →
      b.data.length < b.offset + format.dataSize cs.length →
      AgreesOutside b.offset (format.dataSize cs.length) b.data b'.data →
      Written format cs b (.error .outOfBounds) b'

theorem fields_ne_nil (format : ClauseFormat) (cs : List Clause) : fields format cs ≠ [] := by
  cases format <;> simp [fields, headerFields]

/-- The chosen format can state every size up to the limit of the wide one. -/
theorem limit_select (cs : List Clause) (compact : Bool) :
    (ClauseFormat.select cs compact).limit < (ClauseFormat.select cs compact).dataSize cs.length ↔
      0xFFFFFF < (ClauseFormat.select cs compact).dataSize cs.length := by
  cases chosen : ClauseFormat.select cs compact with
  | fat => rfl
  | small =>
    have size : ClauseFormat.small.dataSize cs.length ≤ 255 :=
      (ClauseFormat.select_eq_small.1 chosen).2.2
    have limit : ClauseFormat.small.limit = 255 := rfl
    omega

/-- **A section in the chosen format is written as a whole**, unless it is too large or the buffer
ends before. -/
theorem written_write (cs : List Clause) (compact : Bool) (b : Buffer) :
    Written (ClauseFormat.select cs compact) cs b (write (ClauseFormat.select cs compact) cs b).1
      (write (ClauseFormat.select cs compact) cs b).2 := by
  have holds : ∀ c ∈ cs, Section.holds (ClauseFormat.select cs compact) c = true := holds_select
  have limit := limit_select cs compact
  generalize ClauseFormat.select cs compact = format at holds limit
  by_cases large : format.limit < format.dataSize cs.length
  · have fault : sizeFault? format cs = some (.encode (.sectionTooLarge cs.length format)) :=
      if_pos large
    rw [write_of_fault b fault]
    exact .tooLarge (limit.1 large)
  · have length : (fields format cs).flatten.length = format.dataSize cs.length :=
      length_bytes format cs
    have small : format.dataSize cs.length ≤ 0xFFFFFF := Nat.not_lt.1 fun h => large (limit.2 h)
    rw [write_of_holds (if_neg large) holds]
    rcases b.putAll_cases (fields format cs) with ⟨room, whole⟩ | ⟨short, part, outside⟩
    · rw [whole, length]
      exact .whole small (length ▸ room)
    · rw [part (fields_ne_nil format cs)]
      exact .cutShort small (length ▸ short) (length ▸ outside)

section
variable {format : ClauseFormat} {cs : List Clause} {b b' : Buffer} {outcome : Except Fault Unit}
  (h : Written format cs b outcome b')

include h

theorem Written.ok_iff : outcome = .ok () ↔
    format.dataSize cs.length ≤ 0xFFFFFF ∧
      b.offset + format.dataSize cs.length ≤ b.data.length := by
  cases h with
  | whole small room => simp [small, room]
  | tooLarge large => simp [Nat.not_le.2 large]
  | cutShort small short => simp [Nat.not_le.2 short]

theorem Written.result (done : outcome = .ok ()) :
    (bytes format cs).length = format.dataSize cs.length ∧
      b' = ⟨b.data.take b.offset ++ bytes format cs
        ++ b.data.drop (b.offset + format.dataSize cs.length),
        b.offset + format.dataSize cs.length⟩ := by
  have length := length_bytes format cs
  cases h with
  | whole => exact ⟨length, by rw [Buffer.overwrite, length]⟩
  | tooLarge | cutShort => cases done

theorem Written.not_tooWide (c : Clause) : outcome ≠ .error (.encode (.clauseTooWide c)) := by
  cases h <;> simp

/-- Whatever the outcome, only the bytes of the section may change. -/
theorem Written.outside : AgreesOutside b.offset (format.dataSize cs.length) b.data b'.data := by
  have length := length_bytes format cs
  cases h with
  | whole small room => exact Buffer.agreesOutside_overwrite (length ▸ room) (Nat.le_of_eq length)
  | tooLarge => exact .refl _ _ _
  | cutShort _ _ outside => exact outside

end

/-! ## Chains -/

/-- A section of a chain: clauses in the format that is chosen for them, or something else behind a
header of its own. -/
inductive Link where
  | clauses (compact : Bool) (cs : List Clause)
  | foreign (kind : UInt8) (size payload : Bytes)

namespace Link

/-- The section, as if it were the last. -/
def bytes : Link → Bytes
  | clauses compact cs => Section.bytes (ClauseFormat.select cs compact) cs
  | foreign kind size payload => kind :: (size ++ payload)

/-- What a reader is to find. -/
def found : Link → List Clause
  | clauses _ cs => cs
  | foreign .. => []

/-- Clauses have flags with a meaning and are not too many. Anything else must not be marked as
clauses, and its header states its size. -/
def Sound : Link → Prop
  | clauses compact cs => (∀ c ∈ cs, c.flags.masked = c.flags) ∧
      (ClauseFormat.select cs compact).dataSize cs.length ≤ 0xFFFFFF
  | foreign kind size payload => kind &&& exceptionBit = 0 ∧ kind &&& moreBit = 0 ∧
      SizeBytes (formatOf kind) size (ClauseFormat.headerSize + payload.length)

end Link

/-- Sets the bit that announces another section, in the first byte. -/
def announce : Bytes → Bytes
  | [] => []
  | kind :: bs => (kind ||| moreBit) :: bs

/-- **A chain of links from a place on.** Each starts on a multiple of four, whatever the bytes in
between, and all but the last announce another. -/
inductive Chain : Nat → List Link → Bytes → Prop
  | last {p : Nat} {link : Link} : p % alignment = 0 → link.Sound → Chain p [link] link.bytes
  | more {p : Nat} {link : Link} (gap : Bytes) {links : List Link} {bs : Bytes} :
      p % alignment = 0 → link.Sound → gap.length < alignment →
      Chain (p + link.bytes.length + gap.length) links bs →
      Chain p (link :: links) (announce link.bytes ++ (gap ++ bs))

theorem length_announce (bs : Bytes) : (announce bs).length = bs.length := by
  cases bs <;> rfl

/-- A kind byte with or without the bit that announces another section. -/
def kindOf (kind : UInt8) (more : Bool) : UInt8 := if more then kind ||| moreBit else kind

/-- The bit that announces another section has no other meaning. -/
theorem kindOf_bits (kind : UInt8) (more : Bool) (quiet : kind &&& moreBit = 0) :
    (kindOf kind more &&& moreBit != 0) = more ∧
      kindOf kind more &&& exceptionBit = kind &&& exceptionBit ∧
      formatOf (kindOf kind more) = formatOf kind := by
  have all : ∀ kind : UInt8, (kind ||| moreBit) &&& moreBit ≠ 0 ∧
      (kind ||| moreBit) &&& exceptionBit = kind &&& exceptionBit ∧
      (kind ||| moreBit) &&& fatBit = kind &&& fatBit := by
    rintro ⟨⟨kind⟩⟩
    revert kind
    decide +kernel
  cases more with
  | false => simp [kindOf, quiet]
  | true =>
    obtain ⟨set, clauses, fat⟩ := all kind
    simp [kindOf, formatOf, set, clauses, fat]

/-- **A link has the format of a section**, behind any padding. -/
theorem Link.sectionBytes {link : Link} (sound : link.Sound) {p : Nat} {pad : Bytes} (more : Bool)
    (hpad : pad.length = Cursor.padding alignment p) :
    SectionBytes p (pad ++ if more then announce link.bytes else link.bytes) link.found more := by
  -- Every link is a kind, a size and a payload; only the kind says whether another follows.
  have of_parts : ∀ (kind : UInt8) (size payload : Bytes) (cs : List Clause),
      kind &&& moreBit = 0 →
      SizeBytes (formatOf kind) size (ClauseFormat.headerSize + payload.length) →
      PayloadBytes kind payload cs → link.bytes = kind :: (size ++ payload) →
      SectionBytes p (pad ++ if more then announce link.bytes else link.bytes) cs more := by
    intro kind size payload cs quiet hsize hpayload parts
    obtain ⟨last, clauses, format⟩ := kindOf_bits kind more quiet
    have hpayload' : PayloadBytes (kindOf kind more) payload cs := by
      unfold PayloadBytes at hpayload ⊢
      rwa [clauses, format]
    have written := SectionBytes.mk pad (kindOf kind more) size payload cs hpad (format ▸ hsize)
      hpayload'
    rw [last] at written
    rw [parts]
    cases more <;> exact written
  cases link with
  | foreign kind size payload =>
    obtain ⟨other, quiet, hsize⟩ := sound
    have nothing : PayloadBytes kind payload [] := by
      rw [PayloadBytes, if_pos other]
    exact of_parts kind size payload [] quiet hsize nothing rfl
  | clauses compact cs =>
    obtain ⟨known, few⟩ := sound
    have size := Nat.not_lt.1 fun large => Nat.not_lt.2 few ((limit_select cs compact).1 large)
    obtain ⟨kind, stated, payload, parts, quiet, hsize, rows⟩ := parts_bytes known holds_select size
    exact of_parts kind stated payload cs quiet hsize rows parts

/-- **A chain has the format that is read**, also with the padding in front of it. -/
theorem Chain.chainBytes {p q : Nat} {links : List Link} {bs gap : Bytes} (h : Chain q links bs)
    (behind : q = p + gap.length) (short : gap.length < alignment) :
    ChainBytes p (gap ++ bs) (links.flatMap Link.found) := by
  -- The gap in front of a section is the padding that its reader skips.
  have padded : ∀ {p q : Nat} {gap : Bytes}, q % alignment = 0 → q = p + gap.length →
      gap.length < alignment → gap.length = Cursor.padding alignment p := by
    intro p q gap aligned behind short
    simp only [alignment, Cursor.padding] at *
    omega
  induction h generalizing p gap with
  | last aligned sound =>
    have only := Link.sectionBytes sound false (padded aligned behind short)
    simp only [List.flatMap_cons, List.flatMap_nil, List.append_nil]
    exact .last only
  | @more q link between links bs aligned sound narrow _ ih =>
    have first := Link.sectionBytes sound true (padded aligned behind short)
    simp only [if_true] at first
    have place : q + link.bytes.length + between.length
        = p + (gap ++ announce link.bytes).length + between.length := by
      rw [List.length_append, length_announce, behind]
      omega
    rw [List.flatMap_cons, ← List.append_assoc]
    exact .more first (ih place narrow)

theorem Chain.length_pos {p : Nat} {links : List Link} {bs : Bytes} (h : Chain p links bs) :
    0 < bs.length := by
  have length : ∀ link : Link, 0 < link.bytes.length := by
    intro link
    cases link with
    | foreign => exact Nat.succ_pos _
    | clauses compact cs =>
      rw [Link.bytes, length_bytes, ClauseFormat.dataSize]
      exact Nat.lt_of_lt_of_le (by decide) (Nat.le_add_right _ _)
  cases h with
  | last => exact length _
  | more =>
    rw [List.length_append, length_announce]
    exact Nat.lt_of_lt_of_le (length _) (Nat.le_add_right _ _)

/-- **A chain is read as a whole**: every clause in order, to the end of the last section. -/
theorem Chain.read {links : List Link} {bs : Bytes} {c : Cursor} (h : Chain c.pos links bs)
    (ahead : bs <+: c.rest) :
    readChain.runAt c = (.ok (links.flatMap Link.found), c.skip bs.length) := by
  have inside : c.pos ≤ c.data.size := by
    have some := Nat.lt_of_lt_of_le h.length_pos ahead.length_le
    rw [Cursor.length_rest, Cursor.remaining] at some
    omega
  have chain : ChainBytes c.pos ([] ++ bs) _ := h.chainBytes rfl (by decide)
  exact (readChain_reads c _ _ inside).2 ⟨bs, chain, ahead, rfl⟩

end Section

open Section in
/-- **Exception sections are written exactly, and read back from any chain.** In the format that is
chosen for its clauses, a section is written if and only if its size can be stated and the buffer
has room for it; then the bytes at the offset are the section, and the offset stands behind them. No
clause is ever too wide for its format, and whatever the outcome, the other bytes of the buffer are
left alone. The narrow format is chosen exactly where it can hold everything. A chain of such
sections and others is read from its first section: the result are the clauses in order, and the
cursor stands right behind the last section. -/
theorem sections_written_read :
    (∀ (cs : List Clause) (compact : Bool) (b : Buffer),
      let format := ClauseFormat.select cs compact
      let size := 4 + cs.length * format.clauseSize
      ((write format cs b).1 = .ok () ↔ size ≤ 0xFFFFFF ∧ b.offset + size ≤ b.data.length) ∧
      ((write format cs b).1 = .ok () → (bytes format cs).length = size ∧ (write format cs b).2 =
        ⟨b.data.take b.offset ++ bytes format cs ++ b.data.drop (b.offset + size),
          b.offset + size⟩) ∧
      (∀ c, (write format cs b).1 ≠ .error (.encode (.clauseTooWide c))) ∧
      AgreesOutside b.offset size b.data (write format cs b).2.data) ∧
    (∀ (cs : List Clause) (compact : Bool), ClauseFormat.select cs compact = .small ↔
      compact = true ∧
      (∀ c ∈ cs, c.tryOffset.toNat < 2 ^ 16 ∧ c.handlerOffset.toNat < 2 ^ 16 ∧
        c.tryLength.toNat < 2 ^ 8 ∧ c.handlerLength.toNat < 2 ^ 8) ∧
      4 + cs.length * 12 ≤ 255) ∧
    ∀ (links : List Link) (bs : Bytes) (c : Cursor), Chain c.pos links bs → bs <+: c.rest →
      readChain.runAt c = (.ok (links.flatMap Link.found), c.skip bs.length) := by
  refine ⟨fun cs compact b => ?_, fun cs compact => ClauseFormat.select_eq_small,
    fun links bs c chain ahead => chain.read ahead⟩
  have written := written_write cs compact b
  exact ⟨written.ok_iff, written.result, written.not_tooWide, written.outside⟩

namespace Section

/-- A typed clause in the wide format behind a foreign section of seven bytes, and a clause of
another kind in the narrow one. -/
def threeLinks : List Link :=
  [.foreign 0x02 [7, 0xAA, 0xBB] [1, 2, 3],
    .clauses false [⟨⟨0⟩, 0, 1, 1, 1, 0x0100001E⟩],
    .clauses true [⟨⟨2⟩, 0x1234, 255, 1, 1, 0⟩]]

/-- Their bytes from place four on. -/
def threeLinksBytes : Bytes :=
  [0x82, 7, 0xAA, 0xBB, 1, 2, 3, 0xEE,
    0xC1, 28, 0, 0, 0, 0, 0, 0, 0, 0, 0, 0, 1, 0, 0, 0, 1, 0, 0, 0, 1, 0, 0, 0, 0x1E, 0, 0, 1,
    0x01, 16, 0, 0, 2, 0, 0x34, 0x12, 255, 1, 0, 1, 0, 0, 0, 0]

theorem chain_threeLinks : Chain 4 threeLinks threeLinksBytes := by
  have narrow : Chain 40 [.clauses true [⟨⟨2⟩, 0x1234, 255, 1, 1, 0⟩]] _ :=
    .last (by decide) ⟨by decide, by decide⟩
  have wide : Chain 12 (.clauses false [⟨⟨0⟩, 0, 1, 1, 1, 0x0100001E⟩] :: _) _ :=
    .more [] (by decide) ⟨by decide, by decide⟩ (by decide) narrow
  exact .more [0xEE] (by decide) ⟨by decide, by decide, .small 7 [0xAA, 0xBB] rfl⟩
    (by decide) wide

end Section

/-- The narrow section is written between two bytes; and both clauses are read, from behind four
other bytes up to the last one. -/
theorem sections_written_read_threeLinks :
    let cs : List Clause := [⟨⟨2⟩, 0x1234, 255, 1, 1, 0⟩]
    let b : Buffer := ⟨List.replicate 18 9, 1⟩
    let c : Cursor := ⟨([9, 9, 9, 9] ++ Section.threeLinksBytes ++ [9]).toArray, 4⟩
    (Section.write (ClauseFormat.select cs true) cs b).1 = .ok () ∧
    (Section.write (ClauseFormat.select cs true) cs b).2
      = ⟨[9, 0x01, 16, 0, 0, 2, 0, 0x34, 0x12, 255, 1, 0, 1, 0, 0, 0, 0, 9], 17⟩ ∧
    Section.Chain c.pos Section.threeLinks Section.threeLinksBytes ∧
    Section.readChain.runAt c
      = (.ok [⟨⟨0⟩, 0, 1, 1, 1, 0x0100001E⟩, ⟨⟨2⟩, 0x1234, 255, 1, 1, 0⟩], ⟨c.data, 56⟩) := by
  intro cs b c
  obtain ⟨writes, -, reads⟩ := sections_written_read
  obtain ⟨room, result, -⟩ := writes cs true b
  have done := room.2 (by decide)
  have rest : c.rest = Section.threeLinksBytes ++ [9] := by decide
  have ahead : Section.threeLinksBytes <+: c.rest := rest ▸ List.prefix_append _ _
  exact ⟨done, (result done).2.trans (by decide), Section.chain_threeLinks,
    reads _ _ c Section.chain_threeLinks ahead⟩

end CilProbes
