import CilProbes.Proofs.Method.Built
import CilProbes.Proofs.Reading.Header
import CilProbes.Proofs.Reading.Instruction
import CilProbes.Proofs.Reading.Section

/-!
# Decoding accepts exactly the body format

`IsBody d h ps cs` is the format of a body, without a reader: `d` starts with the header `h`, the
code is the row `ps` of instructions, each displacement leads to one of them, and behind the code
stands a chain of sections with the clauses `cs`, of which every boundary is met.

* `decode_iff`: a body is decoded if and only if it has the format, and then into `linked h ps cs`.
* `codeBytes_linked`: the instructions of that method, each written with the displacements of its
  targets, are the code again.
* `decode_exact`: both in one statement.
-/

namespace CilProbes

open Reader

/-! ## The format -/

/-- The offsets at which the instructions of a row start. -/
def starts (ps : List Placed) : List Nat := ps.map (·.offset)

/-- The number of the instruction of a row that starts at an offset. -/
def placeOf (ps : List Placed) (offset : Nat) : InstrId := (starts ps).idxOf offset

/-- The end of a region is an instruction, or the end of the code. -/
def EndMet (ps : List Placed) (codeSize offset length : Nat) : Prop :=
  offset + length < UInt32.size ∧ (offset + length = codeSize ∨ offset + length ∈ starts ps)

/-- The boundaries of a clause are met. -/
structure ClauseMet (ps : List Placed) (codeSize : Nat) (c : Clause) : Prop where
  tryStart : c.tryOffset.toNat ∈ starts ps
  tryEnd : EndMet ps codeSize c.tryOffset.toNat c.tryLength.toNat
  handlerStart : c.handlerOffset.toNat ∈ starts ps
  handlerEnd : EndMet ps codeSize c.handlerOffset.toNat c.handlerLength.toNat
  filterStart : c.flags.isFilter → c.filterOrType.toNat ∈ starts ps

/-- **The format of a body.** -/
structure IsBody (d : Bytes) (h : Header) (ps : List Placed) (cs : List Clause) : Prop where
  header : HeaderBytes d h
  fits : h.size + h.codeSize.toNat ≤ d.length
  tiled : Tiled Placed.Stands 0 ((d.drop h.size).take h.codeSize.toNat) ps
  targets : ∀ q ∈ ps, ∀ disp ∈ q.coded.operand.targets,
    ∃ start ∈ starts ps, (start : Int) = q.next + disp
  sections : if h.hasSections
    then ∃ bs, Section.ChainBytes (h.size + h.codeSize.toNat) bs cs ∧
      bs <+: d.drop (h.size + h.codeSize.toNat)
    else cs = []
  clauses : ∀ c ∈ cs, ClauseMet ps h.codeSize.toNat c

/-! ## The method of a body -/

/-- An instruction of a row with its targets by number. -/
def Placed.linked (ps : List Placed) (q : Placed) : Instruction :=
  ⟨q.coded.opcode, q.coded.operand.map fun disp => placeOf ps ((q.next : Int) + disp).toNat,
    some q.offset, q.offset⟩

/-- The instruction behind a region, if the region ends before the code does. -/
def endOf (ps : List Placed) (codeSize stop : Nat) : Option InstrId :=
  if stop = codeSize then none else some (placeOf ps stop)

/-- A clause with its boundaries by number. -/
def Clause.linked (ps : List Placed) (codeSize : Nat) (c : Clause) : Handler where
  flags := c.flags
  tryStart := placeOf ps c.tryOffset.toNat
  tryEnd := endOf ps codeSize (c.tryOffset.toNat + c.tryLength.toNat)
  handlerStart := placeOf ps c.handlerOffset.toNat
  handlerEnd := endOf ps codeSize (c.handlerOffset.toNat + c.handlerLength.toNat)
  filterStart := if c.flags.isFilter then some (placeOf ps c.filterOrType.toNat) else none
  classToken := if c.flags.isFilter then .null else ⟨c.filterOrType⟩

/-- **The method of a body**: its instructions in order, numbered from zero. -/
def Method.linked (h : Header) (ps : List Placed) (cs : List Clause) : Method where
  stock := (ps.map (Placed.linked ps)).toArray
  order := List.range ps.length
  maxStack := h.maxStack
  locals := h.locals.nonNull?
  zeroLocals := h.zeroesLocals
  handlers := cs.map (Clause.linked ps h.codeSize.toNat)

/-! ## Rows of instructions -/

section
variable {p : Nat} {code : Bytes} {ps : List Placed}

theorem Reader.Tiled.starts_ge (h : Tiled Placed.Stands p code ps) : ∀ o ∈ starts ps, p ≤ o := by
  induction h with
  | nil => exact fun _ h => by cases h
  | cons hs _ ih =>
    intro o ho
    rcases List.mem_cons.1 ho with rfl | ho
    · exact Nat.le_of_eq hs.1.symm
    · exact Nat.le_trans (Nat.le_add_right ..) (ih o ho)

/-- Instructions start one behind the other. -/
theorem Reader.Tiled.starts_sorted (h : Tiled Placed.Stands p code ps) :
    (starts ps).Pairwise (· < ·) := by
  induction h with
  | nil => exact .nil
  | @cons p b bs q qs hs ht ih =>
    refine .cons (fun o ho => ?_) ih
    have := ht.starts_ge o ho
    have := List.length_pos_iff.2 (Coded.stands_nonempty _ _ _ hs)
    have : q.offset = p := hs.1
    show q.offset < o
    omega

theorem Reader.Tiled.starts_nodup (h : Tiled Placed.Stands p code ps) : (starts ps).Nodup :=
  h.starts_sorted.imp Nat.ne_of_lt

theorem Reader.Tiled.next_le (h : Tiled Placed.Stands p code ps) :
    ∀ q ∈ ps, q.offset < q.next ∧ q.next ≤ p + code.length := by
  induction h with
  | nil => exact fun _ h => by cases h
  | @cons p b bs q qs hs _ ih =>
    intro r hr
    rw [List.length_append]
    rcases List.mem_cons.1 hr with rfl | hr
    · have := List.length_pos_iff.2 (Coded.stands_nonempty _ _ _ hs)
      have : r.offset = p := hs.1
      have := hs.2.1
      omega
    · have := ih r hr
      omega

theorem Reader.Tiled.starts_lt (h : Tiled Placed.Stands p code ps) :
    ∀ o ∈ starts ps, o < p + code.length := by
  intro o ho
  obtain ⟨q, hq, rfl⟩ := List.mem_map.1 ho
  have := h.next_le q hq
  omega

theorem Reader.Tiled.bytes (h : Tiled Placed.Stands p code ps) :
    ps.flatMap (fun q => q.coded.bytes) = code := by
  induction h with
  | nil => rfl
  | cons hs _ ih => rw [List.flatMap_cons, ih, ← hs.2.2.2]

theorem Reader.Tiled.stands (h : Tiled Placed.Stands p code ps) :
    ∀ q ∈ ps, q.coded.WellFormed ∧ q.next = q.offset + q.coded.bytes.length := by
  induction h with
  | nil => exact fun _ h => by cases h
  | @cons p b bs q qs hs _ ih =>
    intro r hr
    rcases List.mem_cons.1 hr with rfl | hr
    · exact ⟨hs.2.2.1, by rw [← hs.2.2.2, hs.2.1, hs.1]⟩
    · exact ih r hr

end

/-! ## The steps of decoding -/

section
variable {ps : List Placed} {codeSize : Nat}
  (nodup : (starts ps).Nodup) (below : ∀ o ∈ starts ps, o < codeSize)

include nodup below in
theorem find?_starts {offset id : Nat} :
    (Locator.ofKeys codeSize (starts ps)).find? offset = some id ↔
      offset ∈ starts ps ∧ id = placeOf ps offset :=
  Locator.find?_eq_some nodup below

include nodup below in
theorem resolveTarget_computes (offset : Nat) :
    Computes (Method.resolveTarget (Locator.ofKeys codeSize (starts ps)) offset)
      (fun dest => ∃ start ∈ starts ps, (start : Int) = dest)
      (fun dest => placeOf ps dest.toNat) := by
  intro dest id
  rw [Method.resolveTarget]
  by_cases neg : dest < 0
  · rw [if_pos neg]
    refine ⟨nofun, ?_⟩
    rintro ⟨⟨start, -, rfl⟩, -⟩
    omega
  · rw [if_neg neg]
    have met : (∃ start ∈ starts ps, (start : Int) = dest) ↔ dest.toNat ∈ starts ps := by
      constructor
      · rintro ⟨start, hs, rfl⟩
        rwa [Int.toNat_natCast]
      · exact fun hs => ⟨dest.toNat, hs, Int.toNat_of_nonneg (Int.not_lt.1 neg)⟩
    show _ ↔ (∃ start ∈ starts ps, (start : Int) = dest) ∧ id = placeOf ps dest.toNat
    rw [met, ← find?_starts nodup below]
    cases (Locator.ofKeys codeSize (starts ps)).find? dest.toNat <;> simp

include nodup below in
theorem resolve_computes :
    Computes (Method.resolve (Locator.ofKeys codeSize (starts ps)))
      (fun q => ∀ disp ∈ q.coded.operand.targets,
        ∃ start ∈ starts ps, (start : Int) = q.next + disp)
      (Placed.linked ps) := by
  intro q i
  have target := resolveTarget_computes nodup below q.offset
  have operand := Computes.operand (f := fun disp : Int => Method.resolveTarget
      (Locator.ofKeys codeSize (starts ps)) q.offset (q.next + disp))
    (fun disp id => target (q.next + disp) id)
  rw [Method.resolve, bind_ok]
  constructor
  · rintro ⟨o, ho, h⟩
    cases h
    obtain ⟨met, rfl⟩ := (operand _ _).1 ho
    exact ⟨met, rfl⟩
  · rintro ⟨met, rfl⟩
    exact ⟨_, operand.of_eq met, rfl⟩

include nodup below in
theorem boundaryAt_computes :
    Computes (Method.boundaryAt (Locator.ofKeys codeSize (starts ps))) (· ∈ starts ps)
      (placeOf ps) := by
  intro offset id
  rw [Method.boundaryAt, ← find?_starts nodup below]
  cases (Locator.ofKeys codeSize (starts ps)).find? offset <;> simp

include nodup below in
theorem boundaryAfter_iff (offset length : Nat) (stop : Option InstrId) :
    Method.boundaryAfter (Locator.ofKeys codeSize (starts ps)) codeSize offset length = .ok stop ↔
      EndMet ps codeSize offset length ∧ stop = endOf ps codeSize (offset + length) := by
  rw [Method.boundaryAfter, EndMet, endOf]
  by_cases large : UInt32.size ≤ offset + length
  · rw [if_pos large]
    refine ⟨nofun, ?_⟩
    rintro ⟨⟨fits, -⟩, -⟩
    omega
  · rw [if_neg large]
    have fits : offset + length < UInt32.size := Nat.not_le.1 large
    by_cases last : offset + length = codeSize
    · simp [last, last ▸ fits, eq_comm]
    · simp only [last, fits, if_false, map_ok, boundaryAt_computes nodup below (offset + length),
        false_or, true_and]
      constructor
      · rintro ⟨_, ⟨met, rfl⟩, e⟩
        exact ⟨met, e⟩
      · rintro ⟨met, e⟩
        exact ⟨_, ⟨met, rfl⟩, e⟩

include nodup below in
theorem handlerOf_computes :
    Computes (Method.handlerOf (Locator.ofKeys codeSize (starts ps)) codeSize)
      (ClauseMet ps codeSize) (Clause.linked ps codeSize) := by
  intro c handler
  have start := boundaryAt_computes nodup below
  have stop := boundaryAfter_iff nodup below
  rw [Method.handlerOf, Clause.linked]
  simp only [bind_ok]
  constructor
  · rintro ⟨_, h₁, _, h₂, _, h₃, _, h₄, h⟩
    obtain ⟨tryStart, rfl⟩ := (start _ _).1 h₁
    obtain ⟨tryEnd, rfl⟩ := (stop _ _ _).1 h₂
    obtain ⟨handlerStart, rfl⟩ := (start _ _).1 h₃
    obtain ⟨handlerEnd, rfl⟩ := (stop _ _ _).1 h₄
    by_cases filter : c.flags.isFilter
    · simp only [filter, if_true] at h ⊢
      obtain ⟨_, h₅, h⟩ := bind_ok.1 h
      obtain ⟨filterStart, rfl⟩ := (start _ _).1 h₅
      cases h
      exact ⟨⟨tryStart, tryEnd, handlerStart, handlerEnd, fun _ => filterStart⟩, rfl⟩
    · simp only [filter] at h ⊢
      cases h
      exact ⟨⟨tryStart, tryEnd, handlerStart, handlerEnd, fun h => absurd h filter⟩, rfl⟩
  · rintro ⟨met, rfl⟩
    refine ⟨_, start.of_eq met.tryStart, _, (stop _ _ _).2 ⟨met.tryEnd, rfl⟩,
      _, start.of_eq met.handlerStart, _, (stop _ _ _).2 ⟨met.handlerEnd, rfl⟩, ?_⟩
    by_cases filter : c.flags.isFilter
    · simp only [filter, if_true]
      exact bind_ok.2 ⟨_, start.of_eq (met.filterStart filter), rfl⟩
    · simp only [filter]
      rfl

end

/-- The clauses behind the code, whatever their boundaries. -/
theorem clausesOf_iff {d : Bytes} {h : Header} (fits : h.size + h.codeSize.toNat ≤ d.length)
    (cs : List Clause) : Method.clausesOf h d = .ok cs ↔
      if h.hasSections then ∃ bs, Section.ChainBytes (h.size + h.codeSize.toNat) bs cs ∧
        bs <+: d.drop (h.size + h.codeSize.toNat)
      else cs = [] := by
  rw [Method.clausesOf]
  by_cases sections : h.hasSections
  · simp only [sections, if_true]
    have seek : (Cursor.ofBytes d).seek? (h.size + h.codeSize.toNat)
        = some ((Cursor.ofBytes d).skip (h.size + h.codeSize.toNat)) := by
      rw [Cursor.seek?, if_pos (by simpa [Cursor.ofBytes] using fits), Cursor.skip]
      simp [Cursor.ofBytes]
    have run : (Reader.move (·.seek? (h.size + h.codeSize.toNat)) Fault.outOfBounds).runAt
        (Cursor.ofBytes d)
          = (.ok (), (Cursor.ofBytes d).skip (h.size + h.codeSize.toNat)) := by
      rw [Reader.move, runAt_step, seek]
      rfl
    have inside : ((Cursor.ofBytes d).skip (h.size + h.codeSize.toNat)).pos
        ≤ ((Cursor.ofBytes d).skip (h.size + h.codeSize.toNat)).data.size := by
      simpa [Cursor.ofBytes] using fits
    show ((Reader.move _ _ >>= fun _ => Section.readChain).runAt (Cursor.ofBytes d)).1 = .ok cs ↔ _
    rw [runAt_bind, run]
    have chain := fun c' => Section.readChain_reads _ c' cs inside
    simp only [Cursor.rest_skip, Cursor.rest_ofBytes, Cursor.pos_skip] at chain
    constructor
    · intro h₁
      obtain ⟨bs, hc, hp, -⟩ := (chain _).1 (Prod.ext h₁ rfl)
      exact ⟨bs, by simpa [Cursor.ofBytes] using hc, hp⟩
    · rintro ⟨bs, hc, hp⟩
      have := (chain _).2 ⟨bs, by simpa [Cursor.ofBytes] using hc, hp, rfl⟩
      exact congrArg Prod.fst this
  · simp [sections, eq_comm]

/-- **A body is decoded if and only if it has the format.** -/
theorem decode_iff (d : Bytes) (m : Method) :
    Method.decode d = .ok m ↔ ∃ h ps cs, IsBody d h ps cs ∧ m = Method.linked h ps cs := by
  have row : ∀ {h : Header} {ps : List Placed}, h.size + h.codeSize.toNat ≤ d.length →
      Tiled Placed.Stands 0 ((d.drop h.size).take h.codeSize.toNat) ps →
      (starts ps).Nodup ∧ ∀ o ∈ starts ps, o < h.codeSize.toNat := by
    intro h ps fits tiled
    refine ⟨tiled.starts_nodup, fun o ho => ?_⟩
    have := tiled.starts_lt o ho
    rw [List.length_take, List.length_drop] at this
    omega
  constructor
  · intro h
    rw [Method.decode, bind_ok] at h
    obtain ⟨header, hh, h⟩ := h
    by_cases short : d.length < header.size + header.codeSize.toNat
    · simp only [short, if_true] at h
      cases h
    · simp only [short, if_false] at h
      obtain ⟨ps, hp, h⟩ := bind_ok.1 h
      obtain ⟨code, hcode, h⟩ := bind_ok.1 h
      obtain ⟨cs, hcs, h⟩ := bind_ok.1 h
      obtain ⟨handlers, hhandlers, h⟩ := bind_ok.1 h
      have fits := Nat.not_lt.1 short
      have tiled := (Coded.readCode_iff _ _).1 hp
      obtain ⟨nodup, below⟩ := row fits tiled
      obtain ⟨targets, rfl⟩ := ((resolve_computes nodup below).mapM ps code).1 hcode
      obtain ⟨clauses, rfl⟩ := ((handlerOf_computes nodup below).mapM cs handlers).1 hhandlers
      cases h
      refine ⟨header, ps, cs, ⟨(Header.read_iff _ _).1 hh, fits, tiled, targets,
        (clausesOf_iff fits cs).1 hcs, clauses⟩, ?_⟩
      rw [Method.linked, List.length_map]
  · rintro ⟨header, ps, cs, body, rfl⟩
    obtain ⟨nodup, below⟩ := row body.fits body.tiled
    rw [Method.decode, (Header.read_iff _ _).2 body.header]
    simp only [bind, Except.bind, Nat.not_lt.2 body.fits, if_false,
      (Coded.readCode_iff _ _).2 body.tiled]
    have code := (resolve_computes nodup below).mapM.of_eq body.targets
    have clauses := (clausesOf_iff body.fits cs).2 body.sections
    have handlers := (handlerOf_computes nodup below).mapM.of_eq body.clauses
    unfold starts at code handlers
    rw [code]
    simp only [clauses, handlers, Method.linked, List.length_map]
    rfl

/-! ## The code again -/

/-- An instruction of a method as a body holds it, with the displacements of its targets from its
end. -/
def Method.recoded (m : Method) (i : Instruction) : Coded :=
  ⟨i.opcode, i.operand.map fun t => (m.offsetOf t : Int) - ((i.offset + i.size : Nat) : Int)⟩

/-- The code of a method with the opcodes and offsets that its instructions have. -/
def Method.codeBytes (m : Method) : Bytes :=
  m.sequence.flatMap fun p => (m.recoded p.2).bytes

theorem Method.sequence_linked (h : Header) (ps : List Placed) (cs : List Clause) :
    (Method.linked h ps cs).sequence.map Prod.snd = ps.map (Placed.linked ps) := by
  rw [Method.sequence_of_range] <;> simp [Method.linked]

section
variable {d : Bytes} {h : Header} {ps : List Placed} {cs : List Clause}

/-- The instruction at a start has it as its offset. -/
theorem offsetOf_linked {start : Nat} (hs : start ∈ starts ps) :
    (Method.linked h ps cs).offsetOf (placeOf ps start) = start := by
  have lt : placeOf ps start < ps.length := by
    rw [placeOf, ← List.length_map (f := Placed.offset)]
    exact List.idxOf_lt_length_of_mem hs
  have get : ps[placeOf ps start].offset = start := by
    rw [← List.getElem_map Placed.offset]
    exact List.getElem_idxOf (List.idxOf_lt_length_of_mem hs)
  simp [Method.offsetOf, Method.linked, lt, Placed.linked, get]

/-- An instruction of a body is written as it was read. -/
theorem recoded_linked (body : IsBody d h ps cs) {q : Placed} (hq : q ∈ ps) :
    (Method.linked h ps cs).recoded (q.linked ps) = q.coded := by
  have stands := (body.tiled.stands q hq).2
  have next : q.offset + (q.linked ps).size = q.next := by
    rw [stands, Coded.length_bytes]
    simp [Placed.linked, Instruction.size, Instruction.sizeWith]
  have back : ∀ disp ∈ q.coded.operand.targets,
      ((Method.linked h ps cs).offsetOf (placeOf ps ((q.next : Int) + disp).toNat) : Int) - q.next
        = disp := by
    intro disp hd
    obtain ⟨start, hs, e⟩ := body.targets q hq disp hd
    rw [← e, Int.toNat_natCast, offsetOf_linked hs, e]
    omega
  have operand : (Method.linked h ps cs).recoded (q.linked ps) = ⟨q.coded.opcode,
      q.coded.operand.map fun disp =>
        ((Method.linked h ps cs).offsetOf (placeOf ps ((q.next : Int) + disp).toNat) : Int)
          - q.next⟩ := by
    rw [Method.recoded, show (q.linked ps).offset + (q.linked ps).size = q.next from next]
    simp only [Placed.linked, Operand.map_map]
  rw [operand, Operand.map_congr back, Operand.map_id]

/-- **Nothing of the code is lost.** -/
theorem codeBytes_linked (body : IsBody d h ps cs) :
    (Method.linked h ps cs).codeBytes = (d.drop h.size).take h.codeSize.toNat := by
  have rows : ps.map (fun q => ((Method.linked h ps cs).recoded (q.linked ps)).bytes)
      = ps.map fun q => q.coded.bytes :=
    List.map_congr_left fun q hq => congrArg Coded.bytes (recoded_linked body hq)
  have code : (Method.linked h ps cs).codeBytes = (((Method.linked h ps cs).sequence.map
      Prod.snd).map fun i => ((Method.linked h ps cs).recoded i).bytes).flatten := by
    rw [Method.codeBytes, List.flatMap_def, List.map_map]
    rfl
  rw [code, Method.sequence_linked, List.map_map, ← body.tiled.bytes, List.flatMap_def, ← rows]
  rfl

end

/-- **Decoding accepts exactly the body format and loses nothing of the code**: the instructions are
those of the code in order, and written with the displacements of their targets they are the code
again. -/
theorem decode_exact (d : Bytes) :
    ((∃ m, Method.decode d = .ok m) ↔ ∃ h ps cs, IsBody d h ps cs) ∧
      ∀ h ps cs, IsBody d h ps cs → ∃ m, Method.decode d = .ok m ∧
        m.sequence.map Prod.snd = ps.map (Placed.linked ps) ∧
        m.codeBytes = (d.drop h.size).take h.codeSize.toNat := by
  refine ⟨⟨?_, ?_⟩, ?_⟩
  · rintro ⟨m, hm⟩
    obtain ⟨h, ps, cs, body, -⟩ := (decode_iff d m).1 hm
    exact ⟨h, ps, cs, body⟩
  · rintro ⟨h, ps, cs, body⟩
    exact ⟨_, (decode_iff d _).2 ⟨h, ps, cs, body, rfl⟩⟩
  · intro h ps cs body
    refine ⟨Method.linked h ps cs, (decode_iff d _).2 ⟨h, ps, cs, body, rfl⟩, ?_, ?_⟩
    · exact Method.sequence_linked h ps cs
    · exact codeBytes_linked body

/-- A jump over nothing and a return, behind a tiny header. -/
theorem isBody_jump : IsBody [0x0E, 0x2B, 0x00, 0x2A] (.tiny 3 Header.tinyMaxStack)
    [⟨0, 2, ⟨.single 0x2B, .target 0⟩⟩, ⟨2, 3, ⟨.single 0x2A, .none⟩⟩] [] where
  header := .tiny 0x0E _ (by decide)
  fits := by decide
  tiled := by
    have jump : Coded.WellFormed ⟨.single 0x2B, .target 0⟩ :=
      ⟨⟨"br.s", .shortBranch, .unconditional⟩, by decide +kernel, trivial, by decide, by
        simp [Operand.targets, Displacement.Fits, OpCode.isShortBranch]⟩
    have ret : Coded.WellFormed ⟨.single 0x2A, .none⟩ :=
      ⟨⟨"ret", .none, .ret⟩, by decide +kernel, trivial, by decide, by simp [Operand.targets]⟩
    have first : Placed.Stands 0 [0x2B, 0x00] ⟨0, 2, ⟨.single 0x2B, .target 0⟩⟩ :=
      ⟨rfl, rfl, jump, by decide⟩
    have second : Placed.Stands 2 [0x2A] ⟨2, 3, ⟨.single 0x2A, .none⟩⟩ :=
      ⟨rfl, rfl, ret, by decide⟩
    exact .cons first (.cons second (.nil 3))
  targets := by
    simp [Operand.targets, starts]
  sections := by rw [if_neg (by decide)]
  clauses := by simp

/-- The jump is decoded, and its code comes back. -/
theorem decode_exact_jump : ∃ m, Method.decode [0x0E, 0x2B, 0x00, 0x2A] = .ok m ∧
    m.codeBytes = [0x2B, 0x00, 0x2A] := by
  obtain ⟨m, hm, -, hc⟩ := (decode_exact _).2 _ _ _ isBody_jump
  exact ⟨m, hm, hc⟩

end CilProbes
