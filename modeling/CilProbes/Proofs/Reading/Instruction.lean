import CilProbes.Instruction.Coded
import CilProbes.Proofs.Reading.Exact

/-!
# Reading instructions

The code of a body is a row of instructions, each the bytes of an assigned opcode and of an operand
of the kind that the opcode table asks for. `Coded.read` reads exactly those (`read_reads`), so the
code as a whole is read if and only if it is such a row (`readCode_iff`).

* `Operand.HasKind`, `Displacement.Fits`: the operands of a kind, and the displacements that a field
  of one or four bytes holds.
* `Coded.WellFormed`: an instruction that a body can hold.
* `info_shortBranch`: the table asks for a displacement of one byte exactly behind short branches.
-/

namespace CilProbes

/-- An operand of a kind. A branch of either width has a single target. -/
def Operand.HasKind {τ : Type} : OperandKind → Operand τ → Prop
  | .none, .none | .int8, .int8 _ | .uint8, .uint8 _ | .uint16, .uint16 _
  | .int32, .int32 _ | .int64, .int64 _ | .float32, .float32 _ | .float64, .float64 _
  | .token, .token _ | .shortBranch, .target _ | .branch, .target _ | .switch, .switch _ => True
  | _, _ => False

theorem Operand.map_congr {τ σ : Type} {f g : τ → σ} {o : Operand τ} (h : ∀ t ∈ o.targets, f t = g t) :
    o.map f = o.map g := by
  cases o with
  | target t => exact congrArg Operand.target (h t List.mem_cons_self)
  | switch ts => exact congrArg Operand.switch (List.map_congr_left h)
  | _ => rfl

theorem Operand.map_map {τ σ ρ : Type} (f : τ → σ) (g : σ → ρ) (o : Operand τ) :
    (o.map f).map g = o.map fun t => g (f t) := by
  cases o <;> simp [map, Function.comp_def]

theorem Operand.map_id {τ : Type} (o : Operand τ) : (o.map fun t => t) = o := by
  cases o <;> simp [map]

theorem Operand.hasKind_map {τ σ : Type} {f : τ → σ} {kind : OperandKind} {o : Operand τ} :
    (o.map f).HasKind kind ↔ o.HasKind kind := by
  cases o <;> cases kind <;> rfl

/-- A displacement that a field of one byte or of four holds. -/
def Displacement.Fits (short : Bool) (d : Int) : Prop :=
  if short then -0x80 ≤ d ∧ d ≤ 0x7F else -0x80000000 ≤ d ∧ d ≤ 0x7FFFFFFF

/-- Every displacement of an operand fits its field, and so does the number of them. -/
def Operand.Fits (short : Bool) (o : Operand Int) : Prop :=
  o.targets.length < UInt32.size ∧ ∀ d ∈ o.targets, Displacement.Fits short d

/-- **An instruction that a body can hold**: an assigned opcode with an operand of its kind, the
displacements of which fit their fields. -/
def Coded.WellFormed (c : Coded) : Prop :=
  ∃ info, c.opcode.info? = some info ∧ c.operand.HasKind info.operand ∧
    c.operand.Fits c.opcode.isShortBranch

/-- A well-formed instruction at a place, and its bytes. -/
def Placed.Stands (p : Nat) (bs : Bytes) (q : Placed) : Prop :=
  q.offset = p ∧ q.next = p + bs.length ∧ q.coded.WellFormed ∧ bs = q.coded.bytes

/-! ## The opcode table -/

namespace OpCode

private def rowAgrees (c : UInt8) (info : OpCodeInfo) : Bool :=
  ((info.operand == .shortBranch) == (single c).isShortBranch)
    && ((info.operand == .branch) == (single c).isLongBranch)

private theorem singleTable_agrees :
    (OpCodeInfo.singleTable.toList.zipIdx.all fun (entry, c) =>
      entry.all (rowAgrees (UInt8.ofNat c))) = true := by
  decide +kernel

private theorem extendedTable_agrees :
    (OpCodeInfo.extendedTable.toList.all fun entry => entry.all fun info =>
      info.operand != .shortBranch && info.operand != .branch) = true := by
  decide +kernel

/-- The table asks for a displacement of one byte exactly behind short branches, and for one of four
exactly behind long ones. -/
theorem info_branch {op : OpCode} {info : OpCodeInfo} (h : op.info? = some info) :
    (info.operand == .shortBranch) = op.isShortBranch ∧
      (info.operand == .branch) = op.isLongBranch := by
  cases op with
  | single c =>
    rw [info?, Option.join_eq_some_iff] at h
    have mem : (some info, c.toNat) ∈ OpCodeInfo.singleTable.toList.zipIdx := by
      rw [List.mem_zipIdx_iff_getElem?, Array.getElem?_toList]
      exact h
    have row := List.all_eq_true.1 singleTable_agrees _ mem
    simpa [rowAgrees] using row
  | extended c =>
    rw [info?, Option.join_eq_some_iff] at h
    have mem : some info ∈ OpCodeInfo.extendedTable.toList :=
      List.mem_of_getElem? (by rw [Array.getElem?_toList]; exact h)
    have row := List.all_eq_true.1 extendedTable_agrees _ mem
    simp only [Option.all_some, Bool.and_eq_true, bne_iff_ne] at row
    simp [isShortBranch, isLongBranch, row.1, row.2]

theorem info_escape : (single escape).info? = none := by
  decide +kernel

end OpCode

/-! ## Operands -/

namespace Displacement

theorem exists_int8 {d : Int} (h : Fits true d) : ∃ v : Int8, v.toInt = d :=
  ⟨Int8.ofInt d, Int8.toInt_ofInt_of_le h.1 (by have := h.2; omega)⟩

theorem exists_int32 {d : Int} (h : Fits false d) : ∃ v : Int32, v.toInt = d :=
  ⟨Int32.ofInt d, Int32.toInt_ofInt_of_le h.1 (by have := h.2; omega)⟩

theorem fits_int8 (v : Int8) : Fits true v.toInt := by
  have := v.toInt_lt
  have := v.le_toInt
  simp only [Fits, if_true]
  omega

theorem fits_int32 (v : Int32) : Fits false v.toInt := by
  have := v.toInt_lt
  have := v.le_toInt
  simp only [Fits, Bool.false_eq_true, if_false]
  omega

end Displacement

namespace Coded

open Reader

/-- The bytes of the operands of a kind. -/
def OperandBytes (kind : OperandKind) (_ : Nat) (bs : Bytes) (o : Operand Int) : Prop :=
  o.HasKind kind ∧ o.Fits (kind == .shortBranch) ∧ bs = operandBytes (kind == .shortBranch) o

/-- The kinds without displacements: the operand is one field. -/
theorem field_reads {α : Type} [FixedWidth α] (fault : Fault) {kind : OperandKind}
    {mk : α → Operand Int} (hk : ∀ o : Operand Int, o.HasKind kind ↔ ∃ a, o = mk a)
    (ht : ∀ a, (mk a).targets = [])
    (hb : ∀ a, operandBytes (kind == .shortBranch) (mk a) = FixedWidth.toBytes a) :
    (mk <$> Reader.field α fault).Reads (OperandBytes kind) := by
  refine ((Reads.field α fault).map mk).congr fun p bs o => ⟨?_, ?_⟩
  · rintro ⟨a, rfl, rfl⟩
    exact ⟨(hk _).2 ⟨a, rfl⟩, by simp [Operand.Fits, ht, UInt32.size], (hb a).symm⟩
  · rintro ⟨h, -, rfl⟩
    obtain ⟨a, rfl⟩ := (hk o).1 h
    exact ⟨a, hb a, rfl⟩

theorem target_hasKind {kind : OperandKind} (hk : kind = .shortBranch ∨ kind = .branch)
    (o : Operand Int) : o.HasKind kind ↔ ∃ d, o = .target d := by
  rcases hk with rfl | rfl <;> cases o <;> simp [Operand.HasKind]

theorem target_fits (short : Bool) (d : Int) :
    (Operand.target d).Fits short ↔ Displacement.Fits short d := by
  simp [Operand.Fits, Operand.targets, UInt32.size]

theorem shortBranch_reads (fault : Fault) :
    ((fun d : Int8 => Operand.target d.toInt) <$> Reader.field Int8 fault).Reads
      (OperandBytes .shortBranch) := by
  refine ((Reads.field Int8 fault).map _).congr fun p bs o => ⟨?_, ?_⟩
  · rintro ⟨v, rfl, rfl⟩
    refine ⟨trivial, (target_fits _ _).2 (Displacement.fits_int8 v), ?_⟩
    simp [operandBytes]
  · rintro ⟨h, hf, rfl⟩
    obtain ⟨d, rfl⟩ := (target_hasKind (.inl rfl) o).1 h
    obtain ⟨v, rfl⟩ := Displacement.exists_int8 ((target_fits _ _).1 hf)
    exact ⟨v, by simp [operandBytes], rfl⟩

theorem branch_reads (fault : Fault) :
    ((fun d : Int32 => Operand.target d.toInt) <$> Reader.field Int32 fault).Reads
      (OperandBytes .branch) := by
  refine ((Reads.field Int32 fault).map _).congr fun p bs o => ⟨?_, ?_⟩
  · rintro ⟨v, rfl, rfl⟩
    refine ⟨trivial, (target_fits _ _).2 (Displacement.fits_int32 v), ?_⟩
    simp [operandBytes]
  · rintro ⟨h, hf, rfl⟩
    obtain ⟨d, rfl⟩ := (target_hasKind (.inr rfl) o).1 h
    obtain ⟨v, rfl⟩ := Displacement.exists_int32 ((target_fits _ _).1 hf)
    exact ⟨v, by simp [operandBytes], rfl⟩

/-- Displacements of four bytes come from a table of words. -/
theorem exists_table {ds : List Int} (h : ∀ d ∈ ds, Displacement.Fits false d) :
    ∃ table : List Int32, table.map Int32.toInt = ds := by
  induction ds with
  | nil => exact ⟨[], rfl⟩
  | cons d ds ih =>
    obtain ⟨v, hv⟩ := Displacement.exists_int32 (h d List.mem_cons_self)
    obtain ⟨table, ht⟩ := ih fun d' hd => h d' (List.mem_cons_of_mem _ hd)
    exact ⟨v :: table, by rw [List.map_cons, hv, ht]⟩

theorem length_tableBytes (table : List Int32) :
    (table.flatMap FixedWidth.toBytes).length = table.length * 4 := by
  induction table with
  | nil => rfl
  | cons v table ih =>
    rw [List.flatMap_cons, List.length_append, ih, FixedWidth.length_toBytes, List.length_cons]
    simp only [FixedWidth.width]
    omega

theorem tableBytes_toInt (table : List Int32) :
    ((table.map Int32.toInt).flatMap fun d => FixedWidth.toBytes (Int32.ofInt d))
      = table.flatMap FixedWidth.toBytes := by
  simp [List.flatMap_map]

theorem table_reads (fault : Fault) (count : UInt32) :
    (do
      if (← Reader.look Cursor.remaining) < count.toNat * 4 then throw fault
      let table ← Reader.fields Int32 fault count.toNat
      pure (Operand.switch (table.map Int32.toInt))).Reads fun _ bs o =>
      ∃ table : List Int32, table.length = count.toNat ∧
        bs = table.flatMap FixedWidth.toBytes ∧ o = Operand.switch (table.map Int32.toInt) := by
  refine Reads.guard (n := count.toNat * 4) ?_ (fun _ => fault) ?_
  · refine ((Reads.fields Int32 fault count.toNat).map
      fun table => Operand.switch (table.map Int32.toInt)).congr fun p bs o => ⟨?_, ?_⟩
    · rintro ⟨table, ⟨hn, rfl⟩, rfl⟩
      exact ⟨table, hn, rfl, rfl⟩
    · rintro ⟨table, hn, rfl, rfl⟩
      exact ⟨table, ⟨hn, rfl⟩, rfl⟩
  · rintro p bs o ⟨table, hn, rfl, rfl⟩
    exact Nat.le_of_eq (by rw [length_tableBytes, hn])

theorem switch_reads (fault : Fault) :
    (readOperand fault .switch).Reads (OperandBytes .switch) := by
  refine ((Reads.field UInt32 fault).bind (table_reads fault)).congr fun p bs o => ⟨?_, ?_⟩
  · rintro ⟨_, _, count, rfl, rfl, table, hn, rfl, rfl⟩
    refine ⟨trivial, ⟨?_, ?_⟩, ?_⟩
    · simpa [Operand.targets, hn] using count.toNat_lt
    · intro d hd
      obtain ⟨v, -, rfl⟩ := List.mem_map.1 hd
      exact Displacement.fits_int32 v
    · simp only [operandBytes, List.length_map, hn, UInt32.ofNat_toNat, tableBytes_toInt]
  · rintro ⟨h, ⟨hn, hf⟩, rfl⟩
    cases o with
    | switch ds =>
      obtain ⟨table, rfl⟩ := exists_table hf
      simp only [Operand.targets, List.length_map] at hn
      refine ⟨_, _, UInt32.ofNat table.length, ?_, rfl, table, ?_, rfl, rfl⟩
      · simp only [operandBytes, List.length_map, tableBytes_toInt]
      · rw [UInt32.toNat_ofNat']
        exact (Nat.mod_eq_of_lt hn).symm
    | _ => exact absurd h (by simp [Operand.HasKind])

/-- **An operand of a kind is read exactly.** -/
theorem readOperand_reads (fault : Fault) (kind : OperandKind) :
    (readOperand fault kind).Reads (OperandBytes kind) := by
  cases kind with
  | none =>
    refine (Reads.pure _).congr fun p bs o => ⟨?_, ?_⟩
    · rintro ⟨rfl, rfl⟩
      exact ⟨trivial, by simp [Operand.Fits, Operand.targets, UInt32.size], rfl⟩
    · rintro ⟨h, -, rfl⟩
      cases o with
      | none => exact ⟨rfl, rfl⟩
      | _ => exact absurd h (by simp [Operand.HasKind])
  | shortBranch => exact shortBranch_reads fault
  | branch => exact branch_reads fault
  | switch => exact switch_reads fault
  | _ =>
    refine field_reads fault (fun o => ?_) (fun _ => rfl) (fun _ => rfl)
    cases o <;> simp [Operand.HasKind]

/-! ## Instructions -/

/-- The escape byte alone is no opcode to read. -/
theorem readOpCode_reads (offset : Nat) :
    (readOpCode offset).Reads fun _ bs op => bs = op.bytes ∧ op ≠ .single OpCode.escape := by
  have second : ∀ first : UInt8, (if first = OpCode.escape
      then .extended <$> Reader.field UInt8 (.decode (.truncatedOpCode offset))
      else pure (.single first) : Reader OpCode).Reads fun _ bs op =>
        if first = OpCode.escape then ∃ c : UInt8, bs = FixedWidth.toBytes c ∧ op = .extended c
        else bs = [] ∧ op = .single first := by
    intro first
    by_cases he : first = OpCode.escape
    · simp only [he, if_true]
      exact (Reads.field UInt8 _).map _
    · simp only [he, if_false]
      exact Reads.pure _
  refine ((Reads.field UInt8 .outOfBounds).bind second).congr fun p bs op => ⟨?_, ?_⟩
  · rintro ⟨_, bs₂, first, rfl, rfl, h⟩
    split at h
    · rename_i he
      obtain ⟨c, rfl, rfl⟩ := h
      exact ⟨by simp [FixedWidth.toBytes_uint8, OpCode.bytes, he], nofun⟩
    · rename_i he
      obtain ⟨rfl, rfl⟩ := h
      exact ⟨by simp [FixedWidth.toBytes_uint8, OpCode.bytes], by simpa using he⟩
  · rintro ⟨rfl, hne⟩
    cases op with
    | single c =>
      refine ⟨[c], [], c, rfl, (FixedWidth.toBytes_uint8 c).symm, ?_⟩
      rw [if_neg (by simpa using hne)]
      exact ⟨rfl, rfl⟩
    | extended c =>
      refine ⟨[OpCode.escape], [c], OpCode.escape, rfl, (FixedWidth.toBytes_uint8 _).symm, ?_⟩
      rw [if_pos rfl]
      exact ⟨c, (FixedWidth.toBytes_uint8 c).symm, rfl⟩

/-- What stands behind the opcode of an instruction that starts at an offset. -/
def BehindOpCode (offset : Nat) (op : OpCode) (p : Nat) (bs : Bytes) (q : Placed) : Prop :=
  ∃ info o, op.info? = some info ∧ OperandBytes info.operand p bs o ∧
    q = ⟨offset, p + bs.length, ⟨op, o⟩⟩

/-- **An instruction is read exactly.** -/
theorem read_reads : read.Reads Placed.Stands := by
  refine ((Reads.look id fun _ => rfl).bind fun offset => (readOpCode_reads offset).bind
    fun op => (?operand : Reads _ (BehindOpCode offset op))).congr fun p bs q => ⟨?_, ?_⟩
  case operand =>
    cases hi : op.info? with
    | none =>
      refine (Reads.throw _).congr fun p bs q => ⟨False.elim, ?_⟩
      rintro ⟨_, _, h, -⟩
      rw [hi] at h
      cases h
    | some info =>
      refine ((readOperand_reads _ info.operand).bind fun o =>
        (Reads.look id fun _ => rfl).bind fun next => Reads.pure _).congr fun p bs q => ⟨?_, ?_⟩
      · rintro ⟨bs₁, _, o, rfl, ho, _, _, next, rfl, ⟨rfl, rfl⟩, rfl, rfl⟩
        exact ⟨info, o, hi, by simpa using ho, by simp⟩
      · rintro ⟨_, o, hi', ho, rfl⟩
        rw [hi] at hi'
        cases hi'
        exact ⟨bs, [], o, by simp, ho, [], [], _, rfl, ⟨rfl, rfl⟩, rfl, rfl⟩
  · rintro ⟨_, _, _, rfl, ⟨rfl, rfl⟩, bs₁, bs₂, op, rfl, ⟨rfl, -⟩, info, o, hi, ⟨hk, hf, rfl⟩, rfl⟩
    rw [(OpCode.info_branch hi).1] at hf ⊢
    exact ⟨rfl, by simp; omega, ⟨info, hi, hk, hf⟩, rfl⟩
  · obtain ⟨offset, next, op, o⟩ := q
    rintro ⟨hp, hn, ⟨info, hi, hk, hf⟩, rfl⟩
    simp only at hp hn hi hk hf
    subst hp hn
    have short := (OpCode.info_branch hi).1
    refine ⟨[], _, offset, rfl, ⟨rfl, rfl⟩, op.bytes, operandBytes op.isShortBranch o, op, rfl,
      ⟨rfl, ?_⟩, info, o, hi, ⟨hk, by rwa [short], by rw [short]⟩, ?_⟩
    · rintro rfl
      rw [OpCode.info_escape] at hi
      cases hi
    · simp [Coded.bytes]
      omega

/-- An instruction takes at least one byte. -/
theorem stands_nonempty (p : Nat) (bs : Bytes) (q : Placed) (h : q.Stands p bs) : bs ≠ [] := by
  obtain ⟨-, -, -, rfl⟩ := h
  have := q.coded.opcode.size_pos
  rw [← List.length_pos_iff, length_bytes]
  omega

/-- **Code is read exactly**: it is a row of well-formed instructions. -/
theorem readCode_iff (code : Bytes) (ps : List Placed) :
    (whileMore read).runOn code = .ok ps ↔ Tiled Placed.Stands 0 code ps :=
  whileMore_iff stands_nonempty read_reads code ps

end Coded

end CilProbes
