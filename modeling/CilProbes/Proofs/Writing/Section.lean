import CilProbes.Proofs.Reading.Header
import CilProbes.Proofs.Reading.Section

/-!
# Writing headers and exception sections

What stands around the code in a written body has the format that the readers ask for:
`Header.headerBytes_forBody` for the header, `Section.chainBytes` for the padding and the section
with the clauses.
-/

namespace CilProbes

namespace Header

/-- The small code sizes fit the byte of a tiny header beside its format bits. -/
theorem tiny_byte {codeSize : UInt32} (h : codeSize ≤ tinyCodeSize) :
    ((codeSize.toUInt8 <<< 2) ||| 2) &&& 3 = 2 ∧
      (((codeSize.toUInt8 <<< 2) ||| 2) >>> 2).toUInt32 = codeSize := by
  have small : codeSize.toNat ≤ 0x3F := UInt32.le_iff_toNat_le.1 h
  have all : ∀ c : UInt8, c.toNat ≤ 0x3F →
      ((c <<< 2) ||| 2) &&& 3 = 2 ∧ ((c <<< 2) ||| 2) >>> 2 = c := by
    rintro ⟨⟨c⟩⟩
    revert c
    decide +kernel
  have byte : codeSize.toUInt8.toNat = codeSize.toNat := by
    rw [UInt32.toNat_toUInt8]
    omega
  obtain ⟨low, high⟩ := all codeSize.toUInt8 (by omega)
  refine ⟨low, ?_⟩
  rw [high, ← UInt32.toNat_inj, UInt8.toNat_toUInt32, byte]

/-- The flags of a fat header. -/
def fatFlags (sections zeroLocals : Bool) : UInt16 :=
  fatFormat ||| (if sections then moreSections else 0) ||| (if zeroLocals then initLocals else 0)

theorem fatFlags_bits (sections zeroLocals : Bool) :
    (fatFlags sections zeroLocals &&& moreSections != 0) = sections ∧
      (fatFlags sections zeroLocals &&& initLocals != 0) = zeroLocals := by
  revert sections zeroLocals
  decide

/-- The word at the start of a fat header, with the size of the header in words. -/
theorem fatFlags_lead (sections zeroLocals : Bool) :
    let lead := (0x3000 : UInt16) ||| (fatFlags sections zeroLocals &&& 0x0FFF)
    lead &&& 3 = 3 ∧ (lead >>> 12).toNat = 3 ∧ lead &&& knownFlags = fatFlags sections zeroLocals := by
  revert sections zeroLocals
  decide

section
variable (maxStack : UInt16) (codeSize : UInt32) (locals : Option Token) (zeroLocals sections : Bool)

/-- A tiny header is chosen when it says everything. -/
theorem forBody_cases :
    (forBody maxStack codeSize locals zeroLocals sections = tiny codeSize maxStack ∧
      (zeroLocals || locals.isSome) = false ∧ sections = false ∧ maxStack = tinyMaxStack ∧
      codeSize ≤ tinyCodeSize) ∨
    forBody maxStack codeSize locals zeroLocals sections =
      ⟨fatFlags sections (zeroLocals || locals.isSome), maxStack, codeSize, locals.getD .null,
        fatSize⟩ := by
  unfold forBody
  by_cases h : (!(zeroLocals || locals.isSome) && !sections && maxStack == tinyMaxStack
      && decide (codeSize ≤ tinyCodeSize)) = true
  · refine .inl ⟨if_pos h, ?_⟩
    simpa [and_assoc] using h
  · exact .inr (if_neg h)

theorem forBody_codeSize :
    (forBody maxStack codeSize locals zeroLocals sections).codeSize = codeSize := by
  rcases forBody_cases maxStack codeSize locals zeroLocals sections with ⟨h, -⟩ | h <;> rw [h]
  rfl

theorem forBody_maxStack :
    (forBody maxStack codeSize locals zeroLocals sections).maxStack = maxStack := by
  rcases forBody_cases maxStack codeSize locals zeroLocals sections with ⟨h, -⟩ | h <;> rw [h]
  rfl

theorem forBody_hasSections :
    (forBody maxStack codeSize locals zeroLocals sections).hasSections = sections := by
  rcases forBody_cases maxStack codeSize locals zeroLocals sections with ⟨h, -, hs, -⟩ | h
  · rw [h, hs]
    show (tinyFormat &&& moreSections != 0) = false
    decide
  · rw [h]
    exact (fatFlags_bits ..).1

theorem forBody_zeroesLocals : (forBody maxStack codeSize locals zeroLocals sections).zeroesLocals
    = (zeroLocals || locals.isSome) := by
  rcases forBody_cases maxStack codeSize locals zeroLocals sections with ⟨h, hz, -⟩ | h
  · rw [h, hz]
    show (tinyFormat &&& initLocals != 0) = false
    decide
  · rw [h]
    exact (fatFlags_bits ..).2

theorem forBody_locals (nonNull : locals ≠ some .null) :
    (forBody maxStack codeSize locals zeroLocals sections).locals.nonNull? = locals := by
  rcases forBody_cases maxStack codeSize locals zeroLocals sections with ⟨h, hz, -⟩ | h
  · rw [h]
    cases locals with
    | none => rfl
    | some t => simp at hz
  · rw [h]
    cases locals with
    | none => rfl
    | some t =>
      have : t.value ≠ 0 := fun e => nonNull (congrArg some (Token.mk.injEq .. ▸ e))
      simp [Token.nonNull?, Token.isNull, this]

theorem checkedFields_forBody :
    (forBody maxStack codeSize locals zeroLocals sections).checkedFields
      = .ok (forBody maxStack codeSize locals zeroLocals sections).fields := by
  unfold checkedFields
  rcases forBody_cases maxStack codeSize locals zeroLocals sections with ⟨h, -, -, -, hc⟩ | h
  · rw [h, if_neg]
    simpa [tiny] using fun _ => UInt32.not_lt.2 hc
  · rw [h, if_neg]
    simp [isTiny, fatSize]

theorem length_fields :
    (forBody maxStack codeSize locals zeroLocals sections).fields.flatten.length
      = (forBody maxStack codeSize locals zeroLocals sections).size := by
  rcases forBody_cases maxStack codeSize locals zeroLocals sections with ⟨h, -⟩ | h <;> rw [h]
  · rfl
  · simp [fields, isTiny, fatSize, FixedWidth.width]

/-- **A written header has the format of headers.** -/
theorem headerBytes_forBody (rest : Bytes) :
    HeaderBytes ((forBody maxStack codeSize locals zeroLocals sections).fields.flatten ++ rest)
      (forBody maxStack codeSize locals zeroLocals sections) := by
  rcases forBody_cases maxStack codeSize locals zeroLocals sections with ⟨h, -, -, hm, hc⟩ | h
  · obtain ⟨low, high⟩ := tiny_byte hc
    have := HeaderBytes.tiny _ rest low
    rw [high] at this
    rw [h, hm]
    simpa [fields, tiny, isTiny, FixedWidth.toBytes_uint8] using this
  · obtain ⟨low, words, flags⟩ := fatFlags_lead sections (zeroLocals || locals.isSome)
    have := HeaderBytes.fat _ maxStack codeSize (locals.getD .null) rest low (Nat.le_of_eq words.symm)
    rw [flags, words] at this
    rw [h]
    simpa [fields, isTiny, fatSize] using this

end

end Header

namespace Section

open Reader

/-- A clause with known flags is read back from its fields, if the format can hold it. -/
theorem clauseBytes_fields {format : ClauseFormat} {c : Clause} (known : c.flags.masked = c.flags)
    (fits : holds format c = true) : ClauseBytes format (clauseFields format c).flatten c := by
  have flags : (⟨c.flags.bits &&& ClauseFlags.knownBits⟩ : ClauseFlags) = c.flags := known
  obtain ⟨⟨bits⟩, tryOffset, tryLength, handlerOffset, handlerLength, filterOrType⟩ := c
  cases format with
  | small =>
    have narrow : tryOffset ≤ 0xFFFF ∧ tryLength ≤ 0xFF ∧ handlerOffset ≤ 0xFFFF ∧
        handlerLength ≤ 0xFF := by
      simpa [holds, Clause.fitsSmall, and_assoc] using fits
    have word : ∀ v : UInt32, v ≤ 0xFFFF → v.toUInt16.toUInt32 = v := by
      intro v hv
      have : v.toNat ≤ 0xFFFF := UInt32.le_iff_toNat_le.1 hv
      rw [← UInt32.toNat_inj, UInt16.toNat_toUInt32, UInt32.toNat_toUInt16]
      omega
    have byte : ∀ v : UInt32, v ≤ 0xFF → v.toUInt8.toUInt32 = v := by
      intro v hv
      have : v.toNat ≤ 0xFF := UInt32.le_iff_toNat_le.1 hv
      rw [← UInt32.toNat_inj, UInt8.toNat_toUInt32, UInt32.toNat_toUInt8]
      omega
    have := ClauseBytes.small bits tryOffset.toUInt16 tryLength.toUInt8 handlerOffset.toUInt16
      handlerLength.toUInt8 filterOrType
    rw [word _ narrow.1, byte _ narrow.2.1, word _ narrow.2.2.1, byte _ narrow.2.2.2,
      ClauseFlags.masked, flags] at this
    simpa [clauseFields] using this
  | fat =>
    have := ClauseBytes.fat bits.toUInt32 tryOffset tryLength handlerOffset handlerLength
      filterOrType
    have back : bits.toUInt32.toUInt16 = bits := by
      rw [← UInt16.toNat_inj, UInt32.toNat_toUInt16, UInt16.toNat_toUInt32]
      exact Nat.mod_eq_of_lt bits.toNat_lt
    rw [back, ClauseFlags.masked, flags] at this
    simpa [clauseFields] using this

theorem clausesBytes_fields {format : ClauseFormat} {cs : List Clause}
    (known : ∀ c ∈ cs, c.flags.masked = c.flags) (fits : ∀ c ∈ cs, holds format c = true) :
    ClausesBytes format (cs.flatMap (clauseFields format)).flatten cs := by
  induction cs with
  | nil => exact .nil 0
  | cons c cs ih =>
    rw [List.flatMap_cons, List.flatten_append]
    obtain ⟨kc, kcs⟩ := List.forall_mem_cons.1 known
    obtain ⟨fc, fcs⟩ := List.forall_mem_cons.1 fits
    exact .cons (clauseBytes_fields kc fc) (tiled_place (ih kcs fcs))

theorem sizeBytes_small {n : Nat} (h : n ≤ ClauseFormat.small.limit) :
    SizeBytes .small [UInt8.ofNat n, 0, 0] n := by
  have := SizeBytes.small (UInt8.ofNat n) [0, 0] rfl
  rwa [UInt8.toNat_ofNat', Nat.mod_eq_of_lt] at this
  exact Nat.lt_succ_of_le h

theorem sizeBytes_fat {n : Nat} (h : n ≤ ClauseFormat.fat.limit) :
    SizeBytes .fat (LittleEndian.encode 3 n) n := by
  have := SizeBytes.fat (LittleEndian.encode 3 n) (LittleEndian.length_encode 3 n)
  rwa [LittleEndian.decode_encode, Nat.mod_eq_of_lt] at this
  exact Nat.lt_succ_of_le h

/-- **The parts of a written section**: a kind that announces no other, the size and the clauses. -/
theorem parts_bytes {format : ClauseFormat} {cs : List Clause}
    (known : ∀ c ∈ cs, c.flags.masked = c.flags) (fits : ∀ c ∈ cs, holds format c = true)
    (size : format.dataSize cs.length ≤ format.limit) :
    ∃ kind stated payload, bytes format cs = kind :: (stated ++ payload) ∧ kind &&& moreBit = 0 ∧
      SizeBytes (formatOf kind) stated (ClauseFormat.headerSize + payload.length) ∧
      PayloadBytes kind payload cs := by
  have clauses := clausesBytes_fields known fits
  have len : ClauseFormat.headerSize + ((cs.flatMap (clauseFields format)).flatten).length
      = format.dataSize cs.length := by
    rw [ClausesBytes.length clauses, ClauseFormat.dataSize]
  cases format with
  | small =>
    refine ⟨exceptionBit, [UInt8.ofNat (ClauseFormat.small.dataSize cs.length), 0, 0], _, ?_,
      by decide, ?_, clauses⟩
    · simp [bytes, fields, headerFields]
    · rw [len]
      exact sizeBytes_small size
  | fat =>
    refine ⟨exceptionBit ||| fatBit, LittleEndian.encode 3 (ClauseFormat.fat.dataSize cs.length), _,
      ?_, by decide, ?_, clauses⟩
    · rw [bytes, fields, headerFields, List.flatten_append, List.flatten_cons, ← List.flatMap_def,
        List.flatMap_singleton', List.singleton_append, List.cons_append]
    · rw [len]
      exact sizeBytes_fat size

/-- **A written section is a chain of one section**, behind its padding. -/
theorem chainBytes {format : ClauseFormat} {cs : List Clause} (p : Nat)
    (known : ∀ c ∈ cs, c.flags.masked = c.flags) (fits : ∀ c ∈ cs, holds format c = true)
    (size : format.dataSize cs.length ≤ format.limit) :
    ChainBytes p (List.replicate (Cursor.padding alignment p) 0 ++ bytes format cs) cs := by
  obtain ⟨kind, stated, payload, parts, quiet, hsize, clauses⟩ := parts_bytes known fits size
  have whole := SectionBytes.mk (p := p) (List.replicate (Cursor.padding alignment p) 0) kind stated
    payload cs List.length_replicate hsize clauses
  rw [show (kind &&& moreBit != 0) = false by simp [quiet]] at whole
  rw [parts]
  exact .last whole

end Section

end CilProbes
