import CilProbes.Header
import CilProbes.Proofs.Reading.Exact

/-!
# Reading headers

The format of the header at the start of a body, and that `Header.read` reads exactly it
(`Header.read_iff`). The low two bits of the first byte are those of the first word.
-/

namespace CilProbes

/-- The header at the start of a body: one byte with a code size, or twelve bytes with the low two
bits set that state their own size in words of four bytes, at least three. -/
inductive HeaderBytes : Bytes → Header → Prop
  | tiny (first : UInt8) (rest : Bytes) : first &&& 3 = 2 →
      HeaderBytes (first :: rest) (.tiny (first >>> 2).toUInt32 Header.tinyMaxStack)
  | fat (lead maxStack : UInt16) (codeSize : UInt32) (locals : Token) (rest : Bytes) :
      lead &&& 3 = 3 → 3 ≤ (lead >>> 12).toNat →
      HeaderBytes
        (FixedWidth.toBytes lead ++ (FixedWidth.toBytes maxStack ++ (FixedWidth.toBytes codeSize ++
          (FixedWidth.toBytes locals ++ rest))))
        ⟨lead &&& Header.knownFlags, maxStack, codeSize, locals, (lead >>> 12).toNat * 4⟩

namespace Header

theorem lead_low (lead : UInt16) :
    UInt8.ofNat lead.toNat &&& 3 = 3 ↔ lead &&& 3 = 3 := by
  have h₁ : (UInt8.ofNat lead.toNat &&& 3).toNat = lead.toNat % 4 := by
    rw [UInt8.toNat_and, UInt8.toNat_ofNat']
    exact (Nat.and_two_pow_sub_one_eq_mod _ 2).trans (by omega)
  have h₂ : (lead &&& 3).toNat = lead.toNat % 4 := by
    rw [UInt16.toNat_and]
    exact Nat.and_two_pow_sub_one_eq_mod _ 2
  rw [← UInt8.toNat_inj, ← UInt16.toNat_inj, h₁, h₂]
  rfl

/-- The twelve bytes of a fat header, field by field. -/
theorem ofFatBytes_eq_ok (lead maxStack : UInt16) (codeSize : UInt32) (locals : Token) (h : Header) :
    Header.ofFatBytes (FixedWidth.toBytes lead ++ (FixedWidth.toBytes maxStack ++
      (FixedWidth.toBytes codeSize ++ FixedWidth.toBytes locals))) = .ok h ↔
      3 ≤ (lead >>> 12).toNat ∧
        h = ⟨lead &&& Header.knownFlags, maxStack, codeSize, locals, (lead >>> 12).toNat * 4⟩ := by
  have last : (FixedWidth.toBytes locals).take 4 = FixedWidth.toBytes locals :=
    List.take_of_length_le (Nat.le_of_eq (FixedWidth.length_toBytes locals))
  rw [Header.ofFatBytes]
  simp only [FixedWidth.take_append lead 2 rfl, FixedWidth.ofBytes_toBytes]
  by_cases hd : (lead >>> 12).toNat < 3
  · rw [if_pos hd]
    exact ⟨nofun, fun h => absurd h.1 (Nat.not_le.2 hd)⟩
  · rw [if_neg hd, show (4 : Nat) = 2 + 2 from rfl, show (8 : Nat) = 2 + (2 + 4) from rfl]
    simp only [← List.drop_drop, FixedWidth.drop_append lead 2 rfl,
      FixedWidth.drop_append maxStack 2 rfl, FixedWidth.drop_append codeSize 4 rfl,
      FixedWidth.take_append maxStack 2 rfl, FixedWidth.take_append codeSize 4 rfl, last,
      FixedWidth.ofBytes_toBytes, Except.ok.injEq]
    exact ⟨fun e => ⟨Nat.not_lt.1 hd, e.symm⟩, fun e => e.2.symm⟩

/-- Bytes that are enough for four fields, field by field. -/
theorem exists_fields {d : Bytes} (h : Header.fatSize ≤ d.length) :
    ∃ (lead maxStack : UInt16) (codeSize : UInt32) (locals : Token),
      d = FixedWidth.toBytes lead ++ (FixedWidth.toBytes maxStack ++
        (FixedWidth.toBytes codeSize ++ (FixedWidth.toBytes locals ++ d.drop 12))) := by
  have split : ∀ (α : Type) [FixedWidth α] (bs : Bytes), FixedWidth.width α ≤ bs.length →
      ∃ a : α, bs = FixedWidth.toBytes a ++ bs.drop (FixedWidth.width α) := by
    intro α _ bs hb
    refine ⟨FixedWidth.ofBytes (bs.take (FixedWidth.width α)), ?_⟩
    rw [FixedWidth.toBytes_ofBytes (by rw [List.length_take, Nat.min_eq_left hb]),
      List.take_append_drop]
  have hl : 12 ≤ d.length := h
  obtain ⟨lead, h₀⟩ := split UInt16 d (Nat.le_trans (by decide) h)
  obtain ⟨maxStack, h₁⟩ := split UInt16 (d.drop 2) (by simp [FixedWidth.width]; omega)
  obtain ⟨codeSize, h₂⟩ := split UInt32 ((d.drop 2).drop 2) (by simp [FixedWidth.width]; omega)
  obtain ⟨locals, h₃⟩ := split Token (((d.drop 2).drop 2).drop 4)
    (by simp [FixedWidth.width]; omega)
  refine ⟨lead, maxStack, codeSize, locals, ?_⟩
  calc d = FixedWidth.toBytes lead ++ d.drop 2 := h₀
    _ = _ := congrArg _ (h₁.trans (congrArg _ (h₂.trans (congrArg _ (h₃.trans ?_)))))
  rw [List.drop_drop, List.drop_drop, List.drop_drop]
  rfl

/-- A fat header is the first four fields of its body. -/
theorem take_fatSize (lead maxStack : UInt16) (codeSize : UInt32) (locals : Token) (rest : Bytes) :
    (FixedWidth.toBytes lead ++ (FixedWidth.toBytes maxStack ++ (FixedWidth.toBytes codeSize ++
      (FixedWidth.toBytes locals ++ rest)))).take Header.fatSize
      = FixedWidth.toBytes lead ++ (FixedWidth.toBytes maxStack ++
        (FixedWidth.toBytes codeSize ++ FixedWidth.toBytes locals)) := by
  simp only [← List.append_assoc]
  exact List.take_left' (by simp [FixedWidth.width, Header.fatSize])

/-- **A header is read exactly.** -/
theorem read_iff (d : Bytes) (h : Header) : read d = .ok h ↔ HeaderBytes d h := by
  constructor
  · intro hr
    cases d with
    | nil => cases hr
    | cons first rest =>
      rw [Header.read] at hr
      split at hr
      · rename_i tiny
        cases hr
        exact .tiny first rest tiny
      · split at hr
        · rename_i fat
          simp only at hr
          split at hr
          · cases hr
          · rename_i long
            rw [List.length_take] at long
            obtain ⟨lead, maxStack, codeSize, locals, hd⟩ :=
              exists_fields (d := first :: rest) (by omega)
            rw [hd, take_fatSize, ofFatBytes_eq_ok] at hr
            obtain ⟨words, rfl⟩ := hr
            rw [hd]
            refine .fat lead maxStack codeSize locals _ ?_ words
            have : first = UInt8.ofNat lead.toNat := (List.cons.inj hd).1
            rw [← lead_low, ← this, fat]
        · cases hr
  · rintro (⟨first, rest, tiny⟩ | ⟨lead, maxStack, codeSize, locals, rest, fat, words⟩)
    · rw [Header.read, if_pos tiny]
    · have low := (lead_low lead).2 fat
      have cons : ∀ bs, FixedWidth.toBytes lead ++ bs
          = UInt8.ofNat lead.toNat :: (UInt8.ofNat (lead.toNat / 256) :: bs) := fun _ => rfl
      rw [cons, Header.read, low, if_neg (by decide), if_pos rfl, ← cons, take_fatSize]
      exact (ofFatBytes_eq_ok ..).2 ⟨words, rfl⟩

end Header

end CilProbes
