import CilProbes.Proofs.Method.Valid
import CilProbes.Proofs.Reading.Body

/-!
# Decoded methods

Every reference in a body that is decoded leads to one of its instructions, so all that can be wrong
with a decoded method is a region without extent.

* `mem_order_linked`, `placeOf_lt_iff`: the numbers of instructions go up with their offsets.
* `targets_of_decode`, `boundaries_of_decode`: no reference leads out of a decoded method.
* `regionValid_linked`, `handlerValid_linked`: a region is valid if it has a length.
* `decode_closed`: what holds of decoded methods, and when a method is valid.
-/

namespace CilProbes

theorem idxOf_range {k n : Nat} (h : k < n) : (List.range n).idxOf k = k := by
  have := List.nodup_range (n := n).idxOf_getElem k (by rwa [List.length_range])
  rwa [List.getElem_range] at this

/-! ## Instructions by number -/

section
variable {d : Bytes} {h : Header} {ps : List Placed} {cs : List Clause} {a b : Nat}

theorem placeOf_lt (ha : a ∈ starts ps) : placeOf ps a < ps.length := by
  have lt := List.idxOf_lt_length_of_mem ha
  rwa [starts, List.length_map] at lt

theorem mem_order_linked (ha : a ∈ starts ps) : placeOf ps a ∈ (Method.linked h ps cs).order :=
  List.mem_range.2 (placeOf_lt ha)

/-- **Instructions are numbered as they stand.** -/
theorem placeOf_lt_iff (sorted : (starts ps).Pairwise (· < ·)) (ha : a ∈ starts ps)
    (hb : b ∈ starts ps) : placeOf ps a < placeOf ps b ↔ a < b := by
  have up : ∀ {a b}, a ∈ starts ps → b ∈ starts ps → placeOf ps a < placeOf ps b → a < b := by
    intro a b ha hb lt
    have pair := List.pairwise_iff_getElem.1 sorted _ _ (List.idxOf_lt_length_of_mem ha)
      (List.idxOf_lt_length_of_mem hb) lt
    rwa [List.getElem_idxOf, List.getElem_idxOf] at pair
  refine ⟨up ha hb, fun lt => ?_⟩
  rcases Nat.lt_trichotomy (placeOf ps a) (placeOf ps b) with below | same | above
  · exact below
  · have eq : a = b := (List.idxOf_inj ha).1 same
    omega
  · have := up hb ha above
    omega

/-! ## References -/

section
variable (body : IsBody d h ps cs)

include body

theorem targets_linked : ∀ q ∈ ps, ∀ t ∈ (q.linked ps).targets,
    t ∈ (Method.linked h ps cs).order := by
  intro q hq t ht
  rw [Instruction.targets, Placed.linked, Operand.targets_map] at ht
  obtain ⟨disp, hdisp, rfl⟩ := List.mem_map.1 ht
  obtain ⟨start, mem, e⟩ := body.targets q hq disp hdisp
  rw [← e]
  exact mem_order_linked mem

theorem boundaries_linked : ∀ c ∈ cs, ∀ b ∈ (c.linked ps h.codeSize.toNat).boundaries,
    b ∈ (Method.linked h ps cs).order := by
  intro c hc
  have met := body.clauses c hc
  have stop : ∀ {offset length : Nat}, EndMet ps h.codeSize.toNat offset length →
      ∀ id ∈ endOf ps h.codeSize.toNat (offset + length), id ∈ (Method.linked h ps cs).order := by
    intro offset length ends id hid
    unfold endOf at hid
    split at hid
    · cases hid
    · rename_i inside
      cases hid
      exact mem_order_linked (ends.2.resolve_left inside)
  refine Handler.forall_boundaries.2 ⟨mem_order_linked met.tryStart, stop met.tryEnd,
    mem_order_linked met.handlerStart, stop met.handlerEnd, fun id hid => ?_⟩
  unfold Clause.linked at hid
  split at hid
  · rename_i filter
    cases hid
    exact mem_order_linked (met.filterStart filter)
  · cases hid

/-! ## Regions -/

/-- **A region of a body is valid if and only if it has a length.** -/
theorem regionValid_linked {offset length : Nat} (start : offset ∈ starts ps)
    (stop : EndMet ps h.codeSize.toNat offset length) :
    (Method.linked h ps cs).RegionValid (placeOf ps offset)
      (endOf ps h.codeSize.toNat (offset + length)) ↔ length ≠ 0 := by
  have lt := placeOf_lt start
  have place : (Method.linked h ps cs).order.idxOf (placeOf ps offset) = placeOf ps offset :=
    idxOf_range lt
  unfold Method.RegionValid endOf
  rw [place]
  split
  · -- The region runs to the end of the code, in front of which it starts.
    rename_i last
    have before := body.tiled.starts_lt offset start
    rw [List.length_take, List.length_drop] at before
    rw [Option.elim_none, show (Method.linked h ps cs).order.length = ps.length from
      List.length_range]
    exact ⟨fun _ => by omega, fun _ => lt⟩
  · rename_i inside
    have mem := stop.2.resolve_left inside
    rw [Option.elim_some, show (Method.linked h ps cs).order.idxOf _ = _ from
      idxOf_range (placeOf_lt mem), placeOf_lt_iff body.tiled.starts_sorted start mem]
    omega

/-- **A clause gives a valid handler if and only if both of its regions have a length.** -/
theorem handlerValid_linked {c : Clause} (hc : c ∈ cs) :
    (Method.linked h ps cs).HandlerValid (c.linked ps h.codeSize.toNat) ↔
      c.tryLength ≠ 0 ∧ c.handlerLength ≠ 0 := by
  have met := body.clauses c hc
  have tryRegion := regionValid_linked body met.tryStart met.tryEnd
  have handlerRegion := regionValid_linked body met.handlerStart met.handlerEnd
  have zero : ∀ n : UInt32, n.toNat ≠ 0 ↔ n ≠ 0 := by
    intro n
    rw [Ne, Ne, ← UInt32.toNat_inj]
    rfl
  rw [zero] at tryRegion handlerRegion
  constructor
  · intro valid
    exact ⟨tryRegion.1 valid.tryRegion, handlerRegion.1 valid.handlerRegion⟩
  · rintro ⟨tried, handled⟩
    refine ⟨boundaries_linked body c hc, tryRegion.2 tried, handlerRegion.2 handled,
      fun filter => ?_⟩
    have filter : c.flags.isFilter = true := filter
    simp [Clause.linked, filter]

end

end

/-! ## Decoded methods -/

namespace Method

section
variable {m : Method} {body : Bytes} (decoded : Method.decode body = .ok m)

include decoded

theorem targets_of_decode : ∀ p ∈ m.sequence, ∀ t ∈ p.2.targets, t ∈ m.order := by
  obtain ⟨h, ps, cs, isBody, rfl⟩ := (decode_iff body m).1 decoded
  intro p hp
  have mem : p.2 ∈ ps.map (Placed.linked ps) := by
    rw [← sequence_linked h ps cs]
    exact List.mem_map_of_mem hp
  obtain ⟨q, hq, same⟩ := List.mem_map.1 mem
  rw [← same]
  exact targets_linked isBody q hq

theorem boundaries_of_decode : ∀ h ∈ m.handlers, ∀ b ∈ h.boundaries, b ∈ m.order := by
  obtain ⟨h, ps, cs, isBody, rfl⟩ := (decode_iff body m).1 decoded
  intro handler hh
  obtain ⟨c, hc, rfl⟩ := List.mem_map.1 hh
  exact boundaries_linked isBody c hc

/-- A filter clause has a filter block, and no other has one. -/
theorem filterStart_of_decode : ∀ h ∈ m.handlers, h.filterStart.isSome = h.isFilter := by
  obtain ⟨h, ps, cs, isBody, rfl⟩ := (decode_iff body m).1 decoded
  intro handler hh
  obtain ⟨c, hc, rfl⟩ := List.mem_map.1 hh
  show (if c.flags.isFilter = true then some _ else none).isSome = c.flags.isFilter
  cases c.flags.isFilter <;> rfl

theorem offset_of_decode : ∀ e ∈ m.sequence, e.2.origin = some e.2.offset := by
  obtain ⟨h, rs, cs, isBody, rfl⟩ := (decode_iff body m).1 decoded
  intro e he
  have mem : e.2 ∈ rs.map (Placed.linked rs) := by
    rw [← sequence_linked h rs cs]
    exact List.mem_map_of_mem he
  obtain ⟨q, -, same⟩ := List.mem_map.1 mem
  rw [← same]
  rfl

/-- Offsets go up in a body, from zero on. -/
theorem offsets_sorted : (m.sequence.map (·.2.offset)).Pairwise (· < ·) ∧
    ∀ o ∈ (m.sequence.map (·.2.offset)).head?, o = 0 := by
  obtain ⟨h, rs, cs, isBody, rfl⟩ := (decode_iff body m).1 decoded
  have offsets : (linked h rs cs).sequence.map (·.2.offset) = starts rs := by
    show (linked h rs cs).sequence.map (Instruction.offset ∘ Prod.snd) = _
    rw [← List.map_map, sequence_linked, List.map_map]
    rfl
  rw [offsets]
  refine ⟨isBody.tiled.starts_sorted, fun o ho => ?_⟩
  have tiled := isBody.tiled
  generalize (body.drop h.size).take h.codeSize.toNat = code at tiled
  cases tiled with
  | nil => cases ho
  | cons stands _ =>
    cases ho
    exact stands.1

/-- **A decoded method is valid if and only if all regions of clauses have a length.** -/
theorem validate_of_decode : ∃ h cs, Header.read body = .ok h ∧ clausesOf h body = .ok cs ∧
    (m.validate = .ok () ↔ ∀ c ∈ cs, c.tryLength ≠ 0 ∧ c.handlerLength ≠ 0) := by
  have ordered := ordered_of_range (decode_order decoded)
  have targets := targets_of_decode decoded
  obtain ⟨h, ps, cs, isBody, rfl⟩ := (decode_iff body m).1 decoded
  refine ⟨h, cs, (Header.read_iff _ _).2 isBody.header,
    (clausesOf_iff isBody.fits cs).2 isBody.sections, ?_⟩
  rw [validate_iff ordered, and_iff_right targets]
  show (∀ handler ∈ cs.map _, _) ↔ _
  rw [List.forall_mem_map]
  exact forall₂_congr fun c hc => handlerValid_linked isBody hc

end

end Method

/-- **A decoded method keeps to itself, and what can be wrong with it is a region without extent.**
Every target and every boundary in it is one of its instructions. These stand in the order of their
offsets, from zero on. Filter clauses have a filter block, and only they. The method is valid if and
only if both regions of every clause in the body have a length. Any method is valid if and only if
its targets and boundaries are among its instructions, its regions start before they end and its
filter clauses have a filter block. -/
theorem decode_closed :
    (∀ (body : Bytes) (m : Method), Method.decode body = .ok m →
      m.sequence.map Prod.fst = m.order ∧
      (∀ p ∈ m.sequence, ∀ t ∈ p.2.targets, t ∈ m.order) ∧
      (∀ h ∈ m.handlers, ∀ b ∈ h.boundaries, b ∈ m.order) ∧
      (∃ offsets : List Nat, m.sequence.map (·.2.origin) = offsets.map some ∧
        offsets.Pairwise (· < ·) ∧ ∀ o ∈ offsets.head?, o = 0) ∧
      (∀ h ∈ m.handlers, h.filterStart.isSome = h.isFilter) ∧
      ∃ h cs, Header.read body = .ok h ∧ Method.clausesOf h body = .ok cs ∧
        (m.validate = .ok () ↔ ∀ c ∈ cs, c.tryLength ≠ 0 ∧ c.handlerLength ≠ 0)) ∧
    ∀ m : Method, m.Built → (m.validate = .ok () ↔
      (∀ p ∈ m.sequence, ∀ t ∈ p.2.targets, t ∈ m.order) ∧
      ∀ h ∈ m.handlers, (∀ b ∈ h.boundaries, b ∈ m.order) ∧
        m.RegionValid h.tryStart h.tryEnd ∧ m.RegionValid h.handlerStart h.handlerEnd ∧
        (h.isFilter = true → h.filterStart.isSome = true)) := by
  refine ⟨fun body m decoded => ?_, fun m built => ?_⟩
  · have ordered := Method.ordered_of_range (Method.decode_order decoded)
    refine ⟨ordered.sequence_ids, Method.targets_of_decode decoded,
      Method.boundaries_of_decode decoded, ⟨m.sequence.map (·.2.offset), ?_,
      Method.offsets_sorted decoded⟩, Method.filterStart_of_decode decoded,
      Method.validate_of_decode decoded⟩
    rw [List.map_map]
    exact List.map_congr_left (Method.offset_of_decode decoded)
  · rw [Method.validate_iff built.ordered]
    refine and_congr_right fun _ => forall₂_congr fun h _ => ⟨fun valid => ?_, fun valid => ?_⟩
    · exact ⟨valid.boundaries, valid.tryRegion, valid.handlerRegion, valid.filter⟩
    · obtain ⟨boundaries, tryRegion, handlerRegion, filter⟩ := valid
      exact ⟨boundaries, tryRegion, handlerRegion, filter⟩

/-- A filter clause up to the end of the code, and a finally clause with an empty handler; and a
method that is nothing but a branch out of it. -/
theorem decode_closed_emptyHandler :
    let body : Bytes := [0x0B, 0x30, 8, 0, 4, 0, 0, 0, 0, 0, 0, 0, 0x00, 0x00, 0x00, 0x2A,
      0x01, 28, 0, 0, 1, 0, 0, 0, 1, 2, 0, 2, 1, 0, 0, 0, 2, 0, 0, 0, 1, 1, 0, 0, 0, 0, 0, 0]
    ∃ m, Method.decode body = .ok m ∧ m.handlers.length = 2 ∧
      (∀ h ∈ m.handlers, ∀ b ∈ h.boundaries, b ∈ m.order) ∧ m.validate ≠ .ok () ∧
      (Method.empty.push (.branch .br 1)).validate ≠ .ok () := by
  intro body
  have astray : (Method.empty.push (.branch .br 1)).validate ≠ .ok () := by
    intro ok
    obtain ⟨targets, -⟩ := (decode_closed.2 _ (.push _ .empty)).1 ok
    exact absurd (targets (0, .branch .br 1) (by decide) 1 (by decide)) (by decide)
  obtain ⟨m, decoded, two⟩ : ∃ m, Method.decode body = .ok m ∧ m.handlers.length = 2 := by
    have found : (Method.decode body).toOption.map (·.handlers.length) = some 2 := by decide +kernel
    cases decoded : Method.decode body with
    | error => rw [decoded] at found; cases found
    | ok m => exact ⟨m, rfl, by rw [decoded] at found; exact Option.some.inj found⟩
  obtain ⟨-, -, boundaries, -, -, h, cs, header, clauses, valid⟩ := decode_closed.1 body m decoded
  refine ⟨m, decoded, two, boundaries, fun ok => ?_, astray⟩
  have empty : (Header.read body >>= (Method.clausesOf · body)).toOption.map
      (·.all fun c => c.handlerLength != 0) = some false := by decide +kernel
  rw [header] at empty
  have empty : (Method.clausesOf h body).toOption.map _ = _ := empty
  rw [clauses] at empty
  have some := valid.1 ok
  simp [Except.toOption] at empty
  obtain ⟨c, hc, zero⟩ := empty
  exact (some c hc).2 zero

end CilProbes
