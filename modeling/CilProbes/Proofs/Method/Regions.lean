import CilProbes.Proofs.Method.Insert
import CilProbes.Proofs.Method.Valid

/-!
# Exception regions around inserted code

A clause names its regions by the instructions at their boundaries. Inserted code stands around the
instructions of a method, in front of some and behind others, and the boundaries move to what stands
first around their instructions.

* `Method.InRegion`: the instructions in a region of a clause.
* `Surround`, `Method.Around`: code around the instructions of a method, as any number of insertions
  leave it.
* `Around.inRegion`: what stands around an instruction is in the regions of the instruction.
* `insert_around`: one insertion, on either side.
-/

namespace CilProbes

/-- The regions of a clause. -/
inductive RegionKind where
  | tryBlock
  | handlerBlock
  | filterBlock

/-- A region from its first instruction to the first one behind it, or to the end of the code. -/
structure Region where
  start : InstrId
  stop : Option InstrId

/-- The regions of a handler: a filter block runs up to the handler, and only a filter clause has
one. -/
def Handler.region? (h : Handler) : RegionKind → Option Region
  | .tryBlock => some ⟨h.tryStart, h.tryEnd⟩
  | .handlerBlock => some ⟨h.handlerStart, h.handlerEnd⟩
  | .filterBlock =>
    if h.isFilter then h.filterStart.map fun f => ⟨f, some h.handlerStart⟩ else none

/-- Whether an instruction is in a region. -/
def Method.Inside (m : Method) (r : Region) (x : InstrId) : Prop :=
  x ∈ m.order ∧ m.order.idxOf r.start ≤ m.order.idxOf x ∧
    ∀ stop ∈ r.stop, m.order.idxOf x < m.order.idxOf stop

/-- **Whether an instruction is in a region of a handler.** -/
def Method.InRegion (m : Method) (h : Handler) (kind : RegionKind) (x : InstrId) : Prop :=
  ∃ r, h.region? kind = some r ∧ m.Inside r x

/-! ## Code around instructions -/

/-- Code around the instructions of a method. -/
structure Surround where
  front : InstrId → List InstrId
  behind : InstrId → List InstrId

namespace Surround

variable (s t : Surround) (a : InstrId)

/-- An instruction with the code around it. -/
def block : List InstrId := s.front a ++ a :: s.behind a

/-- What stands first around an instruction. -/
def head : InstrId := (s.front a).headD a

/-- Code around code. -/
def comp : Surround where
  front a := (s.front a).flatMap t.block ++ t.front a
  behind a := t.behind a ++ (s.behind a).flatMap t.block

theorem block_comp : (s.comp t).block a = (s.block a).flatMap t.block := by
  simp [block, comp, List.flatMap_append]

theorem block_eq_head : ∃ rest, s.block a = s.head a :: rest := by
  unfold block head
  cases s.front a <;> exact ⟨_, rfl⟩

theorem head_comp : (s.comp t).head a = t.head (s.head a) := by
  cases hf : s.front a with
  | nil => simp [head, comp, hf]
  | cons f fs =>
    obtain ⟨rest, e⟩ := t.block_eq_head f
    have first : s.head a = f := by simp [head, hf]
    rw [first]
    simp [head, comp, hf, List.flatMap_cons, e]

theorem mem_block : a ∈ s.block a := by simp [block]

theorem head_mem_block : s.head a ∈ s.block a := by
  obtain ⟨rest, e⟩ := s.block_eq_head a
  simp [e]

/-- **The order of the instructions is that of what stands around them**: the first of one block is not
behind an entry of another if and only if their instructions stand so. -/
theorem idxOf_head_le {l : List InstrId} (nodup : (l.flatMap s.block).Nodup) {a b x : InstrId}
    (ha : a ∈ l) (hb : b ∈ l) (hx : x ∈ s.block a) :
    (l.flatMap s.block).idxOf (s.head b) ≤ (l.flatMap s.block).idxOf x ↔ l.idxOf b ≤ l.idxOf a := by
  induction l with
  | nil => cases ha
  | cons c l ih =>
    rw [List.flatMap_cons] at nodup ⊢
    obtain ⟨-, nodup_l, disjoint⟩ := List.nodup_append.1 nodup
    -- What stands around another instruction than `c` stands behind the block of `c`.
    have later : ∀ {y d}, d ∈ l → y ∈ s.block d → (s.block c ++ l.flatMap s.block).idxOf y
        = (s.block c).length + (l.flatMap s.block).idxOf y := by
      intro y d hd hy
      have mem : y ∈ l.flatMap s.block := List.mem_flatMap.2 ⟨d, hd, hy⟩
      rw [List.idxOf_append_of_notMem fun h => disjoint _ h _ mem rfl, Nat.add_comm]
    by_cases hbc : b = c
    · obtain ⟨rest, e⟩ := s.block_eq_head c
      simp [hbc, e]
    · have hb' : b ∈ l := (List.mem_cons.1 hb).resolve_left hbc
      rw [later hb' (s.head_mem_block b), List.idxOf_cons_ne _ (Ne.symm hbc)]
      by_cases hac : a = c
      · have lt := List.idxOf_lt_length_of_mem (hac ▸ hx)
        rw [hac, List.idxOf_append_of_mem (hac ▸ hx), List.idxOf_cons_self]
        omega
      · have ha' : a ∈ l := (List.mem_cons.1 ha).resolve_left hac
        rw [later ha' hx, List.idxOf_cons_ne _ (Ne.symm hac)]
        have := ih nodup_l ha' hb'
        omega

end Surround

theorem Handler.mapBoundaries_comp (h : Handler) (f g : InstrId → InstrId) :
    (h.mapBoundaries f).mapBoundaries g = h.mapBoundaries (g ∘ f) := by
  simp [mapBoundaries, Option.map_map]

namespace Method

/-- **The method with code around its instructions.** -/
structure Around (m m' : Method) (s : Surround) : Prop where
  order : m'.order = m.order.flatMap s.block
  handlers : m'.handlers = m.handlers.map (·.mapBoundaries s.head)

variable {m m' m₁ m₂ : Method} {s t : Surround}

theorem Around.comp (h : m.Around m₁ s) (h' : m₁.Around m₂ t) : m.Around m₂ (s.comp t) where
  order := by
    rw [h'.order, h.order, List.flatMap_assoc]
    exact List.flatMap_congr fun a _ => (s.block_comp t a).symm
  handlers := by
    rw [h'.handlers, h.handlers, List.map_map]
    refine List.map_congr_left fun handler _ => ?_
    simp only [Function.comp_apply, Handler.mapBoundaries_comp]
    congr 1
    funext a
    exact (s.head_comp t a).symm

section
variable (around : m.Around m' s) (ordered : m'.Ordered) {a x : InstrId} (ha : a ∈ m.order)
  (hx : x ∈ s.block a)

include around ordered ha hx

theorem Around.inside {r : Region} (hstart : r.start ∈ m.order) (hstop : ∀ e ∈ r.stop, e ∈ m.order) :
    m'.Inside ⟨s.head r.start, r.stop.map s.head⟩ x ↔ m.Inside r a := by
  have nodup : (m.order.flatMap s.block).Nodup := around.order ▸ ordered.nodup
  have mem : x ∈ m'.order := by
    rw [around.order]
    exact List.mem_flatMap.2 ⟨a, ha, hx⟩
  have behind : ∀ b ∈ m.order, m'.order.idxOf (s.head b) ≤ m'.order.idxOf x ↔
      m.order.idxOf b ≤ m.order.idxOf a := by
    intro b hb
    rw [around.order]
    exact s.idxOf_head_le nodup ha hb hx
  unfold Inside
  simp only [mem, ha, true_and, behind _ hstart]
  refine and_congr_right fun _ => ?_
  cases hr : r.stop with
  | none => simp
  | some e =>
    have := behind e (hstop e hr)
    simp only [Option.map_some, Option.mem_def, Option.some.injEq, forall_eq']
    omega

/-- **What stands around an instruction is in the regions of the instruction.** -/
theorem Around.inRegion {h : Handler} (boundaries : ∀ b ∈ h.boundaries, b ∈ m.order)
    (kind : RegionKind) : m'.InRegion (h.mapBoundaries s.head) kind x ↔ m.InRegion h kind a := by
  obtain ⟨tryStart, tryEnd, handlerStart, handlerEnd, filterStart⟩ :=
    Handler.forall_boundaries.1 boundaries
  unfold InRegion
  cases kind with
  | tryBlock =>
    simpa [Handler.region?, Handler.mapBoundaries] using
      around.inside ordered ha hx (r := ⟨h.tryStart, h.tryEnd⟩) tryStart tryEnd
  | handlerBlock =>
    simpa [Handler.region?, Handler.mapBoundaries] using
      around.inside ordered ha hx (r := ⟨h.handlerStart, h.handlerEnd⟩) handlerStart handlerEnd
  | filterBlock =>
    have same : (h.mapBoundaries s.head).isFilter = h.isFilter := rfl
    simp only [Handler.region?, same]
    split
    · cases hf : h.filterStart with
      | none => simp [Handler.mapBoundaries, hf]
      | some f =>
        simpa [Handler.mapBoundaries, hf] using
          around.inside ordered ha hx (r := ⟨f, some h.handlerStart⟩) (filterStart f hf)
            (by simpa using handlerStart)
    · simp

end

end Method

/-! ## One insertion -/

/-- The code of one insertion, on one side of its anchor. -/
def Surround.beside (a : InstrId) (side : Side) (ids : List InstrId) : Surround where
  front c := if c = a ∧ side = .before then ids else []
  behind c := if c = a ∧ side = .after then ids else []

/-- Nothing is put next to other instructions. -/
theorem Surround.flatMap_beside {a : InstrId} {l : List InstrId} (side : Side) (ids : List InstrId)
    (h : a ∉ l) : l.flatMap (Surround.beside a side ids).block = l := by
  have alone : ∀ c ∈ l, (Surround.beside a side ids).block c = [c] := by
    intro c hc
    have ne : c ≠ a := fun e => h (e ▸ hc)
    simp [Surround.block, Surround.beside, ne]
  exact (List.flatMap_congr alone).trans (List.flatMap_singleton' l)

/-- Code put next to an instruction goes between it and what stands there already. -/
theorem Surround.comp_beside {s : Surround} {a c : InstrId} (side : Side) (ids : List InstrId)
    (h : a ∉ s.front c ++ s.behind c) :
    (s.comp (.beside a side ids)).front c
      = s.front c ++ (if c = a ∧ side = .before then ids else []) ∧
    (s.comp (.beside a side ids)).behind c
      = (if c = a ∧ side = .after then ids else []) ++ s.behind c := by
  rw [List.mem_append, not_or] at h
  have front := Surround.flatMap_beside side ids h.1
  have behind := Surround.flatMap_beside side ids h.2
  simp only [Surround.comp, front, behind]
  exact ⟨rfl, rfl⟩

theorem Surround.mem_beside {a x : InstrId} {side : Side} {ids : List InstrId} (h : x ∈ ids) :
    x ∈ (Surround.beside a side ids).block a := by
  cases side <;> simp [Surround.block, Surround.beside, h]

namespace Method

variable {m m' : Method} {a : InstrId} {code : List Instruction} {ids : List InstrId} {side : Side}

/-- **An insertion puts code on one side of its anchor.** -/
theorem insert_around (ordered : m.Ordered) (ne : code ≠ [])
    (hi : m.insert a code side = .ok (ids, m')) :
    ids = m.freshIds code.length ∧ m.Around m' (.beside a side ids) := by
  obtain ⟨-, rfl, place, hp, rfl⟩ := (insert_cases hi).resolve_left fun h => ne h.1
  refine ⟨rfl, ?_⟩
  obtain ⟨pre, post, e, ht, hd, ht', hd', hpre, hpost⟩ := ordered.split hp
  have alone_pre := Surround.flatMap_beside side (m.freshIds code.length) hpre
  have alone_post := Surround.flatMap_beside side (m.freshIds code.length) hpost
  have fresh : ∀ m₁ : Method, m₁.stock.size = m.stock.size →
      m₁.freshIds code.length = m.freshIds code.length := by
    intro m₁ h
    simp [freshIds, nextId, h]
  cases side with
  | before =>
    refine ⟨?_, List.map_congr_left fun h _ => ?_⟩
    · show m.order.take place ++ _ ++ m.order.drop place = _
      rw [ht, hd, e, List.flatMap_append, List.flatMap_cons, alone_pre, alone_post,
        fresh _ Array.size_map]
      simp [Surround.block, Surround.beside]
    · cases code with
      | nil => exact absurd rfl ne
      | cons i code =>
        unfold Handler.retarget
        congr 1
        funext b
        by_cases hb : b = a <;>
          simp [Surround.head, Surround.beside, hb, freshIds, List.range'_succ]
  | after =>
    refine ⟨?_, ?_⟩
    · show m.order.take (place + 1) ++ _ ++ m.order.drop (place + 1) = _
      rw [ht', hd', e, List.flatMap_append, List.flatMap_cons, alone_pre, alone_post]
      simp [Surround.block, Surround.beside]
    · show m.handlers = _
      have head : (Surround.beside a .after (m.freshIds code.length)).head = id := by
        funext b
        simp [Surround.head, Surround.beside]
      rw [head]
      simp [Handler.mapBoundaries]

/-- The new instructions are those of the code. -/
theorem insert_fresh (ordered : m.Ordered) (ne : code ≠ [])
    (hi : m.insert a code side = .ok (ids, m')) : m'.nextId = m.nextId + code.length ∧
      (m.freshIds code.length).map m'.instruction? = code.map some := by
  obtain ⟨size, fresh⟩ : m'.nextId = m.nextId + code.length ∧
      ∀ i < code.length, m'.instruction? (m.nextId + i) = code[i]? := by
    cases side with
    | before =>
      have ins := insert_before ordered ne hi
      exact ⟨ins.nextId, ins.fresh⟩
    | after =>
      have ins := insert_after ordered ne hi
      exact ⟨ins.nextId, ins.fresh⟩
  refine ⟨size, List.ext_getElem (by simp [freshIds]) fun k hk hk' => ?_⟩
  have lt : k < code.length := by simpa using hk'
  simp [freshIds, fresh k lt, lt]

/-- **An insertion keeps the regions.** An instruction of the method is in a region if and only if it
was, and the new code is in the regions of its anchor. -/
theorem insert_regions (ordered : m.Ordered)
    (boundaries : ∀ h ∈ m.handlers, ∀ b ∈ h.boundaries, b ∈ m.order) (ha : a ∈ m.order)
    (ne : code ≠ []) (side : Side) : ∃ ids m', m.insert a code side = .ok (ids, m') ∧
      ids.length = code.length ∧ ids.map m'.instruction? = code.map some ∧
      (∀ x, x ∈ m'.order ↔ x ∈ m.order ∨ x ∈ ids) ∧
      List.Forall₂ (fun h h' => ∀ kind,
        (∀ x ∈ m.order, m'.InRegion h' kind x ↔ m.InRegion h kind x) ∧
        ∀ x ∈ ids, m'.InRegion h' kind x ↔ m.InRegion h kind a) m.handlers m'.handlers := by
  obtain ⟨⟨ids, m'⟩, hi⟩ := exists_insert ha code side
  obtain ⟨rfl, around⟩ := insert_around ordered ne hi
  have ordered' := ordered.insert hi
  obtain ⟨size, fresh⟩ := insert_fresh ordered ne hi
  refine ⟨_, m', hi, by simp [freshIds], fresh, fun x => ?_, ?_⟩
  · rw [ordered'.mem_iff, ordered.mem_iff, mem_freshIds]
    change x < m'.nextId ↔ x < m.nextId ∨ _
    rw [size]
    refine ⟨fun h => (Nat.lt_or_ge x m.nextId).imp_right fun ge => ⟨ge, h⟩, fun h => ?_⟩
    rcases h with h | h
    · exact Nat.lt_of_lt_of_le h (Nat.le_add_right ..)
    · exact h.2
  · rw [around.handlers, List.forall₂_map_right_iff, List.forall₂_same]
    intro h hh kind
    refine ⟨fun x hx => ?_, fun x hx => ?_⟩
    · exact around.inRegion ordered' hx (Surround.mem_block _ x) (boundaries h hh) kind
    · exact around.inRegion ordered' ha (Surround.mem_beside hx) (boundaries h hh) kind

end Method

end CilProbes
