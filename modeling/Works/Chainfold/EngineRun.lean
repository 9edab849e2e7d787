import Works.Chainfold.SnapshotSpec
import Works.Chainfold.TestUtil

/-! # Runs of the engine

A run starts from a new engine or from a decoded snapshot and applies operations in any order.
The invariant speaks about the past of the checkpoint slots, so a run also records, for every
place of the checkpoint ring, the engine as it was when the slot there was stored and when
that was (`Tracked.taken`).  None of the operations looks at that record.

`Inv` is what every run keeps.  A slot says which ring it was stored with only through the
ring of the engine: the entries at or below its cursor block are the last ones of the ring of
that time (`SlotOk.remains`), and this survives pushes, eviction, and truncation to any slot
that is kept. -/

namespace Works.Chainfold

open Works.Lib BlockRing

variable {σ E ε π : Type}

/-- The operations on an engine. -/
inductive Op (σ E : Type) where
  | applyBatch (batch : Batch E)
  | checkpoint
  | rollbackAtOrBelow (block : ℕ)
  | reset (fold : σ)
  | markUnrecoverable (cause : DivergenceCause)

/-- When a slot was stored, and the engine at that time. -/
structure Stamp (σ : Type) where
  time : ℕ
  engine : Engine σ

/-- An engine with the record of its checkpoint slots. -/
structure Tracked (σ : Type) where
  engine : Engine σ
  clock : ℕ
  taken : ℕ → Option (Stamp σ)

namespace Tracked

/-- The beginning of a run. -/
def start (e : Engine σ) : Tracked σ := ⟨e, 0, fun _ => none⟩

/-- `checkpoint`, with the record of the place that `store` writes. -/
def checkpoint (t : Tracked σ) : Tracked σ where
  engine := t.engine.checkpoint
  clock := t.clock + 1
  taken :=
    if t.engine.status.isActive then
      Function.update t.taken t.engine.checkpoints.next (some ⟨t.clock, t.engine⟩)
    else t.taken

/-- One operation. -/
def step (A : Fold σ E ε) (t : Tracked σ) : Op σ E → Tracked σ
  | .applyBatch batch => { t with engine := (t.engine.applyBatch A batch).1 }
  | .checkpoint => t.checkpoint
  | .rollbackAtOrBelow block => { t with engine := (t.engine.rollbackAtOrBelow block).1 }
  | .reset fold => { t with engine := t.engine.reset fold }
  | .markUnrecoverable cause => { t with engine := t.engine.markUnrecoverable cause }

/-- A sequence of operations. -/
def run (A : Fold σ E ε) (t : Tracked σ) (ops : List (Op σ E)) : Tracked σ := ops.foldl (step A) t

end Tracked

/-- An engine a run can start with. -/
inductive Started (P : Persist σ π) (W : Wincode) (crc : Crc) (config : EngineConfig) :
    Engine σ → Prop where
  | new {fold : σ} {e : Engine σ} (h : Engine.new fold config = .ok e) :
      Started P W crc config e
  | decoded {bytes : List UInt8} {e : Engine σ}
      (h : Engine.decodeSnapshot P W crc bytes config = .ok e) : Started P W crc config e

/-! ### What a slot knows about its ring -/

/-- Pushing above `n` takes entries at or below `n` only from the front. -/
theorem filter_pushed {cap n : ℕ} {l : List BlockRef} {b : BlockRef} (hb : n < b.number) :
    (pushed cap l b).filter (fun a => decide (a.number ≤ n)) <:+
      l.filter fun a => decide (a.number ≤ n) := by
  unfold pushed
  split_ifs
  · rw [List.filter_append, List.filter_cons_of_neg (by simpa using hb), List.filter_nil,
      List.append_nil]
  · rw [List.filter_append, List.filter_cons_of_neg (by simpa using hb), List.filter_nil,
      List.append_nil]
    exact List.IsSuffix.filter _ (List.tail_suffix l)

theorem filter_pushes {cap n : ℕ} {l l' : List BlockRef} (h : Engine.Pushes cap l l')
    (hn : ∃ a ∈ l, n ≤ a.number) :
    l'.filter (fun a => decide (a.number ≤ n)) <:+ l.filter (fun a => decide (a.number ≤ n)) ∧
      ∃ a ∈ l', n ≤ a.number := by
  induction h with
  | refl => exact ⟨List.suffix_refl _, hn⟩
  | tail _ hstep ih =>
      obtain ⟨hsuf, a, ha, hna⟩ := ih
      obtain ⟨b, hb, rfl⟩ := hstep
      have hlt : n < b.number := lt_of_le_of_lt hna (hb a ha)
      refine ⟨(filter_pushed hlt).trans hsuf, b, ?_, hlt.le⟩
      exact List.mem_of_getLast? (Engine.getLast?_pushed _ _ _)

/-- A slot and the engine it was stored from, seen from the engine `e` of a later time. -/
structure SlotOk (e : Engine σ) (s : Slot (σ × Stamp σ)) : Prop where
  fold : s.fold.1 = s.fold.2.engine.fold
  cursor : s.cursor = s.fold.2.engine.cursor
  active : s.fold.2.engine.status = .active
  ringOk : s.fold.2.engine.RingOk
  capacity : s.fold.2.engine.ring.capacity = e.ring.capacity
  le : s.cursor ≤ e.cursor
  remains : ∀ c, s.cursor = some c →
    e.ring.iter.filter (fun a => decide (a.number ≤ c.block)) <:+ s.fold.2.engine.ring.iter

/-- The block of a slot's cursor is not above the newest entry. -/
theorem exists_le_of_cursor_le {e : Engine σ} (h : e.RingOk) {c : Position}
    (hle : some c ≤ e.cursor) : ∃ a ∈ e.ring.iter, c.block ≤ a.number := by
  cases hc : e.cursor with
  | none => rw [hc] at hle; simp at hle
  | some d =>
      rw [hc] at hle
      obtain ⟨b, hb, hn⟩ := h.getLast? hc
      have := Position.block_le (Option.some_le_some.mp hle)
      exact ⟨b, List.mem_of_getLast? hb, by omega⟩

theorem SlotOk.moved {e e' : Engine σ} {s : Slot (σ × Stamp σ)} (hs : SlotOk e s) (h : e.RingOk)
    (hm : e.Moved e') : SlotOk e' s where
  fold := hs.fold
  cursor := hs.cursor
  active := hs.active
  ringOk := hs.ringOk
  capacity := hs.capacity.trans hm.capacity.symm
  le := hs.le.trans hm.cursor_le
  remains := by
    intro c hc
    have hle := hs.le
    rw [hc] at hle
    exact (filter_pushes hm.pushes (exists_le_of_cursor_le h hle)).1.trans (hs.remains c hc)

/-- Only the ring and the cursor matter. -/
theorem SlotOk.of_eq {e e' : Engine σ} {s : Slot (σ × Stamp σ)} (hs : SlotOk e s)
    (hr : e'.ring = e.ring) (hc : e'.cursor = e.cursor) : SlotOk e' s where
  fold := hs.fold
  cursor := hs.cursor
  active := hs.active
  ringOk := hs.ringOk
  capacity := by rw [hr]; exact hs.capacity
  le := by rw [hc]; exact hs.le
  remains := by rw [hr]; exact hs.remains

/-- The slot just stored. -/
theorem SlotOk.stored {e : Engine σ} (h : e.RingOk) (ha : e.status = .active) (k : ℕ) :
    SlotOk e ⟨(e.fold, ⟨k, e⟩), e.cursor⟩ where
  fold := rfl
  cursor := rfl
  active := ha
  ringOk := h
  capacity := rfl
  le := le_rfl
  remains := by
    intro c hc
    have hall : ∀ a ∈ e.ring.iter, decide (a.number ≤ c.block) = true := by
      intro a hmem
      simpa using h.number_le hc a hmem
    rw [List.filter_eq_self.mpr hall]

/-- The ring truncated to a cursor at or above that of the slot. -/
theorem SlotOk.truncated {e : Engine σ} {s : Slot (σ × Stamp σ)} (hs : SlotOk e s)
    (h : e.RingOk) {e' : Engine σ} (hle : s.cursor ≤ e'.cursor)
    (hring : e'.ring = Engine.ringAt e.ring e'.cursor) : SlotOk e' s where
  fold := hs.fold
  cursor := hs.cursor
  active := hs.active
  ringOk := hs.ringOk
  capacity := by
    rw [hs.capacity, hring]
    cases e'.cursor <;> simp [Engine.ringAt]
  le := hle
  remains := by
    intro c hc
    cases hd : e'.cursor with
    | none => rw [hc, hd] at hle; simp at hle
    | some d =>
        rw [hc, hd] at hle
        have hcd := Position.block_le (Option.some_le_some.mp hle)
        rw [hring, hd, Engine.ringAt, iter_truncateAbove h.ascending, List.filter_filter]
        have hfun : ∀ a ∈ e.ring.iter,
            (decide (a.number ≤ c.block) && decide (a.number ≤ d.block)) =
              decide (a.number ≤ c.block) := by
          intro a _
          by_cases ha : a.number ≤ c.block
          · simp [ha, ha.trans hcd]
          · simp [ha]
        rw [List.filter_congr hfun]
        exact hs.remains c hc

/-- A slot is live exactly while an entry at or below its cursor block is left. -/
theorem SlotOk.live_iff {e : Engine σ} {s : Slot (σ × Stamp σ)} (hs : SlotOk e s)
    (h : e.RingOk) {c : Position} (hc : s.cursor = some c) :
    live s e.ring = true ↔ e.ring.iter.filter (fun a => decide (a.number ≤ c.block)) ≠ [] := by
  have hlive : live s e.ring = e.ring.observes c.block := by simp [live, hc]
  rw [hlive, observes_iff h.ascending]
  constructor
  · rintro ⟨b, hb, hn⟩ hnil
    rw [List.filter_eq_nil_iff] at hnil
    exact hnil b hb (by simp [hn])
  · intro hne
    -- a nonempty end of the old ring has the old cursor block as its last entry
    obtain ⟨l, hl⟩ := hs.remains c hc
    obtain ⟨b, hb, hn⟩ := hs.ringOk.getLast? (hs.cursor ▸ hc)
    rw [← hl, List.getLast?_append_of_ne_nil _ hne] at hb
    exact ⟨b, (List.mem_filter.mp (List.mem_of_getLast? hb)).1, hn⟩

/-! ### The invariant -/

/-- The ring of slots with their stamps. -/
structure History (t : Tracked σ) (G : CheckpointRing (σ × Stamp σ)) : Prop where
  slots : t.engine.checkpoints = G.map Prod.fst
  taken : ∀ i s, G.slots[i]? = some (some s) → t.taken i = some s.fold.2
  packed : G.Packed
  order : G.stored.Pairwise fun a b => a.cursor ≤ b.cursor ∧ a.fold.2.time < b.fold.2.time
  ok : ∀ s ∈ G.stored, SlotOk t.engine s ∧ s.fold.2.time < t.clock

/-- What every run keeps. -/
structure Inv (config : EngineConfig) (t : Tracked σ) : Prop where
  ringOk : t.engine.RingOk
  capacity : t.engine.ring.capacity = config.ringCapacity
  history : ∃ G, History t G

theorem History.sorted {t : Tracked σ} {G : CheckpointRing (σ × Stamp σ)} (h : History t G) :
    G.stored.Pairwise fun a b => a.cursor ≤ b.cursor := h.order.imp fun hab => hab.1

/-- An operation that leaves the slots alone. -/
theorem History.engine {t : Tracked σ} {G : CheckpointRing (σ × Stamp σ)} (h : History t G)
    {e : Engine σ} (hk : e.checkpoints = t.engine.checkpoints)
    (hs : ∀ s, SlotOk t.engine s → SlotOk e s) : History { t with engine := e } G where
  slots := hk.trans h.slots
  taken := h.taken
  packed := h.packed
  order := h.order
  ok := fun s hmem => ⟨hs s (h.ok s hmem).1, (h.ok s hmem).2⟩

theorem Inv.applyBatch (A : Fold σ E ε) {config : EngineConfig} {t : Tracked σ}
    (h : Inv config t) (b : Batch E) :
    Inv config { t with engine := (t.engine.applyBatch A b).1 } := by
  have hm := Engine.applyBatch_moved A h.ringOk b
  obtain ⟨G, hG⟩ := h.history
  exact ⟨hm.ringOk, hm.capacity.trans h.capacity, G,
    hG.engine hm.checkpoints fun s hs => hs.moved h.ringOk hm⟩

/-- Storing a slot: what is dropped is the oldest. -/
theorem stored_store {G : CheckpointRing (σ × Stamp σ)} (hp : G.Packed)
    (s : Slot (σ × Stamp σ)) :
    ∃ old, (G.store s).stored.Sublist (old ++ [s]) ∧ old <:+ G.stored ∧ (G.store s).Packed := by
  by_cases hne : G.slots = []
  · rw [CheckpointRing.store_of_no_slots hne]
    exact ⟨G.stored, List.sublist_append_left _ _, List.suffix_refl _, hp⟩
  · obtain ⟨hst, hpacked⟩ := CheckpointRing.store_spec hp hne s
    refine ⟨_, by rw [hst], ?_, hpacked⟩
    split_ifs
    · exact List.suffix_refl _
    · exact List.tail_suffix _

theorem getElem?_slots_store {G : CheckpointRing σ} {s s' : Slot σ} {i : ℕ}
    (h : (G.store s).slots[i]? = some (some s')) :
    (i = G.next ∧ s' = s) ∨ (i ≠ G.next ∧ G.slots[i]? = some (some s')) := by
  unfold CheckpointRing.store at h
  split_ifs at h with hlen
  · rw [List.length_eq_zero_iff] at hlen
    simp [hlen] at h
  · rcases eq_or_ne i G.next with rfl | hi
    · rw [List.getElem?_set_self (G.next_lt (by simpa using hlen))] at h
      simp only [Option.some.injEq] at h
      exact Or.inl ⟨rfl, h.symm⟩
    · rw [List.getElem?_set_ne (Ne.symm hi)] at h
      exact Or.inr ⟨hi, h⟩

theorem Inv.checkpoint {config : EngineConfig} {t : Tracked σ} (h : Inv config t) :
    Inv config t.checkpoint := by
  obtain ⟨G, hG⟩ := h.history
  unfold Tracked.checkpoint Engine.checkpoint
  by_cases ha : t.engine.status.isActive = true
  · rw [if_pos ha, if_pos ha]
    set s : Slot (σ × Stamp σ) := ⟨(t.engine.fold, ⟨t.clock, t.engine⟩), t.engine.cursor⟩ with hs
    obtain ⟨old, hsub, hold, hpacked⟩ := stored_store hG.packed s
    have hmem : ∀ x ∈ (G.store s).stored, x ∈ G.stored ∨ x = s := by
      intro x hx
      rcases List.mem_append.mp (hsub.subset hx) with hx | hx
      · exact Or.inl (hold.subset hx)
      · exact Or.inr (List.mem_singleton.mp hx)
    refine ⟨⟨h.ringOk.ascending, h.ringOk.newest⟩, h.capacity, G.store s, ?_, ?_, hpacked, ?_, ?_⟩
    · dsimp only
      rw [CheckpointRing.map_store, ← hG.slots]
      rfl
    · intro i x hx
      have hnext : t.engine.checkpoints.next = G.next := by rw [hG.slots]; rfl
      dsimp only
      rw [hnext]
      rcases getElem?_slots_store hx with ⟨rfl, rfl⟩ | ⟨hi, hx⟩
      · rw [Function.update_self]
      · rw [Function.update_of_ne hi]
        exact hG.taken i x hx
    · refine List.Pairwise.sublist hsub (List.pairwise_append.mpr
        ⟨hG.order.sublist hold.sublist, List.pairwise_singleton _ _, ?_⟩)
      intro a haold b hb
      rw [List.mem_singleton] at hb
      subst hb
      obtain ⟨hok, htime⟩ := hG.ok a (hold.subset haold)
      exact ⟨hok.le, htime⟩
    · intro x hx
      rcases hmem x hx with hx | rfl
      · obtain ⟨hok, htime⟩ := hG.ok x hx
        exact ⟨hok.of_eq rfl rfl, Nat.lt_succ_of_lt htime⟩
      · exact ⟨(SlotOk.stored h.ringOk (EngineStatus.isActive_iff.mp ha) t.clock).of_eq rfl rfl,
          Nat.lt_succ_self _⟩
  · rw [if_neg ha, if_neg ha]
    refine ⟨h.ringOk, h.capacity, G, hG.slots, hG.taken, hG.packed, hG.order, ?_⟩
    intro s hs
    obtain ⟨hok, htime⟩ := hG.ok s hs
    exact ⟨hok, Nat.lt_succ_of_lt htime⟩

/-! ### Rollback -/

/-- A rollback that succeeds restores the last live slot at or below the block. -/
theorem rollback_cases {e e' : Engine σ} {block : ℕ} {c : Cursor}
    (h : e.rollbackAtOrBelow block = (e', .ok c)) :
    ∃ slot, e.checkpoints.bestAtOrBelow block e.ring = some slot ∧ c = slot.cursor ∧
      e' = e.restore slot := by
  unfold Engine.rollbackAtOrBelow at h
  split at h
  · simp at h
  · split at h
    · simp at h
    · rename_i slot hbest
      simp only [Prod.mk.injEq, Except.ok.injEq] at h
      exact ⟨slot, hbest, h.2.symm, h.1.symm⟩

/-- A rollback that fails leaves the engine as it is. -/
theorem rollback_error {e e' : Engine σ} {block : ℕ} {err : RollbackError}
    (h : e.rollbackAtOrBelow block = (e', .error err)) : e' = e := by
  unfold Engine.rollbackAtOrBelow at h
  split at h
  · simp only [Prod.mk.injEq] at h
    exact h.1.symm
  · split at h
    · simp only [Prod.mk.injEq] at h
      exact h.1.symm
    · simp at h

theorem mem_of_bestAtOrBelow {r : CheckpointRing σ} {block : ℕ} {ring : BlockRing}
    {slot : Slot σ} (h : r.bestAtOrBelow block ring = some slot) :
    slot ∈ r.stored ∧ live slot ring = true := by
  have hmem := List.mem_of_find?_eq_some h
  rw [List.mem_reverse, CheckpointRing.oldestFirst_eq, List.mem_filter] at hmem
  exact hmem

/-- An observed block is the last of those up to it. -/
theorem getLast?_filter_le {l : List BlockRef} (h : Ascending l) {b : BlockRef} (hb : b ∈ l) :
    (l.filter fun a => decide (a.number ≤ b.number)).getLast? = some b := by
  have hmem : b ∈ l.filter fun a => decide (a.number ≤ b.number) := by simpa using hb
  cases hl : (l.filter fun a => decide (a.number ≤ b.number)).getLast? with
  | none =>
      rw [List.getLast?_eq_none_iff] at hl
      simp [hl] at hmem
  | some x =>
      have hx := List.mem_of_getLast? hl
      have hle : b.number ≤ x.number :=
        Engine.number_le_of_getLast? (h.filter _) hl b hmem
      have hge : x.number ≤ b.number := by simpa using (List.mem_filter.mp hx).2
      have h₁ := lookup_of_mem h (List.mem_of_mem_filter hx)
      rw [Nat.le_antisymm hge hle, lookup_of_mem h hb, Option.some.injEq] at h₁
      cases b
      cases x
      simp only [Option.some.injEq, BlockRef.mk.injEq] at *
      exact ⟨Nat.le_antisymm hge hle, h₁.symm⟩

/-- The engine restored to a live slot is good. -/
theorem RingOk.restore {e : Engine σ} (h : e.RingOk) {slot : Slot σ}
    (hlive : live slot e.ring = true) : (e.restore slot).RingOk := by
  cases hc : slot.cursor with
  | none =>
      have hring : (e.restore slot).ring = e.ring.clear := by
        rw [Engine.restore, hc]
        rfl
      constructor
      · rw [hring, iter_clear]
        exact List.Pairwise.nil
      · rw [hring, newestNumber_eq, iter_clear, Engine.restore, hc]
        rfl
  | some c =>
      rw [live, hc, Option.all_some, observes_iff h.ascending] at hlive
      obtain ⟨b, hb, hn⟩ := hlive
      have hring : (e.restore slot).ring.iter =
          e.ring.iter.filter fun a => decide (a.number ≤ c.block) := by
        rw [← iter_truncateAbove h.ascending, Engine.restore, hc]
        rfl
      constructor
      · rw [hring]
        exact h.ascending.filter _
      · rw [newestNumber_eq, hring, ← hn, getLast?_filter_le h.ascending hb, Engine.restore, hc]
        simp [hn]

theorem History.restore {t : Tracked σ} {G : CheckpointRing (σ × Stamp σ)} (h : History t G)
    (hr : t.engine.RingOk) (slot : Slot σ) :
    History { t with engine := t.engine.restore slot } (G.dropNewer slot.cursor) := by
  obtain ⟨hst, hpacked⟩ := CheckpointRing.dropNewer_spec h.packed h.sorted slot.cursor
  refine ⟨?_, ?_, hpacked, ?_, ?_⟩
  · show t.engine.checkpoints.dropNewer slot.cursor = _
    rw [CheckpointRing.map_dropNewer, ← h.slots]
  · intro i x hx
    rw [CheckpointRing.dropNewer, List.getElem?_map, Option.map_eq_some_iff] at hx
    obtain ⟨o, ho, hdrop⟩ := hx
    rw [CheckpointRing.dropSlot, Option.filter_eq_some_iff] at hdrop
    rw [hdrop.1] at ho
    exact h.taken i x ho
  · rw [hst]
    exact h.order.filter _
  · intro x hx
    rw [hst, List.mem_filter] at hx
    obtain ⟨hok, htime⟩ := h.ok x hx.1
    have hle : x.cursor ≤ slot.cursor := by
      simpa [CheckpointRing.later] using hx.2
    exact ⟨hok.truncated hr hle rfl, htime⟩

theorem Inv.rollback {config : EngineConfig} {t : Tracked σ} (h : Inv config t) (block : ℕ) :
    Inv config { t with engine := (t.engine.rollbackAtOrBelow block).1 } := by
  rcases hrb : t.engine.rollbackAtOrBelow block with ⟨e', err | c⟩
  · rw [rollback_error hrb]
    exact h
  · obtain ⟨slot, hbest, -, rfl⟩ := rollback_cases hrb
    obtain ⟨hmem, hlive⟩ := mem_of_bestAtOrBelow hbest
    obtain ⟨G, hG⟩ := h.history
    rw [hG.slots, CheckpointRing.stored_map] at hmem
    obtain ⟨s, hs, rfl⟩ := List.mem_map.mp hmem
    obtain ⟨hok, -⟩ := hG.ok s hs
    refine ⟨RingOk.restore h.ringOk hlive, ?_, _, hG.restore h.ringOk _⟩
    rw [← h.capacity]
    show (Engine.ringAt t.engine.ring s.cursor).capacity = _
    cases s.cursor <;> simp [Engine.ringAt]

/-! ### Runs -/

theorem Inv.reset {config : EngineConfig} {t : Tracked σ} (h : Inv config t) (fold : σ) :
    Inv config { t with engine := t.engine.reset fold } := by
  obtain ⟨G, hG⟩ := h.history
  have hst : G.clear.stored = [] := CheckpointRing.stored_clear G
  refine ⟨⟨List.Pairwise.nil, rfl⟩, h.capacity, G.clear, ?_, ?_, G.packed_clear, ?_, ?_⟩
  · show t.engine.checkpoints.clear = _
    rw [CheckpointRing.map_clear, ← hG.slots]
  · intro i x hx
    have := List.mem_of_getElem? hx
    rw [← CheckpointRing.mem_stored_iff, hst] at this
    simp at this
  · rw [hst]
    exact List.Pairwise.nil
  · rw [hst]
    simp

theorem Inv.step (A : Fold σ E ε) {config : EngineConfig} {t : Tracked σ} (h : Inv config t)
    (op : Op σ E) : Inv config (t.step A op) := by
  cases op with
  | applyBatch b => exact h.applyBatch A b
  | checkpoint => exact h.checkpoint
  | rollbackAtOrBelow block => exact h.rollback block
  | reset fold => exact h.reset fold
  | markUnrecoverable cause =>
      obtain ⟨G, hG⟩ := h.history
      exact ⟨⟨h.ringOk.ascending, h.ringOk.newest⟩, h.capacity, G,
        hG.engine rfl fun s hs => hs.of_eq rfl rfl⟩

theorem Inv.run (A : Fold σ E ε) {config : EngineConfig} {t : Tracked σ} (h : Inv config t)
    (ops : List (Op σ E)) : Inv config (t.run A ops) := by
  induction ops generalizing t with
  | nil => exact h
  | cons op ops ih => exact ih (h.step A op)

theorem Inv.start_of {config : EngineConfig} {e : Engine σ} (hr : e.RingOk)
    (hcap : e.ring.capacity = config.ringCapacity)
    (hk : e.checkpoints = CheckpointRing.new config.checkpointSlots) :
    Inv config (Tracked.start e) := by
  refine ⟨hr, hcap, CheckpointRing.new config.checkpointSlots, ?_, ?_,
    CheckpointRing.packed_new _, ?_, ?_⟩
  · rw [CheckpointRing.map_new]
    exact hk
  · intro i s hs
    have := List.mem_of_getElem? hs
    rw [← CheckpointRing.mem_stored_iff, CheckpointRing.stored_new] at this
    simp at this
  · rw [CheckpointRing.stored_new]
    exact List.Pairwise.nil
  · rw [CheckpointRing.stored_new]
    simp

theorem Started.inv {P : Persist σ π} {W : Wincode} {crc : Crc} {config : EngineConfig}
    {e : Engine σ} (h : Started P W crc config e) : Inv config (Tracked.start e) := by
  cases h with
  | new h =>
      obtain ⟨hp, rfl⟩ := new_eq_ok h
      refine Inv.start_of ⟨?_, ?_⟩ (capacity_withCapacity _ hp) rfl
      · rw [Engine.fresh, iter_withCapacity]
        exact List.Pairwise.nil
      · rw [newestNumber_eq, Engine.fresh, iter_withCapacity]
        rfl
  | decoded h =>
      obtain ⟨env, -, hc, hd⟩ := decodeSnapshot_cases h
      exact Inv.start_of (hd.ringOk hc) hd.capacity hd.checkpoints

/-! ### The representation invariant -/

/-- The slot at a place of the checkpoint ring. -/
def Tracked.slotAt (t : Tracked σ) (i : ℕ) : Option (Slot σ) := t.engine.checkpoints.slots[i]?.join

/-- What holds of an engine at every point of a run.  A slot is named by its place in the
checkpoint ring. -/
structure RepInv (config : EngineConfig) (t : Tracked σ) : Prop where
  cursor_none_iff : t.engine.cursor = none ↔ t.engine.observed = []
  newest : ∀ c, t.engine.cursor = some c →
    t.engine.observed.getLast?.map (·.number) = some c.block
  ascending : (t.engine.observed.map (·.number)).Pairwise (· < ·)
  bounded : t.engine.observed.length ≤ config.ringCapacity
  recorded : ∀ i s, t.slotAt i = some s → (t.taken i).isSome
  store_order : ∀ i j a b sa sb, t.slotAt i = some a →
    t.slotAt j = some b → t.taken i = some sa → t.taken j = some sb →
    sa.time ≤ sb.time → a.cursor ≤ b.cursor
  below : ∀ i s, t.slotAt i = some s → s.cursor ≤ t.engine.cursor
  hash_kept : ∀ i s c st, t.slotAt i = some s →
    live s t.engine.ring = true → s.cursor = some c → t.taken i = some st →
    ∃ hash, t.engine.ring.hashAt c.block = some hash ∧
      st.engine.ring.hashAt c.block = some hash

/-- A slot of the engine with its stamp. -/
theorem History.slot {t : Tracked σ} {G : CheckpointRing (σ × Stamp σ)} (h : History t G)
    {i : ℕ} {s : Slot σ} (hs : t.slotAt i = some s) :
    ∃ x ∈ G.stored, s = ⟨x.fold.1, x.cursor⟩ ∧ t.taken i = some x.fold.2 := by
  rw [Tracked.slotAt, Option.join_eq_some_iff, h.slots, CheckpointRing.map, List.getElem?_map, Option.map_eq_some_iff] at hs
  obtain ⟨o, ho, hos⟩ := hs
  rw [Option.map_eq_some_iff] at hos
  obtain ⟨x, rfl, rfl⟩ := hos
  exact ⟨x, CheckpointRing.mem_stored_iff.mpr (List.mem_of_getElem? ho), rfl, h.taken i x ho⟩

/-- A live slot has its cursor block in the ring, with the hash it had. -/
theorem SlotOk.hash_kept {e : Engine σ} {s : Slot (σ × Stamp σ)} (hs : SlotOk e s)
    (h : e.RingOk) {c : Position} (hc : s.cursor = some c) (hlive : live s e.ring = true) :
    ∃ hash, e.ring.hashAt c.block = some hash ∧
      s.fold.2.engine.ring.hashAt c.block = some hash := by
  have hne := (hs.live_iff h hc).mp hlive
  obtain ⟨hash, hold, hlast⟩ := hs.ringOk.hashAt_cursor (hs.cursor ▸ hc)
  obtain ⟨l, hl⟩ := hs.remains c hc
  rw [← hl, List.getLast?_append_of_ne_nil _ hne] at hlast
  have hmem : ⟨c.block, hash⟩ ∈ e.ring.iter :=
    (List.mem_filter.mp (List.mem_of_getLast? hlast)).1
  refine ⟨hash, ?_, hold⟩
  rw [hashAt_eq h.ascending]
  exact lookup_of_mem h.ascending hmem

theorem Inv.repInv {config : EngineConfig} {t : Tracked σ} (h : Inv config t) :
    RepInv config t := by
  obtain ⟨G, hG⟩ := h.history
  constructor
  · exact h.ringOk.iter_eq_nil_iff
  · intro c hc
    have := h.ringOk.newest
    rw [newestNumber_eq, hc] at this
    exact this
  · rw [List.pairwise_map]
    exact h.ringOk.ascending
  · rw [← h.capacity]
    exact length_iter_le _
  · intro i s hs
    obtain ⟨x, -, -, htaken⟩ := hG.slot hs
    rw [htaken]
    rfl
  · intro i j a b sa sb ha hb hsa hsb hle
    obtain ⟨x, hx, rfl, htx⟩ := hG.slot ha
    obtain ⟨y, hy, rfl, hty⟩ := hG.slot hb
    rw [htx, Option.some.injEq] at hsa
    rw [hty, Option.some.injEq] at hsb
    subst hsa
    subst hsb
    obtain ⟨k, hk, rfl⟩ := List.getElem_of_mem hx
    obtain ⟨l, hl, rfl⟩ := List.getElem_of_mem hy
    -- the stamps grow along the store order, so the places are ordered as the stamps are
    rcases Nat.lt_trichotomy k l with hkl | hkl | hkl
    · exact (List.pairwise_iff_getElem.mp hG.order k l hk hl hkl).1
    · subst hkl
      exact le_rfl
    · have := (List.pairwise_iff_getElem.mp hG.order l k hl hk hkl).2
      omega
  · intro i s hs
    obtain ⟨x, hx, rfl, -⟩ := hG.slot hs
    exact (hG.ok x hx).1.le
  · intro i s c st hs hlive hc hst
    obtain ⟨x, hx, rfl, htx⟩ := hG.slot hs
    rw [htx, Option.some.injEq] at hst
    subst hst
    exact (hG.ok x hx).1.hash_kept h.ringOk hc hlive

/-- The boundary check never finds the cursor block unobserved. -/
theorem applyBatch_ne_unobserved (A : Fold σ E ε) {e : Engine σ} (h : e.RingOk) (b : Batch E)
    (n : ℕ) : (e.applyBatch A b).2 ≠ .error (.cursorBlockUnobserved n) := by
  intro hcon
  unfold Engine.applyBatch at hcon
  split_ifs at hcon with ha
  · cases hv : b.validate with
    | error err => simp [hv] at hcon
    | ok u =>
        simp only [hv] at hcon
        cases hb : (e.checkBoundary b.boundary : Except (ApplyError ε) _) with
        | error err =>
            simp only [hb, Except.error.injEq] at hcon
            subst hcon
            unfold Engine.checkBoundary at hb
            cases hc : e.cursor with
            | none => simp [hc] at hb
            | some c =>
                obtain ⟨hash, hhash, -⟩ := h.hashAt_cursor hc
                cases hbd : b.boundary with
                | none => simp [hc, hbd] at hb
                | some bd =>
                    simp only [hc, hbd, hhash] at hb
                    split_ifs at hb <;> simp [Engine.forkSuspected] at hb
        | ok verified =>
            simp only [hb] at hcon
            rcases hap : Engine.applySpans A b.spans { e with
                lastVerified := verified.or e.lastVerified
                status := .poisoned (e.cursor.getD ⟨0, 0⟩) } ApplySummary.zero with ⟨e', err | s⟩
            · rw [hap] at hcon
              simp only [Except.error.injEq] at hcon
              subst hcon
              have := Engine.applySpans_error A (fun s hs => Batch.length_eq_of_mem_spans hs) hap
              simp at this
            · rw [hap] at hcon
              cases hcon
  · simp at hcon

/-- **The representation invariant of the engine.**  It holds after every run of the
operations, from a new engine or from any bytes that decode, and no batch is then refused for
an unobserved cursor block. -/
theorem run_repInv (A : Fold σ E ε) {P : Persist σ π} {W : Wincode} {crc : Crc}
    {config : EngineConfig} {e : Engine σ} (hstart : Started P W crc config e)
    (ops : List (Op σ E)) :
    RepInv config ((Tracked.start e).run A ops) ∧
      ∀ (b : Batch E) (n : ℕ), (((Tracked.start e).run A ops).engine.applyBatch A b).2 ≠
        .error (.cursorBlockUnobserved n) := by
  have h := hstart.inv.run A ops
  exact ⟨h.repInv, fun b n => applyBatch_ne_unobserved A h.ringOk b n⟩

theorem sampleEngine_started : Started recordingPersist fixint crc32c sampleConfig sampleEngine :=
  .new sampleEngine_new

/-- A run that folds two blocks, takes a checkpoint, folds on and rolls back. -/
def sampleOps : List (Op RecordingFold ℕ) :=
  [.applyBatch sampleBatch, .checkpoint, .applyBatch laterBatch, .rollbackAtOrBelow 3]

theorem sample_repInv :
    RepInv sampleConfig ((Tracked.start sampleEngine).run recordingFold sampleOps) :=
  (run_repInv recordingFold sampleEngine_started sampleOps).1

end Works.Chainfold
