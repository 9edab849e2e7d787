import Works.Chainfold.EngineRun
import Works.Chainfold.EngineSim

/-! # Rollbacks and the durable point

A rollback restores the engine of the time of a checkpoint, up to what was evicted from the
ring since: state and cursor are those of that time, the ring is a last part of the ring of
that time, and the slots with a later cursor are gone (`rollback_exact`).  From there on the
engine answers as that engine did.

The durable point is the cursor of the oldest live slot.  An expired slot never becomes live
again, so once the oldest live slot has a cursor `p` no rollback goes below `p`
(`durablePoint_not_undercut`). -/

namespace Works.Chainfold

open BlockRing

variable {σ E ε π : Type}

/-! ### The slot a rollback restores -/

/-- The cursor block is at or below `block`; a slot without a cursor always qualifies. -/
def AtOrBelow (block : ℕ) (c : Cursor) : Prop := ∀ p, c = some p → p.block ≤ block

theorem atOrBelow_iff {block : ℕ} {c : Cursor} :
    (c.all fun cursor => decide (cursor.block ≤ block)) = true ↔ AtOrBelow block c := by
  cases c with
  | none => simp [AtOrBelow]
  | some p => simp [AtOrBelow]

theorem bestAtOrBelow_eq (r : CheckpointRing σ) (block : ℕ) (ring : BlockRing) {slot : Slot σ}
    (h : r.bestAtOrBelow block ring = some slot) :
    ∃ older newer, r.stored = older ++ slot :: newer ∧ live slot ring = true ∧
      AtOrBelow block slot.cursor ∧
      ∀ s ∈ newer, live s ring = true → ¬ AtOrBelow block s.cursor := by
  unfold CheckpointRing.bestAtOrBelow at h
  rw [CheckpointRing.oldestFirst_eq] at h
  obtain ⟨hp, as, bs, heq, has⟩ := List.find?_eq_some_iff_append.mp h
  -- the live slots, back in store order
  have hlives : r.stored.filter (fun s => live s ring) = bs.reverse ++ slot :: as.reverse := by
    have := congrArg List.reverse heq
    simpa using this
  obtain ⟨older, rest, hstored, -, hrest⟩ := List.filter_eq_append_iff.mp hlives
  obtain ⟨mid, newer, hmid, hdead, hlive, hnewer⟩ := List.filter_eq_cons_iff.mp hrest
  refine ⟨older ++ mid, newer, ?_, hlive, atOrBelow_iff.mp hp, ?_⟩
  · rw [hstored, hmid, List.append_assoc]
  · intro s hs hsl hcon
    have hmem : s ∈ newer.filter fun s => live s ring := List.mem_filter.mpr ⟨hs, hsl⟩
    rw [hnewer, List.mem_reverse] at hmem
    have := has s hmem
    rw [atOrBelow_iff.mpr hcon] at this
    simp at this

/-- There is no such slot exactly when no live one qualifies. -/
theorem bestAtOrBelow_eq_none (r : CheckpointRing σ) (block : ℕ) (ring : BlockRing) :
    r.bestAtOrBelow block ring = none ↔
      ∀ s ∈ r.stored, live s ring = true → ¬ AtOrBelow block s.cursor := by
  unfold CheckpointRing.bestAtOrBelow
  rw [CheckpointRing.oldestFirst_eq, List.find?_eq_none]
  simp only [List.mem_reverse, List.mem_filter, atOrBelow_iff, and_imp]

/-- What is left of the ring of the time of the checkpoint. -/
theorem SlotOk.observed_restore {e : Engine σ} (h : e.RingOk) {s : Slot (σ × Stamp σ)}
    (hs : SlotOk e s) :
    (e.restore ⟨s.fold.1, s.cursor⟩).ring.iter =
      s.fold.2.engine.ring.iter.filter (fun b => decide (b ∈ e.ring.iter)) ∧
    (e.restore ⟨s.fold.1, s.cursor⟩).ring.iter <:+ s.fold.2.engine.ring.iter := by
  cases hc : s.cursor with
  | none =>
      have hnil : s.fold.2.engine.ring.iter = [] :=
        hs.ringOk.iter_eq_nil_iff.mp (hs.cursor ▸ hc)
      rw [hnil]
      exact ⟨rfl, List.suffix_refl _⟩
  | some c =>
      have hring : (e.restore ⟨s.fold.1, some c⟩).ring.iter =
          e.ring.iter.filter fun a => decide (a.number ≤ c.block) := iter_truncateAbove h.ascending _
      have hsuf := hs.remains c hc
      rw [hring]
      refine ⟨?_, hsuf⟩
      obtain ⟨l, hl⟩ := hsuf
      have hasc := hs.ringOk.ascending
      rw [← hl] at hasc
      have hle := hs.ringOk.number_le (hs.cursor ▸ hc)
      rw [← hl, List.filter_append]
      have hgone : l.filter (fun b => decide (b ∈ e.ring.iter)) = [] := by
        rw [List.filter_eq_nil_iff]
        intro b hb hmem
        have hbe : b ∈ e.ring.iter := by simpa using hmem
        have hbc : b.number ≤ c.block := hle b (hl ▸ List.mem_append_left _ hb)
        have := (List.pairwise_append.mp hasc).2.2 b hb b
          (List.mem_filter.mpr ⟨hbe, by simpa using hbc⟩)
        omega
      have hkept : (e.ring.iter.filter fun a => decide (a.number ≤ c.block)).filter
          (fun b => decide (b ∈ e.ring.iter)) =
          e.ring.iter.filter fun a => decide (a.number ≤ c.block) := by
        rw [List.filter_eq_self]
        intro b hb
        simpa using (List.mem_filter.mp hb).1
      rw [hgone, hkept, List.nil_append]

/-- The blocks of the ring of a checkpoint that were evicted since. -/
def evictedSince (then_ now : List BlockRef) : Set ℕ :=
  {n | ∃ b ∈ then_, b ∉ now ∧ b.number = n}

/-- The restored engine answers as the engine of the checkpoint did. -/
theorem SlotOk.sim {e : Engine σ} (h : e.RingOk) {s : Slot (σ × Stamp σ)} (hs : SlotOk e s)
    (hlive : live s e.ring = true) :
    Engine.Sim (evictedSince s.fold.2.engine.ring.iter e.ring.iter) s.fold.2.engine
      (e.restore ⟨s.fold.1, s.cursor⟩) := by
  obtain ⟨hfilter, l, hl⟩ := hs.observed_restore h
  refine ⟨hs.fold.symm, hs.cursor.symm, hs.active, hs.ringOk, RingOk.restore h hlive, ?_,
    l, hl.symm, ?_⟩
  · rw [hs.capacity]
    show _ = (Engine.ringAt e.ring s.cursor).capacity
    cases s.cursor <;> simp [Engine.ringAt]
  · intro a ha
    refine ⟨a, by rw [← hl]; exact List.mem_append_left _ ha, ?_, rfl⟩
    -- an older entry that is still there would stand in the restored ring as well
    intro hmem
    have hin : a ∈ (e.restore ⟨s.fold.1, s.cursor⟩).ring.iter := by
      rw [hfilter, List.mem_filter, ← hl]
      exact ⟨List.mem_append_left _ ha, by simpa using hmem⟩
    have hasc := hs.ringOk.ascending
    rw [← hl] at hasc
    have := (List.pairwise_append.mp hasc).2.2 a ha a hin
    omega

/-- `slotAt` after the restore: exactly the later cursors are gone. -/
theorem slotAt_restore (t : Tracked σ) (slot : Slot σ) (i : ℕ) :
    Tracked.slotAt { t with engine := t.engine.restore slot } i =
      (t.slotAt i).filter fun s => decide (s.cursor ≤ slot.cursor) := by
  show (t.engine.checkpoints.slots.map (CheckpointRing.dropSlot slot.cursor))[i]?.join = _
  rw [List.getElem?_map, Tracked.slotAt]
  cases t.engine.checkpoints.slots[i]? with
  | none => rfl
  | some o =>
      cases o with
      | none => rfl
      | some s =>
          simp [CheckpointRing.dropSlot, CheckpointRing.later, Option.filter]

/-- What a successful rollback to the slot at place `i`, stored at `st`, leaves. -/
structure RolledBack (A : Fold σ E ε) (t : Tracked σ) (block i : ℕ) (st : Stamp σ)
    (e' : Engine σ) : Prop where
  live : ∃ s, t.slotAt i = some s ∧ live s t.engine.ring = true ∧ AtOrBelow block s.cursor
  newest : ∀ j s st', t.slotAt j = some s → t.taken j = some st' →
    Works.Chainfold.live s t.engine.ring = true → AtOrBelow block s.cursor → st'.time ≤ st.time
  fold : e'.fold = st.engine.fold
  cursor : e'.cursor = st.engine.cursor
  ring : e'.observed = st.engine.observed.filter fun b => decide (b ∈ t.engine.observed)
  ring_suffix : e'.observed <:+ st.engine.observed
  slots : ∀ j, Tracked.slotAt { t with engine := e' } j =
    (t.slotAt j).filter fun s => decide (s.cursor ≤ e'.cursor)
  continuation : ∀ bs : List (Batch E),
    (∀ n ∈ st.engine.forkChecksAll A bs,
      n ∉ evictedSince st.engine.observed t.engine.observed) →
    e'.applyAll A bs = st.engine.applyAll A bs

theorem Inv.rolledBack (A : Fold σ E ε) {config : EngineConfig} {t : Tracked σ}
    (h : Inv config t) {block : ℕ} {e' : Engine σ} {c : Cursor}
    (hrb : t.engine.rollbackAtOrBelow block = (e', .ok c)) :
    ∃ i st, t.taken i = some st ∧ RolledBack A t block i st e' ∧ c = e'.cursor := by
  obtain ⟨slot, hbest, rfl, rfl⟩ := rollback_cases hrb
  obtain ⟨G, hG⟩ := h.history
  obtain ⟨older, newer, hstored, hlive, hbelow, hnewest⟩ := bestAtOrBelow_eq _ _ _ hbest
  -- the slots of the engine are those of the history, place by place
  rw [hG.slots, CheckpointRing.stored_map] at hstored
  obtain ⟨gOlder, gRest, hsplit, hgo, hgr⟩ := List.map_eq_append_iff.mp hstored
  obtain ⟨x, gNewer, rfl, rfl, hgn⟩ := List.map_eq_cons_iff.mp hgr
  have hx : x ∈ G.stored := by rw [hsplit]; simp
  obtain ⟨i, hi⟩ := List.getElem?_of_mem (CheckpointRing.mem_stored_iff.mp hx)
  have htaken := hG.taken i x hi
  have hslot : t.slotAt i = some ⟨x.fold.1, x.cursor⟩ := by
    rw [Tracked.slotAt, hG.slots, CheckpointRing.map, List.getElem?_map, hi]
    rfl
  have hok := (hG.ok x hx).1
  have hsim := hok.sim h.ringOk hlive
  obtain ⟨hring, hsuf⟩ := hok.observed_restore h.ringOk
  refine ⟨i, x.fold.2, htaken, ⟨⟨_, hslot, hlive, hbelow⟩, ?_, hok.fold, hok.cursor, hring, hsuf,
    slotAt_restore t _, fun bs hbs => (hsim.applyAll A bs hbs).symm⟩, rfl⟩
  intro j s st' hs hst' hsl hsb
  obtain ⟨y, hy, rfl, hty⟩ := hG.slot hs
  rw [hty, Option.some.injEq] at hst'
  subst hst'
  by_contra hlt
  -- a later stamp stands further on in the store order, where no live slot qualifies
  have hynewer : y ∈ gNewer := by
    rw [hsplit] at hy
    have horder := hG.order
    rw [hsplit] at horder
    rcases List.mem_append.mp hy with hy | hy
    · have := ((List.pairwise_append.mp horder).2.2 y hy x List.mem_cons_self).2
      omega
    · rcases List.mem_cons.mp hy with rfl | hy
      · omega
      · exact hy
  exact hnewest _ (hgn ▸ List.mem_map_of_mem hynewer) hsl hsb

/-- **Rollback is exact.**  In every reachable engine, a rollback that succeeds restores the
engine of the newest live checkpoint at or below the block, and one that fails changes
nothing. -/
theorem rollback_exact (A : Fold σ E ε) {P : Persist σ π} {W : Wincode} {crc : Crc}
    {config : EngineConfig} {e : Engine σ} (hstart : Started P W crc config e)
    (ops : List (Op σ E)) (block : ℕ) :
    (∀ e' c, ((Tracked.start e).run A ops).engine.rollbackAtOrBelow block = (e', .ok c) →
      ∃ i st, ((Tracked.start e).run A ops).taken i = some st ∧
        RolledBack A ((Tracked.start e).run A ops) block i st e' ∧ c = e'.cursor) ∧
    ∀ e' err, ((Tracked.start e).run A ops).engine.rollbackAtOrBelow block = (e', .error err) →
      e' = ((Tracked.start e).run A ops).engine :=
  ⟨fun _ _ hrb => (hstart.inv.run A ops).rolledBack A hrb, fun _ _ hrb => rollback_error hrb⟩

/-- A run with a live checkpoint at block 3 and events folded above it. -/
def sampleRun : Tracked RecordingFold :=
  (Tracked.start sampleEngine).run recordingFold
    [.applyBatch sampleBatch, .checkpoint, .applyBatch laterBatch]

theorem sample_rolledBack : ∃ i st, sampleRun.taken i = some st ∧
    RolledBack recordingFold sampleRun 3 i st (sampleRun.engine.rollbackAtOrBelow 3).1 := by
  obtain ⟨i, st, htaken, hrolled, -⟩ := (rollback_exact recordingFold sampleEngine_started
    [.applyBatch sampleBatch, .checkpoint, .applyBatch laterBatch] 3).1
    (sampleRun.engine.rollbackAtOrBelow 3).1 (some ⟨3, 1⟩) rfl
  exact ⟨i, st, htaken, hrolled⟩

/-! ### The durable point -/

/-- The cursor and every live slot are at or after `p`. -/
structure Floor (p : Position) (e : Engine σ) : Prop where
  cursor : some p ≤ e.cursor
  slots : ∀ s ∈ e.checkpoints.stored, live s e.ring = true → some p ≤ s.cursor

theorem History.mem_stored {t : Tracked σ} {G : CheckpointRing (σ × Stamp σ)} (h : History t G)
    {s : Slot σ} (hs : s ∈ t.engine.checkpoints.stored) :
    ∃ x ∈ G.stored, s = ⟨x.fold.1, x.cursor⟩ := by
  rw [h.slots, CheckpointRing.stored_map] at hs
  obtain ⟨x, hx, rfl⟩ := List.mem_map.mp hs
  exact ⟨x, hx, rfl⟩

/-- A slot is live no longer than the entries at or below its cursor block last. -/
theorem SlotOk.live_of_suffix {e e' : Engine σ} {s : Slot (σ × Stamp σ)} (hs : SlotOk e s)
    (hs' : SlotOk e' s) (h : e.RingOk) (h' : e'.RingOk)
    (hsub : ∀ c, s.cursor = some c →
      e'.ring.iter.filter (fun a => decide (a.number ≤ c.block)) <:+
        e.ring.iter.filter fun a => decide (a.number ≤ c.block))
    (hlive : live s e'.ring = true) : live s e.ring = true := by
  cases hc : s.cursor with
  | none => simp [live, hc]
  | some c =>
      rw [hs.live_iff h hc]
      intro hnil
      have := hsub c hc
      rw [hnil, List.suffix_nil] at this
      exact (hs'.live_iff h' hc).mp hlive this

/-- The oldest live slot has the lowest cursor of all live slots. -/
theorem Inv.floor {config : EngineConfig} {t : Tracked σ} (h : Inv config t) {p : Position}
    (hp : t.engine.durablePoint = some p) : Floor p t.engine := by
  obtain ⟨G, hG⟩ := h.history
  rw [Engine.durablePoint, Option.bind_eq_some_iff] at hp
  obtain ⟨s, hs, hsp⟩ := hp
  rw [CheckpointRing.oldest, CheckpointRing.oldestFirst_eq] at hs
  have hsorted : (t.engine.checkpoints.stored.filter fun s => live s t.engine.ring).Pairwise
      fun a b => a.cursor ≤ b.cursor := by
    refine List.Pairwise.filter _ ?_
    rw [hG.slots, CheckpointRing.stored_map, List.pairwise_map]
    exact hG.sorted
  obtain ⟨tail, htail⟩ := List.head?_eq_some_iff.mp hs
  have hmem : s ∈ t.engine.checkpoints.stored.filter fun s => live s t.engine.ring := by
    rw [htail]
    exact List.mem_cons_self
  constructor
  · obtain ⟨x, hx, rfl⟩ := hG.mem_stored (List.mem_filter.mp hmem).1
    rw [← hsp]
    exact (hG.ok x hx).1.le
  · intro s' hs' hlive
    have hmem' : s' ∈ t.engine.checkpoints.stored.filter fun s => live s t.engine.ring :=
      List.mem_filter.mpr ⟨hs', hlive⟩
    rw [htail] at hmem' hsorted
    rw [← hsp]
    rcases List.mem_cons.mp hmem' with rfl | hin
    · exact le_rfl
    · exact List.rel_of_pairwise_cons hsorted hin

theorem Floor.durablePoint {p q : Position} {e : Engine σ} (h : Floor p e)
    (hq : e.durablePoint = some q) : p ≤ q := by
  rw [Engine.durablePoint, Option.bind_eq_some_iff] at hq
  obtain ⟨s, hs, hsq⟩ := hq
  rw [CheckpointRing.oldest, CheckpointRing.oldestFirst_eq] at hs
  obtain ⟨hmem, hlive⟩ := List.mem_filter.mp (List.mem_of_head? hs)
  have := h.slots s hmem hlive
  rw [hsq] at this
  exact Option.some_le_some.mp this

theorem Floor.applyBatch (A : Fold σ E ε) {config : EngineConfig} {t : Tracked σ}
    (h : Inv config t) {p : Position} (hf : Floor p t.engine) (b : Batch E) :
    Floor p (t.engine.applyBatch A b).1 := by
  have hm := Engine.applyBatch_moved A h.ringOk b
  obtain ⟨G, hG⟩ := h.history
  refine ⟨hf.cursor.trans hm.cursor_le, ?_⟩
  intro s hs hlive
  rw [hm.checkpoints] at hs
  refine hf.slots s hs ?_
  obtain ⟨x, hx, rfl⟩ := hG.mem_stored hs
  have hok := (hG.ok x hx).1
  refine hok.live_of_suffix (hok.moved h.ringOk hm) h.ringOk hm.ringOk ?_ hlive
  intro c hc
  have hle := hok.le
  rw [hc] at hle
  exact (filter_pushes hm.pushes (exists_le_of_cursor_le h.ringOk hle)).1

theorem Floor.checkpoint {config : EngineConfig} {t : Tracked σ} (h : Inv config t)
    {p : Position} (hf : Floor p t.engine) : Floor p t.engine.checkpoint := by
  obtain ⟨G, hG⟩ := h.history
  unfold Engine.checkpoint
  split_ifs with ha
  · refine ⟨hf.cursor, ?_⟩
    intro s hs hlive
    rcases CheckpointRing.mem_stored_store hs with hs' | rfl
    · exact hf.slots s hs' hlive
    · exact hf.cursor
  · exact hf

theorem Floor.rollback {config : EngineConfig} {t : Tracked σ} (h : Inv config t)
    {p : Position} (hf : Floor p t.engine) (block : ℕ) :
    Floor p (t.engine.rollbackAtOrBelow block).1 := by
  rcases hrb : t.engine.rollbackAtOrBelow block with ⟨e', err | c⟩
  · rw [rollback_error hrb]
    exact hf
  · obtain ⟨slot, hbest, -, rfl⟩ := rollback_cases hrb
    obtain ⟨hmem, hlive⟩ := mem_of_bestAtOrBelow hbest
    obtain ⟨G, hG⟩ := h.history
    have hinv := h.rollback block
    rw [hrb] at hinv
    refine ⟨hf.slots slot hmem hlive, ?_⟩
    intro s hs hsl
    have hkept := CheckpointRing.mem_stored_dropNewer hs
    refine hf.slots s hkept.1 ?_
    obtain ⟨x, hx, rfl⟩ := hG.mem_stored hkept.1
    have hok := (hG.ok x hx).1
    refine hok.live_of_suffix (hok.truncated h.ringOk hkept.2 rfl) h.ringOk hinv.ringOk ?_ hsl
    intro c hc
    have hring : (t.engine.restore slot).ring = Engine.ringAt t.engine.ring slot.cursor := rfl
    dsimp only
    rw [hring]
    cases hsc : slot.cursor with
    | none => exact List.nil_suffix
    | some d =>
        rw [Engine.ringAt, iter_truncateAbove h.ringOk.ascending, List.filter_filter]
        have hcd : c.block ≤ d.block := by
          have := hkept.2
          rw [hc, hsc] at this
          exact Position.block_le (Option.some_le_some.mp this)
        rw [List.filter_congr (q := fun a => decide (a.number ≤ c.block))]
        intro a _
        by_cases ha : a.number ≤ c.block
        · simp [ha, ha.trans hcd]
        · simp [ha]

/-- The operation is not a reset. -/
def Op.NotReset : Op σ E → Prop
  | .reset _ => False
  | _ => True

theorem Floor.run (A : Fold σ E ε) {config : EngineConfig} {p : Position} :
    ∀ (ops : List (Op σ E)) {t : Tracked σ}, Inv config t → Floor p t.engine →
      (∀ op ∈ ops, op.NotReset) → Floor p (t.run A ops).engine
  | [], _, _, hf, _ => hf
  | op :: ops, t, h, hf, hops => by
      refine Floor.run A ops (h.step A op) ?_ fun o ho => hops o (List.mem_cons_of_mem _ ho)
      have hop := hops op List.mem_cons_self
      cases op with
      | applyBatch b => exact hf.applyBatch A h b
      | checkpoint => exact hf.checkpoint h
      | rollbackAtOrBelow block => exact hf.rollback h block
      | reset fold => exact absurd hop id
      | markUnrecoverable cause => exact ⟨hf.cursor, hf.slots⟩

/-- **The durable point is never undercut.**  After a run that ends with the durable point `p`,
no continuation without a reset reports an earlier one, and its cursor stays at or after
`p`. -/
theorem durablePoint_not_undercut (A : Fold σ E ε) {P : Persist σ π} {W : Wincode} {crc : Crc}
    {config : EngineConfig} {e : Engine σ} (hstart : Started P W crc config e)
    (ops later : List (Op σ E)) (hlater : ∀ op ∈ later, op.NotReset) {p : Position}
    (hp : ((Tracked.start e).run A ops).engine.durablePoint = some p) :
    (∀ q, ((Tracked.start e).run A (ops ++ later)).engine.durablePoint = some q → p ≤ q) ∧
      ∃ c, ((Tracked.start e).run A (ops ++ later)).engine.cursor = some c ∧ p ≤ c := by
  have h := hstart.inv.run A ops
  have hsplit : (Tracked.start e).run A (ops ++ later) =
      ((Tracked.start e).run A ops).run A later := List.foldl_append
  have hf := Floor.run A later h (h.floor hp) hlater
  rw [hsplit]
  refine ⟨fun q hq => hf.durablePoint hq, ?_⟩
  have hc := hf.cursor
  cases hcur : (((Tracked.start e).run A ops).run A later).engine.cursor with
  | none => rw [hcur] at hc; simp at hc
  | some c =>
      rw [hcur] at hc
      exact ⟨c, rfl, Option.some_le_some.mp hc⟩

theorem sample_not_undercut : ∃ c, ((Tracked.start sampleEngine).run recordingFold
    ([.applyBatch sampleBatch, .checkpoint] ++
      [.applyBatch laterBatch, .rollbackAtOrBelow 3])).engine.cursor = some c ∧ ⟨3, 1⟩ ≤ c :=
  (durablePoint_not_undercut recordingFold sampleEngine_started
    [.applyBatch sampleBatch, .checkpoint] [.applyBatch laterBatch, .rollbackAtOrBelow 3]
    (by simp [Op.NotReset]) rfl).2

end Works.Chainfold
