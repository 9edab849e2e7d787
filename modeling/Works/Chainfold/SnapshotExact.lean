import Works.Chainfold.Restart
import Works.Chainfold.Rollback

/-! # What a durable snapshot holds

`encode_durable_snapshot` puts together the state of an old checkpoint and a window of the ring
of now.  The window is the ring the engine would have after going back to that checkpoint, so
the snapshot is that of the engine restored to the oldest live slot, and decodes to it. -/

namespace Works.Chainfold

open Works.Lib BlockRing

variable {σ E ε π : Type} {P : Persist σ π} {W : Wincode} {crc : Crc}

/-! ### The bytes written -/

theorem encodeEnvelope_ok {fold : σ} {cursor : Cursor} {blocks : List BlockRef}
    {out out' : List UInt8} {u : Unit}
    (h : encodeEnvelope P W crc fold cursor blocks out = (out', .ok u)) :
    ∃ bytes, out' = out ++ bytes ∧
      encodeEnvelope P W crc fold cursor blocks [] = (bytes, .ok ()) := by
  unfold encodeEnvelope writeEnvelope at h ⊢
  cases hs : W.serialize (envelopeOf P fold cursor blocks) with
  | none => simp [hs] at h
  | some bytes =>
      simp only [hs, Prod.mk.injEq] at h
      refine ⟨bytes ++ leBytes CRC_LEN (crc bytes).toNat, ?_, by simp⟩
      rw [← h.1, List.append_assoc]

theorem encodeEnvelope_error {fold : σ} {cursor : Cursor} {blocks : List BlockRef}
    {out out' : List UInt8} {err : SnapshotError π}
    (h : encodeEnvelope P W crc fold cursor blocks out = (out', .error err)) : out' = out := by
  unfold encodeEnvelope writeEnvelope at h
  cases hs : W.serialize (envelopeOf P fold cursor blocks) with
  | none =>
      simp only [hs, Prod.mk.injEq] at h
      exact h.1.symm
  | some bytes => simp [hs] at h

/-! ### The engine restored to a slot -/

theorem Engine.capacity_restore (e : Engine σ) (slot : Slot σ) :
    (e.restore slot).ring.capacity = e.ring.capacity := by
  unfold Engine.restore Engine.ringAt
  cases slot.cursor <;> simp

theorem RingOk.iter_restore {e : Engine σ} (h : e.RingOk) {slot : Slot σ} {point : Position}
    (hp : slot.cursor = some point) :
    (e.restore slot).ring.iter = e.ring.iter.filter fun b => decide (b.number ≤ point.block) := by
  rw [← iter_truncateAbove h.ascending, Engine.restore, hp]
  rfl

/-- The oldest live slot is one of the slots, and live. -/
theorem CheckpointRing.mem_of_oldest {r : CheckpointRing σ} {ring : BlockRing} {s : Slot σ}
    (h : r.oldest ring = some s) : s ∈ r.stored ∧ live s ring = true := by
  rw [CheckpointRing.oldest, CheckpointRing.oldestFirst_eq] at h
  exact List.mem_filter.mp (List.mem_of_head? h)

/-- A slot of the engine has a place, and was recorded there. -/
theorem History.place {t : Tracked σ} {G : CheckpointRing (σ × Stamp σ)} (h : History t G)
    {s : Slot σ} (hs : s ∈ t.engine.checkpoints.stored) :
    ∃ i st, t.slotAt i = some s ∧ t.taken i = some st ∧ s.fold = st.engine.fold := by
  obtain ⟨i, hi⟩ := List.mem_iff_getElem?.mp (CheckpointRing.mem_stored_iff.mp hs)
  have hslot : t.slotAt i = some s := by
    rw [Tracked.slotAt, hi]
    rfl
  obtain ⟨x, hx, rfl, htaken⟩ := h.slot hslot
  exact ⟨i, x.fold.2, hslot, htaken, (h.ok x hx).1.fold⟩

/-! ### Durable snapshots -/

/-- What the snapshot `bytes` of the checkpoint at `p` decodes to. -/
structure DurableSnapshot (P : Persist σ π) (W : Wincode) (crc : Crc) (config : EngineConfig)
    (t : Tracked σ) (p : Position) (bytes : List UInt8) (e' : Engine σ) : Prop where
  decodes : Engine.decodeSnapshot P W crc bytes config = .ok e'
  cursor : e'.cursor = some p
  /-- The state of the oldest live slot, as the engine had it when the slot was stored. -/
  fold : ∃ i slot st, t.engine.checkpoints.oldest t.engine.ring = some slot ∧
    slot.cursor = some p ∧ t.slotAt i = some slot ∧ t.taken i = some st ∧
    e'.fold = st.engine.fold
  observed : e'.observed = t.engine.observed.filter fun b => decide (b.number ≤ p.block)
  newest : e'.observed.getLast?.map (·.number) = some p.block

theorem Inv.durableSnapshot (hW : W.Lawful) (hP : ∀ s, P.decodeState (P.encodeState s) = .ok s)
    {config : EngineConfig} (hv : config.validate = .ok ()) {t : Tracked σ} (h : Inv config t)
    {slot : Slot σ} (hs : t.engine.checkpoints.oldest t.engine.ring = some slot) {p : Position}
    (hp : slot.cursor = some p) {bytes : List UInt8}
    (henc : encodeEnvelope P W crc slot.fold slot.cursor (t.engine.ring.iterAtOrBelow p.block)
      [] = (bytes, .ok ())) :
    ∃ e', DurableSnapshot P W crc config t p bytes e' := by
  obtain ⟨hmem, hlive⟩ := CheckpointRing.mem_of_oldest hs
  obtain ⟨G, hG⟩ := h.history
  obtain ⟨i, st, hat, htaken, hfold⟩ := hG.place hmem
  have hok := RingOk.restore h.ringOk hlive
  have hcap := (t.engine.capacity_restore slot).trans h.capacity
  have hiter := RingOk.iter_restore h.ringOk hp
  have henc' : (t.engine.restore slot).encodeSnapshot P W crc [] = (bytes, .ok ()) := by
    rw [← henc, iterAtOrBelow_eq h.ringOk.ascending, ← hiter]
    rfl
  obtain ⟨e', hdec, hsim⟩ := decode_encode hW hP hv hok hcap rfl henc'
  have hcursor : e'.cursor = some p := hsim.cursor.symm.trans hp
  refine ⟨e', hdec, hcursor, ⟨i, slot, st, hs, hp, hat, htaken, ?_⟩, ?_, ?_⟩
  · rw [← hfold]
    exact hsim.fold.symm
  · rw [← hsim.observed]
    exact hiter
  · rw [Engine.observed, ← newestNumber_eq, hsim.ringOk₂.newest, hcursor]
    rfl

/-- What `encode_durable_snapshot` may leave in `out` and return. -/
def DurableResult (P : Persist σ π) (W : Wincode) (crc : Crc) (config : EngineConfig)
    (t : Tracked σ) (out : List UInt8) :
    List UInt8 × Except (SnapshotError π) Cursor → Prop
  | (out', .ok (some p)) => t.engine.durablePoint = some p ∧
      ∃ bytes e', out' = out ++ bytes ∧ DurableSnapshot P W crc config t p bytes e'
  | (out', .ok none) => out' = out
  | (out', .error _) => out' = out

/-- **Durable snapshots are exact.**  A snapshot that a reachable engine names by a point is
that of its durable point: it decodes to the state of then and to the blocks observed now up
to that point.  When no point is returned, nothing is written. -/
theorem durable_snapshot_exact (A : Fold σ E ε) (hW : W.Lawful)
    (hP : ∀ s, P.decodeState (P.encodeState s) = .ok s) {config : EngineConfig} {e₀ : Engine σ}
    (hstart : Started P W crc config e₀) (ops : List (Op σ E)) (out : List UInt8) :
    DurableResult P W crc config ((Tracked.start e₀).run A ops) out
      (((Tracked.start e₀).run A ops).engine.encodeDurableSnapshot P W crc out) := by
  have hinv := hstart.inv.run A ops
  generalize (Tracked.start e₀).run A ops = t at *
  unfold Engine.encodeDurableSnapshot
  cases hs : t.engine.checkpoints.oldest t.engine.ring with
  | none => rfl
  | some slot =>
      cases hp : slot.cursor with
      | none => simp [hp, DurableResult]
      | some point =>
          simp only [hp]
          cases henc : encodeEnvelope P W crc slot.fold (some point)
              (t.engine.ring.iterAtOrBelow point.block) out with
          | mk written res =>
              cases res with
              | error err => exact encodeEnvelope_error henc
              | ok u =>
                  obtain ⟨bytes, hout, hbytes⟩ := encodeEnvelope_ok henc
                  rw [← hp] at hbytes
                  obtain ⟨e', he'⟩ := hinv.durableSnapshot hW hP hstart.validate hs hp hbytes
                  refine ⟨?_, bytes, e', hout, he'⟩
                  rw [Engine.durablePoint, hs]
                  exact hp

/-- A run that takes a checkpoint at block 3 and folds on. -/
def summedOps : List (Op UInt64 ℕ) :=
  [.applyBatch sampleBatch, .checkpoint, .applyBatch laterBatch]

theorem sample_durable_snapshot : ∃ bytes e',
    DurableSnapshot sumPersist fixint crc32c sampleConfig
      ((Tracked.start sumEngine).run sumFold summedOps) ⟨3, 1⟩ bytes e' := by
  have hres := durable_snapshot_exact sumFold fixint_lawful sumPersist_round_trip
    (.new rfl : Started sumPersist fixint crc32c sampleConfig sumEngine) summedOps []
  have hser : fixint.serialize (envelopeOf sumPersist (33 : UInt64) (some ⟨3, 1⟩)
      [sampleBlock 1, sampleBlock 3]) ≠ none := by
    have henv : (envelopeOf sumPersist (33 : UInt64) (some ⟨3, 1⟩)
      [sampleBlock 1, sampleBlock 3]).Encodable := by decide
    simp [fixint, henv]
  obtain ⟨bytes, hbytes⟩ := Option.ne_none_iff_exists'.mp hser
  have hold : ((Tracked.start sumEngine).run sumFold summedOps).engine.checkpoints.oldest
      ((Tracked.start sumEngine).run sumFold summedOps).engine.ring =
        some ⟨33, some ⟨3, 1⟩⟩ := rfl
  have hwindow : ((Tracked.start sumEngine).run sumFold summedOps).engine.ring.iterAtOrBelow 3 =
      [sampleBlock 1, sampleBlock 3] := rfl
  have hcall : ((Tracked.start sumEngine).run sumFold summedOps).engine.encodeDurableSnapshot
      sumPersist fixint crc32c [] =
        (bytes ++ leBytes CRC_LEN (crc32c bytes).toNat, .ok (some ⟨3, 1⟩)) := by
    simp only [Engine.encodeDurableSnapshot, hold, hwindow, encodeEnvelope, writeEnvelope, hbytes,
      List.nil_append]
  rw [hcall] at hres
  obtain ⟨-, bytes, e', -, he'⟩ := hres
  exact ⟨bytes, e', he'⟩

end Works.Chainfold
