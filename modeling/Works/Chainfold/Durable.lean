import Works.Chainfold.Restart
import Works.Chainfold.Rollback
import Works.Chainfold.DriverRun

/-! # The reported durable cursor

A sink publishes the cursors of accepted offers at times of its own, until it is reset
(`Publishing`).  Between two resets of the engine everything the sink may publish stays at or below
the cursor (`Watched.floors`): the durable point of an offer is never undercut.  After a reset the
driver reports nothing until its next tick resets the sink; it tells by the counters of resets,
which wrap.

A run is any sequence of ticks against a source that answers as it likes, of operations on the
engine behind the driver's back, and of publications. -/

namespace Works.Chainfold

open Works.Lib Prog Engine

variable {σ π E ε κ : Type}

/-! ### Sinks that publish -/

/-- A sink that publishes the cursor of an accepted offer at any time after it, by a step of
`settles`, and drops what it holds on a reset.  `offered` are the cursors it may still publish. -/
structure Publishing (K : Sink κ σ) (settles : κ → κ → Prop) where
  offered : κ → Set Position
  offer_offered : ∀ k e, offered (K.offer k e).1 ⊆ offered k ∪ {p | e.durablePoint = some p}
  offer_cursor : ∀ k e, K.durableCursor (K.offer k e).1 = K.durableCursor k
  reset_offered : ∀ k, offered (K.reset k) = ∅
  reset_cursor : ∀ k, K.durableCursor (K.reset k) = none
  settles_offered : ∀ k k', settles k k' → offered k' ⊆ offered k
  settles_cursor : ∀ k k', settles k k' →
    K.durableCursor k' = K.durableCursor k ∨ ∃ p ∈ offered k, K.durableCursor k' = some p

/-! ### Operations without a reset -/

/-- The engine after operations none of which is a reset. -/
def Engine.Reaches (A : Fold σ E ε) (e e' : Engine σ) : Prop :=
  ∃ ops : List (Op σ E), (∀ op ∈ ops, op.NotReset) ∧ ((Tracked.start e).run A ops).engine = e'

section Reaches

variable {A : Fold σ E ε} {e e' e'' : Engine σ}

theorem Tracked.run_engine (t : Tracked σ) (ops : List (Op σ E)) :
    (t.run A ops).engine = ((Tracked.start t.engine).run A ops).engine := by
  induction ops using List.reverseRecOn with
  | nil => rfl
  | append_singleton ops op ih =>
      simp only [Tracked.run, List.foldl_append, List.foldl_cons, List.foldl_nil] at ih ⊢
      cases op with
      | applyBatch batch => simp only [Tracked.step, ih]
      | checkpoint => simp only [Tracked.step, Tracked.checkpoint, ih]
      | rollbackAtOrBelow block => simp only [Tracked.step, ih]
      | reset fold => simp only [Tracked.step, ih]
      | markUnrecoverable cause => simp only [Tracked.step, ih]

theorem Engine.Reaches.refl (A : Fold σ E ε) (e : Engine σ) : e.Reaches A e := ⟨[], by simp, rfl⟩

theorem Engine.Reaches.op (A : Fold σ E ε) (e : Engine σ) (op : Op σ E) (h : op.NotReset) :
    e.Reaches A ((Tracked.start e).step A op).engine :=
  ⟨[op], by simpa using h, rfl⟩

theorem Engine.Reaches.trans (h : e.Reaches A e') (h' : e'.Reaches A e'') : e.Reaches A e'' := by
  obtain ⟨ops, hops, rfl⟩ := h
  obtain ⟨ops', hops', rfl⟩ := h'
  refine ⟨ops ++ ops', ?_, ?_⟩
  · intro op hop
    exact (List.mem_append.mp hop).elim (hops op) (hops' op)
  · rw [← Tracked.run_engine, Tracked.run, Tracked.run, Tracked.run, List.foldl_append]

/-- An engine of a run, whose cursor and live checkpoints are at or after all of `S`. -/
structure Above (S : Set Position) (e : Engine σ) : Prop where
  inv : ∃ config t, Inv config t ∧ t.engine = e
  floor : ∀ p ∈ S, Floor p e

theorem Above.reaches {S : Set Position} (h : Above S e) (hr : e.Reaches A e') : Above S e' := by
  obtain ⟨config, t, hinv, rfl⟩ := h.inv
  obtain ⟨ops, hops, rfl⟩ := hr
  rw [← Tracked.run_engine]
  exact ⟨⟨config, t.run A ops, hinv.run A ops, rfl⟩,
    fun p hp => Floor.run A ops hinv (h.floor p hp) hops⟩

theorem Above.reset {S : Set Position} (h : Above S e) (fold : σ) : Above ∅ (e.reset fold) := by
  obtain ⟨config, t, hinv, rfl⟩ := h.inv
  exact ⟨⟨config, _, hinv.reset fold, rfl⟩, by simp⟩

/-- The durable point joins what the engine is above. -/
theorem Above.offer {S : Set Position} (h : Above S e) : Above (S ∪ {p | e.durablePoint = some p}) e
    where
  inv := h.inv
  floor := by
    rintro p (hp | hp)
    · exact h.floor p hp
    · obtain ⟨config, t, hinv, rfl⟩ := h.inv
      exact hinv.floor hp

theorem Above.mono {S T : Set Position} (h : Above S e) (hsub : T ⊆ S) : Above T e :=
  ⟨h.inv, fun p hp => h.floor p (hsub hp)⟩

theorem Above.le_cursor {S : Set Position} (h : Above S e) {p : Position} (hp : p ∈ S) :
    some p ≤ e.cursor := (h.floor p hp).cursor

theorem Inv.run_resets (A : Fold σ E ε) {config : EngineConfig} (ops : List (Op σ E))
    (hops : ∀ op ∈ ops, op.NotReset) {t : Tracked σ} (h : Inv config t) :
    (t.run A ops).engine.resets = t.engine.resets := by
  induction ops generalizing t with
  | nil => rfl
  | cons op ops ih =>
      refine (ih (fun o ho => hops o (List.mem_cons_of_mem op ho)) (h.step A op)).trans ?_
      have hop := hops op List.mem_cons_self
      cases op with
      | applyBatch batch => exact (applyBatch_moved A h.ringOk batch).resets
      | checkpoint =>
          show t.engine.checkpoint.resets = _
          unfold Engine.checkpoint
          split_ifs <;> rfl
      | rollbackAtOrBelow block =>
          show (t.engine.rollbackAtOrBelow block).1.resets = _
          unfold Engine.rollbackAtOrBelow
          split
          · rfl
          · split <;> rfl
      | reset fold => exact absurd hop id
      | markUnrecoverable cause => rfl

theorem Above.resets {S : Set Position} (h : Above S e) (hr : e.Reaches A e') :
    e'.resets = e.resets := by
  obtain ⟨config, t, hinv, rfl⟩ := h.inv
  obtain ⟨ops, hops, rfl⟩ := hr
  rw [← Tracked.run_engine]
  exact hinv.run_resets A ops hops

end Reaches

/-! ### What a tick does to the sink -/

/-- What a poll does to the engine and to the sink. -/
inductive Polled (A : Fold σ E ε) (K : Sink κ σ) (d d' : Driver σ κ) (t : Tick) : Prop
  | quiet (engine : d.engine.Reaches A d'.engine) (sink : d'.sink = d.sink)
      (seen : d'.seenResets = d.seenResets) (tick : t ≠ .resynced)
  | resynced (e : Engine σ) (before : d.engine.Reaches A e) (fold : σ)
      (engine : d'.engine = e.reset fold) (sink : d'.sink = d.sink)
      (seen : d'.seenResets = d.seenResets) (tick : t = .resynced)
  | offered (engine : d.engine.Reaches A d'.engine) (sink : d'.sink = (K.offer d.sink d'.engine).1)
      (seen : d'.seenResets = d.seenResets) (tick : t ≠ .resynced)

section Tick

variable {A : Fold σ E ε} {K : Sink κ σ} {d d₁ d' : Driver σ κ} {t : Tick} {τ : Trace E}

/-- A poll goes on after operations on the engine. -/
theorem Polled.before (h : Polled A K d₁ d' t) (he : d.engine.Reaches A d₁.engine)
    (hsink : d₁.sink = d.sink) (hseen : d₁.seenResets = d.seenResets) : Polled A K d d' t := by
  cases h with
  | quiet engine sink seen tick =>
      exact .quiet (he.trans engine) (sink.trans hsink) (seen.trans hseen) tick
  | resynced e before fold engine sink seen tick =>
      exact .resynced e (he.trans before) fold engine (sink.trans hsink) (seen.trans hseen) tick
  | offered engine sink seen tick =>
      exact .offered (he.trans engine) (hsink ▸ sink) (seen.trans hseen) tick

theorem resyncOrTerminal_polled (hrun : RunsOn d.resyncOrTerminal τ (d', t)) :
    Polled A K d d' t := by
  obtain ⟨horizon, D, τ', rfl, hgo⟩ := runsOn_query_bind_iff.mp hrun
  have hresync : (d', t) = d.resync → Polled A K d d' t := by
    intro h
    cases h
    exact .resynced d.engine (.refl A _) d.initial rfl rfl rfl rfl
  cases horizon with
  | genesis => exact hresync (runsOn_pure_iff.mp hgo).2
  | fromBlock horizon =>
      dsimp only at hgo
      by_cases hlt : d.config.startBlock < horizon
      · rw [if_pos hlt, runsOn_pure_iff] at hgo
        cases hgo.2
        exact .quiet (.op A _ (.markUnrecoverable _) trivial) rfl rfl (by simp)
      · rw [if_neg hlt] at hgo
        exact hresync (runsOn_pure_iff.mp hgo).2

theorem rollBackTo_polled {ancestor : ℕ} (hrun : RunsOn (d.rollBackTo ancestor) τ (d', t)) :
    Polled A K d d' t := by
  unfold Driver.rollBackTo at hrun
  have hback : d.engine.Reaches A (d.engine.rollbackAtOrBelow ancestor).1 :=
    .op A _ (.rollbackAtOrBelow ancestor) trivial
  cases hrb : d.engine.rollbackAtOrBelow ancestor with
  | mk e result =>
      rw [hrb] at hback
      cases result with
      | ok c =>
          simp only [hrb] at hrun
          cases (runsOn_pure_iff.mp hrun).2
          exact .quiet hback rfl rfl (by simp)
      | error err =>
          cases err with
          | noCheckpointAtOrBelow block =>
              simp only [hrb] at hrun
              exact (resyncOrTerminal_polled hrun).before hback rfl rfl
          | unrecoverable cause =>
              simp only [hrb] at hrun
              cases (runsOn_pure_iff.mp hrun).2
              exact .quiet hback rfl rfl (by simp)

theorem recoverViaBisection_polled (hrun : RunsOn d.recoverViaBisection τ (d', t)) :
    Polled A K d d' t := by
  obtain ⟨τ₁, found, τ₂, rfl, -, hgo⟩ := runsOn_bind_iff.mp hrun
  cases found with
  | none =>
      cases (runsOn_pure_iff.mp hgo).2
      exact .quiet (.refl A _) rfl rfl (by simp)
  | some lo =>
      dsimp only at hgo
      split at hgo
      · exact (resyncOrTerminal_polled hgo).before (.refl A _) rfl rfl
      · exact (rollBackTo_polled hgo).before (.refl A _) rfl rfl

/-- An offer that is made leaves the engine alone. -/
theorem offerSnapshot_sink (K : Sink κ σ) (d : Driver σ κ) :
    (d.offerSnapshot K).1.engine = d.engine ∧
      (d.offerSnapshot K).1.seenResets = d.seenResets ∧
      ((d.offerSnapshot K).1.sink = d.sink ∨
        (d.offerSnapshot K).1.sink = (K.offer d.sink d.engine).1) := by
  unfold Driver.offerSnapshot
  split_ifs
  · exact ⟨rfl, rfl, Or.inl rfl⟩
  · split
    · split_ifs
      · split
        · rename_i hoffer
          exact ⟨rfl, rfl, Or.inr (congrArg Prod.fst hoffer).symm⟩
        · rename_i hoffer
          exact ⟨rfl, rfl, Or.inr (congrArg Prod.fst hoffer).symm⟩
      · exact ⟨rfl, rfl, Or.inl rfl⟩
    · exact ⟨rfl, rfl, Or.inl rfl⟩

theorem accept_polled {summary : ApplySummary} {head : BlockRef}
    {walked cappedAt : Option BlockRef} {empty : Bool}
    (h : d.accept K summary head walked cappedAt empty = (d', t)) : Polled A K d d' t := by
  unfold Driver.accept at h
  dsimp only at h
  generalize hd₀ : ({ d with
    walked := if empty then cappedAt.or walked else none
    vouched := if empty && cappedAt.isNone then d.vouched else some head
    caughtUp := empty && cappedAt.isNone } : Driver σ κ) = d₀ at h
  obtain ⟨e, last, he, hauto⟩ := Driver.autoCheckpoint_eq d₀
  have hreach : d.engine.Reaches A d₀.autoCheckpoint.engine := by
    rw [hauto]
    subst hd₀
    cases he with
    | inl he => exact he ▸ .refl A _
    | inr he => exact he ▸ .op A _ .checkpoint trivial
  have hsink₀ : d₀.autoCheckpoint.sink = d.sink := by
    rw [hauto, ← hd₀]
  have hseen₀ : d₀.autoCheckpoint.seenResets = d.seenResets := by
    rw [hauto, ← hd₀]
  obtain ⟨hengine, hseen, hsink⟩ := offerSnapshot_sink K d₀.autoCheckpoint
  have hends : ∀ t', t' ≠ Tick.resynced →
      Polled A K d (d₀.autoCheckpoint.offerSnapshot K).1 t' := by
    intro t' ht'
    refine (@Polled.before _ _ _ _ _ _ _ (d₀.autoCheckpoint)) ?_ hreach hsink₀ hseen₀
    cases hsink with
    | inl hsink => exact .quiet (hengine ▸ .refl A _) hsink hseen ht'
    | inr hsink => exact .offered (hengine ▸ .refl A _) (hengine ▸ hsink) hseen ht'
  cases hoffer : d₀.autoCheckpoint.offerSnapshot K with
  | mk d₂ refused =>
      rw [hoffer] at h hends
      cases refused with
      | true =>
          cases h
          exact hends _ (by simp)
      | false =>
          cases h
          refine hends _ ?_
          split_ifs <;> simp

theorem applyScan_polled {batch : Batch E} {head : BlockRef} {cappedAt : Option BlockRef}
    (hrun : RunsOn (d.applyScan A K batch head cappedAt) τ (d', t)) : Polled A K d d' t := by
  unfold Driver.applyScan at hrun
  have happly : d.engine.Reaches A (d.engine.applyBatch A batch).1 :=
    .op A _ (.applyBatch batch) trivial
  cases hap : d.engine.applyBatch A batch with
  | mk e result =>
      rw [hap] at happly
      simp only [hap] at hrun
      cases result with
      | ok summary => exact (accept_polled (runsOn_pure_iff.mp hrun).2.symm).before happly rfl rfl
      | error err =>
          cases err with
          | forkSuspected observed refetched =>
              exact (recoverViaBisection_polled hrun).before happly rfl rfl
          | missingBoundary => exact (recoverViaBisection_polled hrun).before happly rfl rfl
          | cursorBlockUnobserved block =>
              exact (recoverViaBisection_polled hrun).before happly rfl rfl
          | halted pos error =>
              cases (runsOn_pure_iff.mp hrun).2
              exact .quiet happly rfl rfl (by simp)
          | poisoned pos error =>
              cases (runsOn_pure_iff.mp hrun).2
              exact .quiet happly rfl rfl (by simp)
          | shape error =>
              cases (runsOn_pure_iff.mp hrun).2
              exact .quiet happly rfl rfl (by simp)
          | boundaryNumberMismatch expected got =>
              cases (runsOn_pure_iff.mp hrun).2
              exact .quiet happly rfl rfl (by simp)
          | notActive status =>
              cases (runsOn_pure_iff.mp hrun).2
              exact .quiet happly rfl rfl (by simp)

/-- **What a poll can do**, whatever the source answers. -/
theorem pollApply_polled (hrun : RunsOn (d.pollApply A K) τ (d', t)) : Polled A K d d' t := by
  unfold Driver.pollApply at hrun
  dsimp only at hrun
  by_cases hactive : d.engine.status.isActive = true
  · rw [if_pos hactive] at hrun
    obtain ⟨τ₁, scanned, τ₂, rfl, -, hgo⟩ := runsOn_bind_iff.mp hrun
    cases hout : scanned.outcome with
    | none =>
        simp only [hout] at hgo
        cases (runsOn_pure_iff.mp hgo).2
        exact .quiet (.refl A _) rfl rfl (by simp)
    | some scan =>
        simp only [hout] at hgo
        cases scan with
        | ready head => exact (applyScan_polled hgo).before (.refl A _) rfl rfl
        | capped anchor head => exact (applyScan_polled hgo).before (.refl A _) rfl rfl
        | lagging =>
            cases (runsOn_pure_iff.mp hgo).2
            exact .quiet (.refl A _) rfl rfl (by simp)
        | refused =>
            cases (runsOn_pure_iff.mp hgo).2
            exact .quiet (.refl A _) rfl rfl (by simp)
  · rw [if_neg hactive] at hrun
    cases (runsOn_pure_iff.mp hrun).2
    exact .quiet (.refl A _) rfl rfl (by simp)

theorem step_polled (hrun : RunsOn (d.step A K) τ (d', t)) :
    ∃ d₂, Polled A K (d.catchCaller K) d₂ t ∧ d' = d₂.settle t := by
  unfold Driver.step at hrun
  obtain ⟨τ₁, r, τ₂, rfl, hpoll, hend⟩ := runsOn_bind_iff.mp hrun
  cases (runsOn_pure_iff.mp hend).2
  exact ⟨r.1, pollApply_polled hpoll, rfl⟩

/-- The start of a tick resets the sink when the engine was reset. -/
theorem catchCaller_sink (K : Sink κ σ) (d : Driver σ κ) :
    (d.catchCaller K).engine = d.engine ∧ (d.catchCaller K).seenResets = d.engine.resets ∧
      (d.catchCaller K).sink = if d.seenResets = d.engine.resets then d.sink else K.reset d.sink := by
  unfold Driver.catchCaller
  dsimp only
  by_cases h : d.seenResets = d.engine.resets
  · rw [if_neg (not_not.mpr (show d.clampMarks.seenResets = d.clampMarks.engine.resets from h)),
      if_pos h]
    split_ifs <;> exact ⟨rfl, h, rfl⟩
  · rw [if_pos (show d.clampMarks.seenResets ≠ d.clampMarks.engine.resets from h), if_neg h]
    split_ifs <;> exact ⟨rfl, rfl, rfl⟩

end Tick

/-! ### Runs -/

/-- What happens in a run: a tick with the cursors it offered, an operation of the caller that is or
is not a reset, or a publication of the sink with its cursor after it. -/
inductive Act where
  | tick (t : Tick) (offered : Set Position)
  | caller (reset : Bool)
  | settled (cursor : Cursor)

/-- The engine was reset. -/
def Act.Resets : Act → Prop
  | .tick t _ => t = .resynced
  | .caller reset => reset = true
  | .settled _ => False

/-- Whether an operation is a reset. -/
def Op.isReset : Op σ E → Bool
  | .reset _ => true
  | _ => false

/-- What may happen next. -/
inductive DriverStep (A : Fold σ E ε) {K : Sink κ σ} {settles : κ → κ → Prop}
    (spec : Publishing K settles) (d : Driver σ κ) : Act → Driver σ κ → Prop
  | tick {d' : Driver σ κ} {t : Tick} {τ : Trace E} (run : RunsOn (d.step A K) τ (d', t)) :
      DriverStep A spec d
        (.tick t (spec.offered d'.sink \ spec.offered (d.catchCaller K).sink)) d'
  /-- `engine_mut` and one operation. -/
  | engineMut (op : Op σ E) : DriverStep A spec d (.caller op.isReset)
      { d with engine := ((Tracked.start d.engine).step A op).engine }
  | checkpoint : DriverStep A spec d (.caller false) d.checkpoint
  | sourceMut : DriverStep A spec d (.caller false) d.sourceMut
  | settle {k : κ} (h : settles d.sink k) :
      DriverStep A spec d (.settled (K.durableCursor k)) { d with sink := k }

/-- A run, with what happened in it, the latest first. -/
inductive DriverActs (A : Fold σ E ε) {K : Sink κ σ} {settles : κ → κ → Prop}
    (spec : Publishing K settles) (d₀ : Driver σ κ) : List Act → Driver σ κ → Prop
  | start : DriverActs A spec d₀ [] d₀
  | step {acts : List Act} {d d' : Driver σ κ} {act : Act} (run : DriverActs A spec d₀ acts d)
      (step : DriverStep A spec d act d') : DriverActs A spec d₀ (act :: acts) d'

/-- The resets of the engine that the driver has not seen: those since the start of the last
tick. -/
def unseen : List Act → ℕ
  | [] => 0
  | .tick t _ :: _ => if t = .resynced then 1 else 0
  | .caller true :: acts => unseen acts + 1
  | .caller false :: acts => unseen acts
  | .settled _ :: acts => unseen acts

/-- At no time has the driver missed as many resets as the counter can hold. -/
def Noticed (acts : List Act) : Prop := ∀ later earlier, acts = later ++ earlier →
  unseen earlier < 2 ^ 64

theorem Noticed.tail {act : Act} {acts : List Act} (h : Noticed (act :: acts)) : Noticed acts := by
  rintro later earlier rfl
  exact h (act :: later) earlier rfl

theorem Noticed.lt {acts : List Act} (h : Noticed acts) : unseen acts < 2 ^ 64 := h [] acts rfl

theorem unseen_le_length (acts : List Act) : unseen acts ≤ acts.length := by
  induction acts with
  | nil => exact le_rfl
  | cons act acts ih =>
      cases act with
      | tick t S =>
          rw [unseen, List.length_cons]
          split_ifs <;> omega
      | caller reset =>
          cases reset with
          | true => exact Nat.succ_le_succ ih
          | false => exact ih.trans (Nat.le_succ _)
      | settled cursor => exact ih.trans (Nat.le_succ _)

theorem noticed_of_length {acts : List Act} (h : acts.length < 2 ^ 64) : Noticed acts := by
  rintro later earlier rfl
  rw [List.length_append] at h
  exact lt_of_le_of_lt ((unseen_le_length earlier).trans (Nat.le_add_left _ _)) h

/-- A driver around a new engine, or around one that was just decoded. -/
inductive BuiltWith (P : Persist σ π) (W : Wincode) (crc : Crc) (E : Type) (K : Sink κ σ) (sink : κ) :
    Driver σ κ → Prop
  | withSink {fold : σ} {engineConfig : EngineConfig} {config : DriverConfig} {τ : Trace E}
      {d : Driver σ κ} (run : RunsOn (Driver.build K fold sink engineConfig config) τ (.ok d)) :
      BuiltWith P W crc E K sink d
  | resumeWithSink {bytes : List UInt8} {engineConfig : EngineConfig} {engine : Engine σ}
      {genesis : σ} {config : DriverConfig} {τ : Trace E} {d : Driver σ κ}
      (decoded : Engine.decodeSnapshot P W crc bytes engineConfig = .ok engine)
      (run : RunsOn (Driver.around K engine sink genesis config) τ (.ok d)) :
      BuiltWith P W crc E K sink d

/-- What the sink may publish, and what it has published. -/
def heldBy {K : Sink κ σ} {settles : κ → κ → Prop} (spec : Publishing K settles) (k : κ) :
    Set Position :=
  spec.offered k ∪ {p | K.durableCursor k = some p}

/-- What holds after every step of a run: the counters differ by the unseen resets, and without one
the engine is above all that the sink holds. -/
structure Watched {K : Sink κ σ} {settles : κ → κ → Prop} (spec : Publishing K settles)
    (acts : List Act) (d : Driver σ κ) : Prop where
  resets : d.engine.resets = d.seenResets + UInt64.ofNat (unseen acts)
  engine : Above ∅ d.engine
  floors : unseen acts = 0 → Above (heldBy spec d.sink) d.engine

section Watch

variable {A : Fold σ E ε} {K : Sink κ σ} {settles : κ → κ → Prop} {spec : Publishing K settles}
  {d d' : Driver σ κ} {acts : List Act} {act : Act}

theorem Watched.seen_iff (h : Watched spec acts d) (hacts : Noticed acts) :
    d.seenResets = d.engine.resets ↔ unseen acts = 0 := by
  rw [h.resets]
  constructor
  · intro heq
    have hzero : UInt64.ofNat (unseen acts) = 0 := by
      rw [UInt64.add_comm] at heq
      have := congrArg (fun n => n - d.seenResets) heq
      simpa [UInt64.add_sub_cancel, eq_comm] using this
    have hnat := congrArg UInt64.toNat hzero
    rwa [UInt64.toNat_ofNat_of_lt' hacts.lt] at hnat
  · intro hzero
    rw [hzero]
    simp

theorem heldBy_reset (k : κ) : heldBy spec (K.reset k) = ∅ := by
  rw [heldBy, spec.reset_offered, spec.reset_cursor]
  simp

theorem heldBy_settles {k k' : κ} (h : settles k k') : heldBy spec k' ⊆ heldBy spec k := by
  rintro p (hp | hp)
  · exact Or.inl (spec.settles_offered k k' h hp)
  · cases spec.settles_cursor k k' h with
    | inl hsame => exact Or.inr (hsame.symm.trans hp)
    | inr hnew =>
        obtain ⟨q, hq, hcursor⟩ := hnew
        rw [Set.mem_ofPred_eq, hcursor, Option.some.injEq] at hp
        exact Or.inl (hp ▸ hq)

theorem heldBy_offer (k : κ) (e : Engine σ) :
    heldBy spec (K.offer k e).1 ⊆ heldBy spec k ∪ {p | e.durablePoint = some p} := by
  rintro p (hp | hp)
  · cases spec.offer_offered k e hp with
    | inl hold => exact Or.inl (Or.inl hold)
    | inr hnew => exact Or.inr hnew
  · rw [Set.mem_ofPred_eq, spec.offer_cursor] at hp
    exact Or.inl (Or.inr hp)

/-- Once the caller's resets are caught, the engine is above what the sink holds. -/
theorem Watched.caught (h : Watched spec acts d) (hacts : Noticed acts) :
    Above (heldBy spec (d.catchCaller K).sink) (d.catchCaller K).engine := by
  obtain ⟨hengine, -, hsink⟩ := catchCaller_sink K d
  rw [hengine, hsink]
  by_cases hseen : d.seenResets = d.engine.resets
  · rw [if_pos hseen]
    exact h.floors ((h.seen_iff hacts).mp hseen)
  · rw [if_neg hseen, heldBy_reset]
    exact h.engine

theorem Watched.tick (h : Watched spec acts d) (hacts : Noticed acts) {t : Tick} {τ : Trace E}
    (hrun : RunsOn (d.step A K) τ (d', t)) (S : Set Position) :
    Watched spec (.tick t S :: acts) d' := by
  have hcaught := h.caught hacts
  obtain ⟨hengine, hseen, -⟩ := catchCaller_sink K d
  obtain ⟨d₂, hpolled, rfl⟩ := step_polled hrun
  -- the end of a tick leaves the engine and the sink
  show Watched spec _ _
  cases hpolled with
  | quiet engine sink seen tick =>
      have habove := hcaught.reaches engine
      refine ⟨?_, habove.mono (Set.empty_subset _), fun _ => ?_⟩
      · show d₂.engine.resets = d₂.seenResets + _
        rw [hcaught.resets engine, seen, hseen, hengine, unseen, if_neg tick]
        simp
      · show Above (heldBy spec d₂.sink) d₂.engine
        rw [sink]
        exact habove
  | resynced e before fold engine sink seen tick =>
      have habove := (hcaught.reaches before).reset fold
      refine ⟨?_, ?_, fun hzero => ?_⟩
      · show d₂.engine.resets = d₂.seenResets + _
        rw [engine, seen, hseen, unseen, if_pos tick]
        show e.resets + 1 = _
        rw [hcaught.resets before, hengine]
        rfl
      · show Above ∅ d₂.engine
        rw [engine]
        exact habove
      · rw [unseen, if_pos tick] at hzero
        cases hzero
  | offered engine sink seen tick =>
      have habove := (hcaught.reaches engine).offer
      refine ⟨?_, habove.mono (Set.empty_subset _), fun _ => ?_⟩
      · show d₂.engine.resets = d₂.seenResets + _
        rw [hcaught.resets engine, seen, hseen, hengine, unseen, if_neg tick]
        simp
      · show Above (heldBy spec d₂.sink) d₂.engine
        rw [sink]
        exact habove.mono (heldBy_offer _ _)

theorem Watched.engineMut (h : Watched spec acts d) (op : Op σ E) :
    Watched spec (.caller op.isReset :: acts)
      { d with engine := ((Tracked.start d.engine).step A op).engine } := by
  by_cases hop : op.NotReset
  · have hreach : d.engine.Reaches A ((Tracked.start d.engine).step A op).engine := .op A _ _ hop
    have hacts : unseen (.caller op.isReset :: acts) = unseen acts := by
      cases op with
      | reset fold => exact absurd hop id
      | applyBatch batch => rfl
      | checkpoint => rfl
      | rollbackAtOrBelow block => rfl
      | markUnrecoverable cause => rfl
    refine ⟨?_, h.engine.reaches hreach, fun hzero => ?_⟩
    · rw [hacts]
      exact (h.engine.resets hreach).trans h.resets
    · rw [hacts] at hzero
      exact (h.floors hzero).reaches hreach
  · cases op with
    | reset fold =>
        refine ⟨?_, h.engine.reset fold, fun hzero => by cases hzero⟩
        show d.engine.resets + 1 = _
        rw [h.resets]
        show _ = d.seenResets + UInt64.ofNat (unseen acts + 1)
        rw [UInt64.add_assoc, UInt64.ofNat_add (unseen acts) 1]
        rfl
    | applyBatch batch => exact absurd trivial hop
    | checkpoint => exact absurd trivial hop
    | rollbackAtOrBelow block => exact absurd trivial hop
    | markUnrecoverable cause => exact absurd trivial hop

theorem Watched.step (h : Watched spec acts d) (hacts : Noticed acts)
    (hstep : DriverStep A spec d act d') : Watched spec (act :: acts) d' := by
  cases hstep with
  | tick run => exact h.tick hacts run _
  | engineMut op => exact h.engineMut op
  | checkpoint => exact ⟨(h.engineMut (A := A) .checkpoint).resets,
      (h.engineMut (A := A) .checkpoint).engine, (h.engineMut (A := A) .checkpoint).floors⟩
  | sourceMut => exact ⟨h.resets, h.engine, h.floors⟩
  | settle hsettle =>
      exact ⟨h.resets, h.engine, fun hzero => (h.floors hzero).mono (heldBy_settles hsettle)⟩

/-! ### The start -/

theorem Started.above {P : Persist σ π} {W : Wincode} {crc : Crc} {config : EngineConfig}
    {e : Engine σ} (h : Started P W crc config e) {S : Set Position}
    (hS : ∀ p ∈ S, some p ≤ e.cursor) : Above S e := by
  have hempty : e.checkpoints.stored = [] := by
    cases h with
    | new h =>
        obtain ⟨hp, rfl⟩ := new_eq_ok h
        exact CheckpointRing.stored_new _
    | decoded h =>
        obtain ⟨env, -, -, hd⟩ := decodeSnapshot_cases h
        rw [hd.checkpoints]
        exact CheckpointRing.stored_new _
  refine ⟨⟨config, _, h.inv, rfl⟩, fun p hp => ⟨hS p hp, ?_⟩⟩
  rw [hempty]
  simp

/-- A driver starts above what its sink holds, if no offer above its cursor is pending. -/
theorem BuiltWith.watched (A : Fold σ E ε) {P : Persist σ π} {W : Wincode} {crc : Crc} {sink : κ}
    (h : BuiltWith P W crc E K sink d) (hidle : ∀ p ∈ spec.offered d.sink, some p ≤ d.engine.cursor) :
    Watched spec [] d := by
  have hstart : ∃ config engine initial driverConfig, ∃ τ : Trace E,
      Started P W crc config engine ∧
        RunsOn (Driver.around K engine sink initial driverConfig) τ (.ok d) := by
    cases h with
    | @withSink fold engineConfig config τ _ run =>
        unfold Driver.build at run
        cases hnew : Engine.new fold engineConfig with
        | error error =>
            simp only [hnew] at run
            cases (runsOn_pure_iff.mp run).2
        | ok engine =>
            simp only [hnew] at run
            exact ⟨engineConfig, engine, fold, config, τ, .new hnew, run⟩
    | @resumeWithSink bytes engineConfig engine genesis config τ _ decoded run =>
        exact ⟨engineConfig, engine, genesis, config, τ, .decoded decoded, run⟩
  obtain ⟨config, engine, initial, driverConfig, τ, hstarted, hrun⟩ := hstart
  have haround := Driver.around_spec hrun
  obtain ⟨hengine, hseen, hsink⟩ : _ ∧ _ ∧ _ :=
    ⟨haround.engine, haround.seenResets, haround.sink⟩
  have hcursor : d.engine.cursor = engine.cursor := haround.cursor
  have hheld : ∀ p ∈ heldBy spec d.sink, some p ≤ engine.cursor := by
    rintro p (hp | hp)
    · exact hcursor ▸ hidle p hp
    · rw [Set.mem_ofPred_eq, hsink] at hp
      by_cases hahead : engine.cursor < K.durableCursor sink
      · rw [if_pos hahead, spec.reset_cursor] at hp
        cases hp
      · rw [if_neg hahead] at hp
        exact hp ▸ not_lt.mp hahead
  have habove : Above (heldBy spec d.sink) engine := hstarted.above hheld
  have hreach : engine.Reaches A d.engine := by
    cases hengine with
    | inl he => exact he ▸ .refl A _
    | inr he => exact he ▸ .op A _ .checkpoint trivial
  have habove' := habove.reaches hreach
  refine ⟨?_, habove'.mono (Set.empty_subset _), fun _ => habove'⟩
  rw [habove.resets hreach, hseen]
  simp [unseen]

/-- **The engine stays above what the sink holds.** -/
theorem DriverActs.watched {d₀ : Driver σ κ} (hrun : DriverActs A spec d₀ acts d)
    (h : Watched spec [] d₀) (hacts : Noticed acts) : Watched spec acts d := by
  induction hrun with
  | start => exact h
  | step _ hstep ih => exact (ih hacts.tail).step hacts.tail hstep

/-! ### After a reset -/

/-- A tick offered the cursor. -/
def OfferedIn (acts : List Act) (p : Position) : Prop := ∃ t S, Act.tick t S ∈ acts ∧ p ∈ S

/-- The sink published the cursor after a tick had offered it. -/
def CommittedIn (acts : List Act) (p : Position) : Prop :=
  ∃ later earlier, acts = later ++ .settled (some p) :: earlier ∧ OfferedIn earlier p

theorem OfferedIn.cons {p : Position} (h : OfferedIn acts p) (act : Act) :
    OfferedIn (act :: acts) p := by
  obtain ⟨t, S, hmem, hp⟩ := h
  exact ⟨t, S, List.mem_cons_of_mem act hmem, hp⟩

theorem CommittedIn.cons {p : Position} (h : CommittedIn acts p) (act : Act) :
    CommittedIn (act :: acts) p := by
  obtain ⟨later, earlier, rfl, hp⟩ := h
  exact ⟨act :: later, earlier, rfl, hp⟩

/-- What the sink holds was offered in `acts`, and what it has published also published there. -/
structure Renewed {K : Sink κ σ} {settles : κ → κ → Prop} (spec : Publishing K settles)
    (acts : List Act) (k : κ) : Prop where
  offered : ∀ p ∈ spec.offered k, OfferedIn acts p
  committed : ∀ p, K.durableCursor k = some p → CommittedIn acts p

theorem Renewed.cons {k : κ} (h : Renewed spec acts k) (act : Act) : Renewed spec (act :: acts) k where
  offered := fun p hp => (h.offered p hp).cons act
  committed := fun p hp => (h.committed p hp).cons act

theorem Renewed.reset (k : κ) : Renewed spec acts (K.reset k) where
  offered := by
    intro p hp
    rw [spec.reset_offered] at hp
    cases hp
  committed := by
    intro p hp
    rw [spec.reset_cursor] at hp
    cases hp

/-- What the sink holds after a tick was offered by it or before. -/
theorem Renewed.tick (h : Renewed spec acts (d.catchCaller K).sink) {t : Tick} {τ : Trace E}
    (hrun : RunsOn (d.step A K) τ (d', t)) :
    Renewed spec (.tick t (spec.offered d'.sink \ spec.offered (d.catchCaller K).sink) :: acts)
      d'.sink where
  offered := by
    intro p hp
    by_cases hold : p ∈ spec.offered (d.catchCaller K).sink
    · exact (h.offered p hold).cons _
    · exact ⟨t, _, List.mem_cons_self, hp, hold⟩
  committed := by
    intro p hp
    have hcursor : K.durableCursor d'.sink = K.durableCursor (d.catchCaller K).sink := by
      obtain ⟨d₂, hpolled, rfl⟩ := step_polled hrun
      show K.durableCursor d₂.sink = _
      cases hpolled with
      | quiet engine sink seen tick => rw [sink]
      | resynced e before fold engine sink seen tick => rw [sink]
      | offered engine sink seen tick => rw [sink, spec.offer_cursor]
    exact (h.committed p (hcursor.symm.trans hp)).cons _

/-- Once the sink is reset after a reset of the engine, it holds what was offered since. -/
theorem renewed_step {later : List Act} (hw : Watched spec acts d) (hacts : Noticed acts)
    (h : unseen acts ≠ 0 ∨ Renewed spec later d.sink) (hstep : DriverStep A spec d act d') :
    unseen (act :: acts) ≠ 0 ∨ Renewed spec (act :: later) d'.sink := by
  cases hstep with
  | tick run =>
      refine Or.inr (Renewed.tick ?_ run)
      rw [(catchCaller_sink K d).2.2]
      by_cases hseen : d.seenResets = d.engine.resets
      · rw [if_pos hseen]
        exact h.resolve_left (not_not.mpr ((hw.seen_iff hacts).mp hseen))
      · rw [if_neg hseen]
        exact Renewed.reset _
  | engineMut op =>
      cases op with
      | reset fold => exact Or.inl (Nat.succ_ne_zero _)
      | applyBatch batch => exact h.imp id fun h => h.cons _
      | checkpoint => exact h.imp id fun h => h.cons _
      | rollbackAtOrBelow block => exact h.imp id fun h => h.cons _
      | markUnrecoverable cause => exact h.imp id fun h => h.cons _
  | checkpoint => exact h.imp id fun h => h.cons _
  | sourceMut => exact h.imp id fun h => h.cons _
  | @settle k hsettle =>
      refine h.imp id fun h => ⟨?_, ?_⟩
      · intro p hp
        exact (h.offered p (spec.settles_offered _ _ hsettle hp)).cons _
      · intro p hp
        have hp' : K.durableCursor k = some p := hp
        cases spec.settles_cursor _ _ hsettle with
        | inl hsame => exact (h.committed p (hsame.symm.trans hp')).cons _
        | inr hnew =>
            obtain ⟨q, hq, hcursor⟩ := hnew
            have hpq : q = p := Option.some.inj (hcursor.symm.trans hp')
            subst hpq
            exact ⟨[], later, by rw [hcursor]; rfl, h.offered q hq⟩

theorem Act.Resets.unseen {act : Act} (h : act.Resets) (acts : List Act) :
    unseen (act :: acts) ≠ 0 := by
  cases act with
  | tick t S =>
      rw [Works.Chainfold.unseen, if_pos (show t = .resynced from h)]
      exact Nat.one_ne_zero
  | caller reset =>
      rw [show reset = true from h]
      exact Nat.succ_ne_zero _
  | settled cursor => exact h.elim

theorem DriverActs.renewed {d₀ : Driver σ κ} (hrun : DriverActs A spec d₀ acts d)
    (h : Watched spec [] d₀) (hacts : Noticed acts) : ∀ later act earlier,
      acts = later ++ act :: earlier → act.Resets → unseen acts ≠ 0 ∨ Renewed spec later d.sink := by
  induction hrun with
  | start => intro later act earlier heq; simp at heq
  | @step acts d d' act' run hstep ih =>
      intro later act earlier heq hresets
      cases later with
      | nil =>
          cases heq
          exact Or.inl (hresets.unseen _)
      | cons act'' later =>
          rw [List.cons_append, List.cons.injEq] at heq
          obtain ⟨rfl, heq⟩ := heq
          exact renewed_step (run.watched h hacts.tail) hacts.tail
            (ih hacts.tail later act earlier heq hresets) hstep

/-- **The reported durable cursor.**  For every driver around a new engine or one just decoded,
every sink that publishes what it was offered and has nothing above the cursor pending at the start,
and every run in which the counter of resets does not wrap between two ticks: the durable cursor that
the driver reports is at most its cursor, and after a reset of the engine it is none until a snapshot
offered since is published. -/
theorem DriverActs.reported {P : Persist σ π} {W : Wincode} {crc : Crc} {sink : κ}
    {d₀ : Driver σ κ} (hbuilt : BuiltWith P W crc E K sink d₀)
    (hidle : ∀ p ∈ spec.offered d₀.sink, some p ≤ d₀.engine.cursor)
    (hrun : DriverActs A spec d₀ acts d) (hacts : Noticed acts) :
    (d.status K).durableCursor ≤ (d.status K).cursor ∧
      ∀ later act earlier, acts = later ++ act :: earlier → act.Resets →
        (d.status K).durableCursor = none ∨
          ∃ p, (d.status K).durableCursor = some p ∧ CommittedIn later p := by
  have hstart := hbuilt.watched A hidle
  have hw := hrun.watched hstart hacts
  have hreport : (d.status K).durableCursor =
      if d.seenResets = d.engine.resets then K.durableCursor d.sink else none := rfl
  by_cases hseen : d.seenResets = d.engine.resets
  · rw [if_pos hseen] at hreport
    have hzero := (hw.seen_iff hacts).mp hseen
    rw [hreport]
    constructor
    · cases hcursor : K.durableCursor d.sink with
      | none => exact Option.none_le
      | some p => exact (hw.floors hzero).le_cursor (Or.inr hcursor)
    · intro later act earlier heq hresets
      have hrenewed := (hrun.renewed hstart hacts later act earlier heq hresets).resolve_left
        (not_not.mpr hzero)
      cases hcursor : K.durableCursor d.sink with
      | none => exact Or.inl rfl
      | some p => exact Or.inr ⟨p, rfl, hrenewed.committed p hcursor⟩
  · rw [if_neg hseen] at hreport
    rw [hreport]
    exact ⟨Option.none_le, fun _ _ _ _ _ => Or.inl rfl⟩

end Watch

/-! ### A sink with a queue -/

/-- A published cursor and a queue of offers. -/
structure QueueState where
  published : Cursor
  queue : List Position

/-- A sink that accepts every offer. -/
def queueSink : Sink QueueState σ where
  offer k e := ({ k with queue := k.queue ++ e.durablePoint.toList }, true)
  durableCursor k := k.published
  reset _ := ⟨none, []⟩

/-- The first offer in the queue is published. -/
def QueueSettles (k k' : QueueState) : Prop := ∃ p, k = ⟨k.published, p :: k'.queue⟩ ∧
  k'.published = some p

/-- The queue publishes what it was offered. -/
def queuePublishing : Publishing (queueSink : Sink QueueState σ) QueueSettles where
  offered k := {p | p ∈ k.queue}
  offer_offered := by
    intro k e p hp
    cases List.mem_append.mp hp with
    | inl hold => exact Or.inl hold
    | inr hnew => exact Or.inr (Option.mem_toList.mp hnew)
  offer_cursor := fun _ _ => rfl
  reset_offered := by
    intro k
    ext p
    simp [queueSink]
  reset_cursor := fun _ => rfl
  settles_offered := by
    rintro k k' ⟨p, hk, -⟩ q hq
    rw [hk]
    exact List.mem_cons_of_mem p hq
  settles_cursor := by
    rintro k k' ⟨p, hk, hpub⟩
    refine Or.inr ⟨p, ?_, hpub⟩
    rw [hk]
    exact List.mem_cons_self

/-- A new driver with a queue, from block 0 on. -/
def sampleSaver : Driver UInt64 QueueState :=
  match (scripted (α := Except ConfigError (Driver UInt64 QueueState)) (E := ℕ) .genesis 1
    [(true, longChain)] (Driver.build queueSink 0 ⟨none, []⟩ sampleConfig
      ⟨0, some 1, some 1⟩)).2 with
  | some (.ok d) => d
  | _ => ⟨Engine.fresh 0 sampleConfig sampleConfig_ringCapacity, ⟨none, []⟩, ⟨0, none, none⟩, 0, 0,
      false, 0, none, none, 0, false, false, 0, none, none, none⟩

/-- The driver after a tick that offers. -/
def sampleOffered : Driver UInt64 QueueState :=
  sampleSaver.ticked sumFold queueSink 1 (List.replicate 8 (true, longChain))

/-- The driver once the offer is published. -/
def sampleSaved : Driver UInt64 QueueState :=
  { sampleOffered with sink := ⟨some ⟨0, 0⟩, []⟩ }

theorem sampleSaver_built (P : Persist UInt64 π) (W : Wincode) (crc : Crc) :
    BuiltWith P W crc ℕ queueSink ⟨none, []⟩ sampleSaver := by
  have hbuild : (scripted (E := ℕ) .genesis 1 [(true, longChain)]
      (Driver.build queueSink 0 ⟨none, []⟩ sampleConfig ⟨0, some 1, some 1⟩)).2 =
        some (.ok sampleSaver) := rfl
  exact .withSink (runsOn_scripted .genesis 1 hbuild).1

/-- The driver once its engine was reset. -/
def sampleReset : Driver UInt64 QueueState :=
  { sampleSaved with engine := sampleSaved.engine.reset 0 }

/-- The driver once a tick after the reset has offered, and the offer is published. -/
def sampleResaved : Driver UInt64 QueueState :=
  { sampleReset.ticked sumFold queueSink 1 (List.replicate 8 (true, longChain)) with
    sink := ⟨some ⟨0, 0⟩, []⟩ }

/-- The run to the published offer. -/
theorem sampleSaved_acts : ∃ S, DriverActs sumFold queuePublishing sampleSaver
    [.settled (some ⟨0, 0⟩), .tick (.progressed ⟨1, 0, 0⟩) S] sampleSaved := by
  have htick : sampleSaver.tickOn sumFold queueSink 1 (List.replicate 8 (true, longChain)) =
      some (.progressed ⟨1, 0, 0⟩) := by decide +kernel
  have hsettles : QueueSettles sampleOffered.sink ⟨some ⟨0, 0⟩, []⟩ := ⟨⟨0, 0⟩, rfl, rfl⟩
  exact ⟨_, (DriverActs.start.step (.tick (runsOn_scripted .genesis 1
    (scripted_step htick)).1)).step (.settle hsettles)⟩

/-- After the reset the offer is made and published again. -/
theorem sampleSaved_reported : ∃ later earlier,
    DriverActs sumFold queuePublishing sampleSaver (later ++ .caller true :: earlier)
      sampleResaved ∧
    (sampleResaved.status queueSink).durableCursor ≤ (sampleResaved.status queueSink).cursor ∧
    (sampleResaved.status queueSink).durableCursor = some ⟨0, 0⟩ ∧ CommittedIn later ⟨0, 0⟩ := by
  obtain ⟨S, hsaved⟩ := sampleSaved_acts
  have htick : sampleReset.tickOn sumFold queueSink 1 (List.replicate 8 (true, longChain)) =
      some (.progressed ⟨1, 0, 0⟩) := by decide +kernel
  have hsettles : QueueSettles (sampleReset.ticked sumFold queueSink 1
      (List.replicate 8 (true, longChain))).sink ⟨some ⟨0, 0⟩, []⟩ := ⟨⟨0, 0⟩, rfl, rfl⟩
  have hrun := ((hsaved.step (.engineMut (.reset 0))).step (.tick (runsOn_scripted .genesis 1
    (scripted_step htick)).1)).step (.settle hsettles)
  have hidle : ∀ p ∈ (queuePublishing (σ := UInt64)).offered sampleSaver.sink,
      some p ≤ sampleSaver.engine.cursor := fun p hp => by cases hp
  obtain ⟨hle, hreset⟩ := hrun.reported (sampleSaver_built sumPersist fixint crc32c) hidle
    (noticed_of_length (by simp))
  have hdurable : (sampleResaved.status queueSink).durableCursor = some ⟨0, 0⟩ := rfl
  refine ⟨[_, _], _, hrun, hle, hdurable, ?_⟩
  rcases hreset [_, _] (.caller true) _ rfl rfl with hnone | ⟨p, hsome, hcommitted⟩
  · cases hdurable.symm.trans hnone
  · cases hdurable.symm.trans hsome
    exact hcommitted

/-! ### Where the report leads the cursor -/

/-- A new driver whose sink still has an offer of an earlier driver in its queue. -/
def sampleHandedOver : Driver UInt64 QueueState :=
  { sampleSaver with sink := ⟨none, [⟨3, 1⟩]⟩ }

/-- Resets of the engine in a row. -/
theorem DriverActs.resets {A : Fold σ E ε} {K : Sink κ σ} {settles : κ → κ → Prop}
    {spec : Publishing K settles} {d₀ d : Driver σ κ} {acts : List Act}
    (h : DriverActs A spec d₀ acts d) (fold : σ) (n : ℕ) :
    ∃ e, DriverActs A spec d₀ (List.replicate (n + 1) (.caller true) ++ acts) { d with engine := e } ∧
      e.cursor = none ∧ e.resets = d.engine.resets + UInt64.ofNat (n + 1) := by
  induction n with
  | zero => exact ⟨_, h.step (.engineMut (.reset fold)), rfl, rfl⟩
  | succ n ih =>
      obtain ⟨e, hrun, -, hresets⟩ := ih
      refine ⟨_, hrun.step (.engineMut (.reset fold)), rfl, ?_⟩
      show e.resets + 1 = _
      rw [hresets, UInt64.add_assoc, UInt64.ofNat_add (n + 1) 1]
      rfl

/-- The driver of an engine that is reset 2^64 times between two ticks reports a cursor that the
engine no longer has.  So does a new driver whose sink publishes an offer of an earlier driver. -/
theorem report_leads_cursor :
    (∃ (d₀ d : Driver UInt64 QueueState) (acts : List Act),
      BuiltWith sumPersist fixint crc32c ℕ queueSink ⟨none, []⟩ d₀ ∧
      DriverActs sumFold queuePublishing d₀ acts d ∧
      ¬ (d.status queueSink).durableCursor ≤ (d.status queueSink).cursor) ∧
    ∃ (d₀ d : Driver UInt64 QueueState) (acts : List Act),
      BuiltWith sumPersist fixint crc32c ℕ queueSink ⟨none, [⟨3, 1⟩]⟩ d₀ ∧
      DriverActs sumFold queuePublishing d₀ acts d ∧
      ¬ (d.status queueSink).durableCursor ≤ (d.status queueSink).cursor := by
  constructor
  · obtain ⟨S, hrun⟩ := sampleSaved_acts
    obtain ⟨e, hresets, hcursor, hcount⟩ := hrun.resets 0 (2 ^ 64 - 1)
    refine ⟨_, _, _, sampleSaver_built sumPersist fixint crc32c, hresets, ?_⟩
    have hwrap : sampleOffered.engine.resets + UInt64.ofNat (2 ^ 64 - 1 + 1) =
        sampleOffered.seenResets := by decide +kernel
    have hsame : sampleOffered.seenResets = e.resets := (hcount.trans hwrap).symm
    show ¬ (if sampleOffered.seenResets = e.resets then some ⟨0, 0⟩ else none) ≤ e.cursor
    rw [if_pos hsame, hcursor]
    exact Option.not_some_le_none
  · have hbuild : (scripted (E := ℕ) .genesis 1 [(true, longChain)]
        (Driver.build queueSink 0 ⟨none, [⟨3, 1⟩]⟩ sampleConfig ⟨0, some 1, some 1⟩)).2 =
          some (.ok sampleHandedOver) := rfl
    have hsettles : QueueSettles sampleHandedOver.sink ⟨some ⟨3, 1⟩, []⟩ := ⟨⟨3, 1⟩, rfl, rfl⟩
    refine ⟨sampleHandedOver, _, _, .withSink (runsOn_scripted .genesis 1 hbuild).1,
      DriverActs.start.step (.settle hsettles), ?_⟩
    exact Option.not_some_le_none

end Works.Chainfold