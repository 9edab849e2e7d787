import Works.Chainfold.EngineChain

/-! # A tick of the driver

What a tick keeps.  While it runs the engine is sound over the chains of the run and the marks
of the scan hold (`Good`); between ticks the marks hold as long as the engine stands where the
last tick left it (`Kept`).  Of the transcript only the bracket is asked: two answers that show
the same block have only chains with that block between them. -/

namespace Works.Chainfold

open Works.Lib Prog Engine BlockRing

variable {σ E ε κ : Type}

/-- The heads that a trace reports are at or below a height. -/
def HeadsUpTo (top : ℕ) (τ : Trace E) : Prop :=
  ∀ x ∈ τ, ∀ head, x.1 = ⟨.head, some head⟩ → head.number ≤ top

/-! ### The invariant -/

/-- What holds of a driver while a tick runs. -/
structure Good (A : Fold σ E ε) (chains : Set (Chain E)) (top : ℕ) (d : Driver σ κ) : Prop where
  sound : Sound A chains d.config.startBlock d.initial d.engine
  cursor_top : ∀ p, d.engine.cursor = some p → p.block ≤ top
  walked_top : ∀ w, d.walked = some w → w.number ≤ top
  marked : d.engine.status = .active → d.Marked chains

/-- What holds of a driver between ticks: the marks hold unless the engine was moved. -/
structure Kept (A : Fold σ E ε) (chains : Set (Chain E)) (top : ℕ) (d : Driver σ κ) : Prop where
  sound : Sound A chains d.config.startBlock d.initial d.engine
  cursor_top : ∀ p, d.engine.cursor = some p → p.block ≤ top
  walked_top : ∀ w, d.walked = some w → w.number ≤ top
  span : 1 ≤ d.span ∧ d.span ≤ MAX_SPAN
  marks : ∀ point, d.leftAt = some point → d.engine.cursor ≤ point.1 ∧
    (d.engine.cursor = point.1 → d.Marked chains)

section Empty

variable {A : Fold σ E ε} {chains : Set (Chain E)} {start : ℕ} {init : σ}

/-- The engine has the state, the cursor, the blocks and the checkpoints it had. -/
structure Untouched (e e' : Engine σ) : Prop where
  fold : e'.fold = e.fold
  cursor : e'.cursor = e.cursor
  ring : e'.ring = e.ring
  checkpoints : e'.checkpoints = e.checkpoints
  status : e'.status = e.status

theorem Untouched.refl (e : Engine σ) : Untouched e e := ⟨rfl, rfl, rfl, rfl, rfl⟩

theorem Sound.untouched {e e' : Engine σ} (h : Sound A chains start init e)
    (hu : Untouched e e') : Sound A chains start init e' where
  ringOk := by
    refine ⟨?_, ?_⟩
    · rw [hu.ring]
      exact h.ringOk.ascending
    · rw [hu.ring, hu.cursor]
      exact h.ringOk.newest
  engine := by
    rw [hu.status, hu.fold, hu.cursor, observed, hu.ring]
    exact h.engine
  slots := by
    rw [hu.checkpoints, hu.cursor, observed, hu.ring]
    exact h.slots

/-- A batch without events only checks the boundary. -/
theorem applyBatch_empty (A : Fold σ E ε) (e : Engine σ) {b : Batch E} (hb : b.isEmpty = true) :
    Untouched e (e.applyBatch A b).1 := by
  rw [Batch.isEmpty_iff] at hb
  unfold applyBatch
  split_ifs with hactive
  · cases b.validate with
    | error err => exact .refl e
    | ok u =>
        cases u
        dsimp only
        cases e.checkBoundary b.boundary with
        | error err => exact .refl e
        | ok verified =>
            rw [hb]
            exact ⟨rfl, rfl, rfl, rfl, (EngineStatus.isActive_iff.mp hactive).symm⟩
  · exact .refl e

end Empty

/-! ### What is done to an engine besides folding -/

/-- What a driver or its caller does to an engine besides folding. -/
inductive Handled (init : σ) (e : Engine σ) : Engine σ → Prop
  | same : Handled init e e
  | checkpoint : Handled init e e.checkpoint
  | rollback (block : ℕ) : Handled init e (e.rollbackAtOrBelow block).1
  | reset : Handled init e (e.reset init)
  | unrecoverable (cause : DivergenceCause) : Handled init e (e.markUnrecoverable cause)

section Handled

variable {A : Fold σ E ε} {chains : Set (Chain E)} {start : ℕ} {init : σ} {e e' : Engine σ}

theorem Handled.sound (h : Handled init e e') (hs : Sound A chains start init e) :
    Sound A chains start init e' := by
  cases h with
  | same => exact hs
  | checkpoint => exact hs.checkpoint
  | rollback block => exact hs.rollback block
  | reset => exact Sound.reset
  | unrecoverable cause => exact hs.markUnrecoverable cause

theorem checkpoint_cursor (e : Engine σ) : e.checkpoint.cursor = e.cursor := by
  unfold Engine.checkpoint
  split_ifs <;> rfl

theorem checkpoint_observed (e : Engine σ) : e.checkpoint.observed = e.observed := by
  unfold Engine.checkpoint
  split_ifs <;> rfl

/-- The engine does not get ahead. -/
theorem Handled.cursor_le (h : Handled init e e') (hs : Sound A chains start init e) :
    e'.cursor ≤ e.cursor := by
  cases h with
  | same => exact le_rfl
  | checkpoint => exact (checkpoint_cursor e).le
  | rollback block =>
      rcases hrb : e.rollbackAtOrBelow block with ⟨e₁, err | c⟩
      · rw [rollback_error hrb]
      · obtain ⟨slot, hbest, -, rfl⟩ := rollback_cases hrb
        exact (hs.slots slot (mem_of_bestAtOrBelow hbest).1).1
  | reset => exact Option.none_le
  | unrecoverable cause => exact le_rfl

/-- The engine observes nothing new. -/
theorem Handled.observed_subset (h : Handled init e e') (hr : e.RingOk) :
    ∀ b ∈ e'.observed, b ∈ e.observed := by
  intro b hb
  cases h with
  | same => exact hb
  | checkpoint => rwa [checkpoint_observed] at hb
  | rollback block =>
      rcases hrb : e.rollbackAtOrBelow block with ⟨e₁, err | c⟩
      · rw [hrb, rollback_error hrb] at hb
        exact hb
      · obtain ⟨slot, -, -, rfl⟩ := rollback_cases hrb
        rw [hrb] at hb
        exact observed_restore hr slot b hb
  | reset => simp [Engine.reset, observed] at hb
  | unrecoverable cause => exact hb

/-- An engine that observes a part of what another one observes and stands at the same cursor
has the same newest block. -/
theorem newest_eq (hr : e.RingOk) (hr' : e'.RingOk) (hc : e'.cursor = e.cursor)
    (hsub : ∀ b ∈ e'.observed, b ∈ e.observed) :
    e'.observed.getLast? = e.observed.getLast? := by
  cases hcur : e.cursor with
  | none =>
      have h : e.observed = [] := hr.iter_eq_nil_iff.mp hcur
      have h' : e'.observed = [] := hr'.iter_eq_nil_iff.mp (hc.trans hcur)
      rw [h, h']
  | some p =>
      obtain ⟨b, hb, hn⟩ := hr.getLast? hcur
      obtain ⟨b', hb', hn'⟩ := hr'.getLast? (hc.trans hcur)
      have h₁ := lookup_of_mem hr.ascending (List.mem_of_getLast? hb)
      have h₂ := lookup_of_mem hr.ascending (hsub b' (List.mem_of_getLast? hb'))
      rw [hn', ← hn, h₁, Option.some.injEq] at h₂
      rw [observed, observed, hb, hb', show b' = b from ?_]
      cases b
      cases b'
      simp_all

theorem Handled.newest (h : Handled init e e') (hs : Sound A chains start init e)
    (hc : e'.cursor = e.cursor) : e'.observed.getLast? = e.observed.getLast? :=
  newest_eq hs.ringOk (h.sound hs).ringOk hc (h.observed_subset hs.ringOk)

end Handled

/-- What is covered is the same on chains that share a block above. -/
theorem Committed.covered {chains : Set (Chain E)} (hcom : Committed chains) {C D : Chain E}
    (hC : C ∈ chains) (hD : D ∈ chains) {b : BlockRef} (hCb : C.Has b) (hDb : D.Has b)
    {start : ℕ} {c : Cursor} (h : Covered C start c (b.number + 1)) :
    Covered D start c (b.number + 1) := by
  rw [covered_iff] at h ⊢
  rw [above, ← hcom.eventsIn hC hD hCb hDb le_rfl]
  exact h

/-! ### The marks a batch leaves -/

section Marks

variable {A : Fold σ E ε} {chains : Set (Chain E)} {start : ℕ} {init : σ} {e : Engine σ}
  {c : Cursor} {newest walked vouched : Option BlockRef} {head : BlockRef} {b : Batch E}

/-- A mark may be dropped. -/
theorem MarksOk.dropWalked (h : MarksOk chains start c newest walked vouched)
    {walked' : Option BlockRef} (hw : walked' = walked ∨ walked' = none) :
    MarksOk chains start c newest walked' vouched := by
  rcases hw with rfl | rfl
  · exact h
  · exact ⟨h.of_vouched, by simp, by simp, by simp⟩

theorem MarksOk.untouched {e' : Engine σ} (hu : Untouched e e')
    (h : MarksOk chains start e.cursor e.observed.getLast? walked vouched) :
    MarksOk chains start e'.cursor e'.observed.getLast? walked vouched := by
  rw [hu.cursor, observed, hu.ring]
  exact h

theorem BatchOk.covered {C : Chain E} {n : ℕ} (h : BatchOk C start c n b)
    (hempty : b.isEmpty = true) : Covered C start c (n + 1) := by
  rw [isEmpty_iff_chainEvents h.valid, h.events] at hempty
  exact covered_iff.mpr hempty

theorem Forked.not_ok {s : ApplySummary}
    (h : ∃ err, Forked err ∧ e.applyBatch A b = (e, .error err)) :
    (e.applyBatch A b).2 ≠ .ok s := by
  obtain ⟨err, -, heq⟩ := h
  rw [heq]
  simp

variable (hcom : Committed chains)
  (hs : Sound A chains start init e) (hactive : e.status = .active)

include hcom hs hactive

/-- The marks after a walk that reached its cap. -/
theorem marks_capped {D : Chain E} (hD : D ∈ chains) (hDhead : D.Has head) {a : BlockRef}
    (hall : ∀ C ∈ chains, C.Has head → BatchOk C start e.cursor a.number b ∧ C.Has a)
    (hempty : b.isEmpty = true) (hstart : start ≤ a.number)
    (hle : ∀ p, e.cursor = some p → p.block ≤ a.number) {summary : ApplySummary}
    (hok : (e.applyBatch A b).2 = .ok summary) :
    MarksOk chains start e.cursor e.observed.getLast? (some a) (some head) := by
  have hbefore : ∀ C ∈ chains, C.Has head → ∀ r ∈ e.observed, C.Has r := by
    intro C hC hChead
    rcases (hs.applyBatch hcom hC hactive (hall C hC hChead).1).2 with hforked | hadv
    · exact absurd hok (Forked.not_ok hforked.1)
    · exact hadv.before
  constructor
  · intro v hv p hp C hC hCv
    rw [Option.some.injEq] at hv
    subst hv
    refine ⟨fun r hr => hbefore C hC hCv r (List.mem_of_getLast? hr), ?_⟩
    exact ((hall C hC hCv).1.covered hempty).mono (Nat.succ_le_succ (hle p hp))
  · intro w hw C hC hCw
    rw [Option.some.injEq] at hw
    subst hw
    obtain ⟨hbatch, hDa⟩ := hall D hD hDhead
    refine ⟨?_, hcom.covered hD hC hDa hCw (hbatch.covered hempty)⟩
    intro r hr
    have hmem := List.mem_of_getLast? hr
    refine hcom.has hD hC hDa hCw (hbefore D hD hDhead r hmem) ?_
    cases hc : e.cursor with
    | none =>
        have hnil : e.observed = [] := hs.ringOk.iter_eq_nil_iff.mp hc
        rw [hnil] at hmem
        simp at hmem
    | some p => exact (hs.ringOk.number_le hc r hmem).trans (hle p hc)
  · intro w hw
    rw [Option.some.injEq] at hw
    subst hw
    exact ⟨hstart, hle⟩
  · intro w v hw hv C hC hCv
    rw [Option.some.injEq] at hw hv
    subst hw hv
    exact (hall C hC hCv).2

/-- The marks after a batch with events. -/
theorem marks_filled (hall : ∀ C ∈ chains, C.Has head → ∃ n, BatchOk C start e.cursor n b)
    (hempty : b.isEmpty = false) {summary : ApplySummary}
    (hok : (e.applyBatch A b).2 = .ok summary) :
    MarksOk chains start (e.applyBatch A b).1.cursor (e.applyBatch A b).1.observed.getLast? none
      (some head) := by
  refine ⟨?_, by simp, by simp, by simp⟩
  intro v hv p hp C hC hCv
  rw [Option.some.injEq] at hv
  subst hv
  obtain ⟨n, hbatch⟩ := hall C hC hCv
  rcases (hs.applyBatch hcom hC hactive hbatch).2 with hforked | hadv
  · exact absurd hok (Forked.not_ok hforked.1)
  · obtain ⟨-, hcov⟩ := hadv.ok summary hok
    refine ⟨fun r hr => hadv.has r (List.mem_of_getLast? hr), hcov.mono ?_⟩
    -- the batch has an event above the old cursor, so the cursor is in one of its blocks
    have hne : above C start e.cursor n ≠ [] := by
      intro hnil
      rw [← hbatch.events, ← isEmpty_iff_chainEvents hbatch.valid, hempty] at hnil
      simp at hnil
    obtain ⟨x, hx⟩ := List.exists_mem_of_ne_nil _ hne
    obtain ⟨hmem, habove⟩ := List.mem_filter.mp hx
    obtain ⟨hblock, hsx, hxn⟩ := Chain.mem_eventsIn_iff.mp hmem
    have hxle := hcov x hblock hsx (by omega)
    rcases hadv.cursor with hsame | ⟨q, hq, -, hqn⟩
    · rw [hsame] at hxle
      exact absurd hxle (not_le.mpr (by simpa using habove))
    · rw [hp, Option.some.injEq] at hq
      rw [hq]
      omega

end Marks

section Good

variable {A : Fold σ E ε} {chains : Set (Chain E)} {top : ℕ} {d d' : Driver σ κ}

/-- The cursor is in a block that is folded. -/
theorem Good.started (h : Good A chains top d) (hactive : d.engine.status = .active) :
    d.Started := by
  intro p hp
  have hback := h.sound.engine (Or.inl hactive)
  rw [hp] at hback
  obtain ⟨hstart, C, -, hhas, -⟩ := hback.chain p rfl
  obtain ⟨b, hb, hn⟩ := h.sound.ringOk.getLast? hp
  have hle := (hhas b (List.mem_of_getLast? hb) hn.le).le
  exact ⟨hstart, hn ▸ hle.trans Chain.head_le_max, b, hb, hn⟩

/-- A good driver is good whatever its sink, its counters and its times. -/
theorem Good.of_eq (h : Good A chains top d) (he : d'.engine = d.engine)
    (hc : d'.config = d.config) (hi : d'.initial = d.initial)
    (hw : d'.walked = d.walked ∨ d'.walked = none) (hv : d'.vouched = d.vouched) :
    Good A chains top d' where
  sound := by
    rw [he, hc, hi]
    exact h.sound
  cursor_top := by
    rw [he]
    exact h.cursor_top
  walked_top := by
    intro w hw'
    rcases hw with hw | hw
    · exact h.walked_top w (hw ▸ hw')
    · rw [hw] at hw'
      cases hw'
  marked := by
    intro hactive
    rw [he] at hactive
    rw [Driver.Marked, he, hc, hv]
    exact (h.marked hactive).dropWalked hw

end Good

namespace Driver

/-! ### The pure parts of a tick -/

section Pure

variable {d : Driver σ κ}

/-- An offer is refused at most once. -/
theorem offerSnapshot_eq (K : Sink κ σ) (d : Driver σ κ) : ∃ sink last, ∃ refused : Bool,
    d.offerSnapshot K = ({ d with
      sink := sink
      lastSnapshotBlock := last
      durabilityLost := d.durabilityLost || refused }, refused) ∧
    (refused = true → d.durabilityLost = false) := by
  have hsame : ∀ sink last, ({ d with sink := sink, lastSnapshotBlock := last } : Driver σ κ) =
      { d with sink := sink, lastSnapshotBlock := last,
               durabilityLost := d.durabilityLost || false } := by
    intro sink last
    rw [Bool.or_false]
  unfold offerSnapshot
  split_ifs with hlost
  · exact ⟨d.sink, d.lastSnapshotBlock, false, congrArg (·, false) (hsame _ _), by simp⟩
  · rw [Bool.not_eq_true] at hlost
    split
    · split_ifs
      · split
        · exact ⟨_, _, false, congrArg (·, false) (hsame _ _), by simp⟩
        · exact ⟨_, d.lastSnapshotBlock, true, by rw [Bool.or_true], fun _ => hlost⟩
      · exact ⟨d.sink, d.lastSnapshotBlock, false, congrArg (·, false) (hsame _ _), by simp⟩
    · exact ⟨d.sink, d.lastSnapshotBlock, false, congrArg (·, false) (hsame _ _), by simp⟩

theorem autoCheckpoint_eq (d : Driver σ κ) : ∃ e last, (e = d.engine ∨ e = d.engine.checkpoint) ∧
    d.autoCheckpoint = { d with engine := e, lastCheckpointBlock := last } := by
  unfold autoCheckpoint
  split
  · split_ifs
    · exact ⟨_, _, Or.inr rfl, rfl⟩
    · exact ⟨_, _, Or.inl rfl, rfl⟩
  · exact ⟨_, _, Or.inl rfl, rfl⟩

/-- What `accept` may change, and what it returns. -/
theorem accept_eq (K : Sink κ σ) (d : Driver σ κ) (summary : ApplySummary) (head : BlockRef)
    (walked cappedAt : Option BlockRef) (empty : Bool) : ∃ e sink c s, ∃ refused : Bool,
    (e = d.engine ∨ e = d.engine.checkpoint) ∧ (refused = true → d.durabilityLost = false) ∧
    d.accept K summary head walked cappedAt empty =
      ({ d with
        engine := e
        sink := sink
        lastCheckpointBlock := c
        lastSnapshotBlock := s
        durabilityLost := d.durabilityLost || refused
        walked := if empty then cappedAt.or walked else none
        vouched := if empty && cappedAt.isNone then d.vouched else some head
        caughtUp := empty && cappedAt.isNone },
      if refused then .durabilityLost
      else if empty && cappedAt.isNone then .idle else .progressed summary) := by
  unfold accept
  dsimp only
  set d₁ : Driver σ κ := { d with
    walked := if empty then cappedAt.or walked else none
    vouched := if empty && cappedAt.isNone then d.vouched else some head
    caughtUp := empty && cappedAt.isNone } with hd₁
  obtain ⟨e, c, he, hauto⟩ := autoCheckpoint_eq d₁
  obtain ⟨sink, s, refused, hoffer, hrefused⟩ := offerSnapshot_eq K d₁.autoCheckpoint
  refine ⟨e, sink, c, s, refused, he, ?_, ?_⟩
  · intro h
    have := hrefused h
    rw [hauto] at this
    exact this
  · rw [hoffer, hauto]
    cases refused <;> rfl

end Pure

/-! ### The start -/

/-- A driver as `around` leaves it. -/
structure Around (K : Sink κ σ) (engine : Engine σ) (sink : κ) (initial : σ)
    (config : DriverConfig) (d : Driver σ κ) : Prop where
  seenResets : d.seenResets = engine.resets
  sink : d.sink = if engine.cursor < K.durableCursor sink then K.reset sink else sink
  config : d.config = config
  initial : d.initial = initial
  walked : d.walked = none
  leftAt : d.leftAt = none
  span : d.span = MAX_SPAN
  engine : d.engine = engine ∨ d.engine = engine.checkpoint

section Start

variable {ρ : Type} {K : Sink κ σ} {sink : κ} {config : DriverConfig} {d : Driver σ κ}
  {τ : List (Exchange (Answer E) × ρ)}

theorem around_spec {engine : Engine σ} {initial : σ}
    (hrun : RunsOn (around K engine sink initial config) τ (.ok d)) :
    Around K engine sink initial config d := by
  obtain ⟨horizon, D, τ', rfl, hgo⟩ := runsOn_query_bind_iff.mp hrun
  dsimp only at hgo
  generalize hd₁ : ({
    engine := engine
    sink := if engine.cursor < K.durableCursor sink then K.reset sink else sink
    config := config
    initial := initial
    consecutiveErrors := 0
    caughtUp := false
    generation := 0
    lastCheckpointBlock := none
    lastSnapshotBlock := none
    seenResets := engine.resets
    durabilityLost := false
    advanced := false
    span := MAX_SPAN
    walked := none
    vouched := none
    leftAt := none } : Driver σ κ) = d₁ at hgo
  have hauto : ∀ d₂, d₂ = (if engine.checkpointCount = 0 then d₁.autoCheckpoint else d₁) →
      Around K engine sink initial config d₂ := by
    rintro d₂ rfl
    by_cases hcount : engine.checkpointCount = 0
    · obtain ⟨e, last, he, heq⟩ := autoCheckpoint_eq d₁
      rw [if_pos hcount, heq]
      subst hd₁
      exact ⟨rfl, rfl, rfl, rfl, rfl, rfl, rfl, he⟩
    · rw [if_neg hcount]
      subst hd₁
      exact ⟨rfl, rfl, rfl, rfl, rfl, rfl, rfl, Or.inl rfl⟩
  cases horizon with
  | genesis =>
      rw [runsOn_pure_iff, Except.ok.injEq] at hgo
      exact hauto _ hgo.2
  | fromBlock horizon =>
      dsimp only at hgo
      by_cases hlt : config.startBlock < horizon
      · rw [if_pos hlt, runsOn_pure_iff] at hgo
        cases hgo.2
      · rw [if_neg hlt, runsOn_pure_iff, Except.ok.injEq] at hgo
        exact hauto _ hgo.2

/-- A new driver is one around a fresh engine. -/
theorem build_spec {fold : σ} {engineConfig : EngineConfig}
    (hrun : RunsOn (build K fold sink engineConfig config) τ (.ok d)) :
    ∃ h, Around K (Engine.fresh fold engineConfig h) sink fold config d := by
  unfold build at hrun
  cases hnew : Engine.new fold engineConfig with
  | error err =>
      simp only [hnew] at hrun
      cases (runsOn_pure_iff.mp hrun).2
  | ok engine =>
      simp only [hnew] at hrun
      obtain ⟨hpow, rfl⟩ := new_eq_ok hnew
      exact ⟨hpow, around_spec hrun⟩

/-- What `around` does to the engine. -/
theorem Around.handled {engine : Engine σ} {initial : σ} (h : Around K engine sink initial config d) :
    Handled initial engine d.engine := by
  rcases h.engine with he | he
  · rw [he]
    exact .same
  · rw [he]
    exact .checkpoint

theorem Around.cursor {engine : Engine σ} {initial : σ} (h : Around K engine sink initial config d) :
    d.engine.cursor = engine.cursor := by
  rcases h.engine with he | he
  · rw [he]
  · rw [he, checkpoint_cursor]

end Start

/-! ### Recovery -/

/-- What polling leaves alone. -/
structure Framed (d d' : Driver σ κ) : Prop where
  config : d'.config = d.config
  initial : d'.initial = d.initial
  span : d'.span = d.span
  leftAt : d'.leftAt = d.leftAt

/-- What recovery leaves of a driver. -/
structure Recovered (d d' : Driver σ κ) : Prop extends Framed d d' where
  engine : Handled d.initial d.engine d'.engine
  walked : d'.walked = d.walked
  vouched : d'.vouched = d.vouched

section Recovery

variable {ρ : Type} {d d' : Driver σ κ} {t : Tick} {τ : List (Exchange (Answer E) × ρ)}

theorem resyncOrTerminal_spec
    (hrun : RunsOn d.resyncOrTerminal τ (d', t)) : Recovered d d' := by
  obtain ⟨horizon, D, τ', rfl, hgo⟩ := runsOn_query_bind_iff.mp hrun
  cases horizon with
  | genesis =>
      rw [runsOn_pure_iff, resync, Prod.mk.injEq] at hgo
      rw [hgo.2.1]
      exact ⟨⟨rfl, rfl, rfl, rfl⟩, .reset, rfl, rfl⟩
  | fromBlock horizon =>
      dsimp only at hgo
      split_ifs at hgo
      · rw [runsOn_pure_iff, Prod.mk.injEq] at hgo
        rw [hgo.2.1]
        exact ⟨⟨rfl, rfl, rfl, rfl⟩, .unrecoverable _, rfl, rfl⟩
      · rw [runsOn_pure_iff, resync, Prod.mk.injEq] at hgo
        rw [hgo.2.1]
        exact ⟨⟨rfl, rfl, rfl, rfl⟩, .reset, rfl, rfl⟩

theorem rollBackTo_spec {ancestor : ℕ}
    (hrun : RunsOn (d.rollBackTo ancestor) τ (d', t)) : Recovered d d' := by
  unfold rollBackTo at hrun
  have hhandled : Handled d.initial d.engine (d.engine.rollbackAtOrBelow ancestor).1 :=
    .rollback ancestor
  rcases hrb : d.engine.rollbackAtOrBelow ancestor with ⟨e, err | c⟩
  · cases err with
    | noCheckpointAtOrBelow block =>
        simp only [hrb] at hrun
        rw [rollback_error hrb] at hrun
        exact resyncOrTerminal_spec hrun
    | unrecoverable cause =>
        simp only [hrb] at hrun
        rw [runsOn_pure_iff, Prod.mk.injEq] at hrun
        rw [hrun.2.1]
        rw [hrb] at hhandled
        exact ⟨⟨rfl, rfl, rfl, rfl⟩, hhandled, rfl, rfl⟩
  · simp only [hrb] at hrun
    rw [runsOn_pure_iff, Prod.mk.injEq] at hrun
    rw [hrun.2.1]
    rw [hrb] at hhandled
    exact ⟨⟨rfl, rfl, rfl, rfl⟩, hhandled, rfl, rfl⟩

theorem recoverViaBisection_spec
    (hrun : RunsOn d.recoverViaBisection τ (d', t)) :
    Recovered { d with vouched := none } d' := by
  obtain ⟨τ₁, found, τ₂, rfl, -, hgo⟩ := runsOn_bind_iff.mp hrun
  cases found with
  | none =>
      rw [runsOn_pure_iff, Prod.mk.injEq] at hgo
      rw [hgo.2.1]
      exact ⟨⟨rfl, rfl, rfl, rfl⟩, .same, rfl, rfl⟩
  | some lo =>
      dsimp only at hgo
      split at hgo
      · exact resyncOrTerminal_spec hgo
      · exact rollBackTo_spec hgo

end Recovery

/-! ### A poll -/

section Poll

variable {A : Fold σ E ε} {chains : Set (Chain E)} {top : ℕ} {d d' : Driver σ κ} {t : Tick}

/-- Recovery with the marks dropped leaves a good driver. -/
theorem Recovered.good (h : Recovered d d')
    (hs : Sound A chains d.config.startBlock d.initial d.engine)
    (htop : ∀ p, d.engine.cursor = some p → p.block ≤ top) (hw : d.walked = none)
    (hv : d.vouched = none) : Good A chains top d' where
  sound := by
    rw [h.config, h.initial]
    exact h.engine.sound hs
  cursor_top := by
    intro p hp
    have hle := h.engine.cursor_le hs
    rw [hp] at hle
    cases hc : d.engine.cursor with
    | none =>
        rw [hc] at hle
        exact absurd hle (by simp)
    | some q =>
        rw [hc, Option.some_le_some] at hle
        exact (Position.block_le hle).trans (htop q hc)
  walked_top := by
    intro w hw'
    rw [h.walked, hw] at hw'
    cases hw'
  marked := by
    intro _
    rw [Marked, h.walked, h.vouched, hw, hv]
    exact MarksOk.clear _ _ _ _

/-- A batch that leaves the engine sound, and the marks right, leaves a good driver. -/
theorem applyScan_good (K : Sink κ σ) {batch : Batch E} {head : BlockRef}
    {cappedAt : Option BlockRef} {τ : Trace E}
    (hrun : RunsOn (d.applyScan A K batch head cappedAt) τ (d', t))
    (hs : Sound A chains d.config.startBlock d.initial (d.engine.applyBatch A batch).1)
    (htop : ∀ p, (d.engine.applyBatch A batch).1.cursor = some p → p.block ≤ top)
    (hw : ∀ w, d.walked = some w → w.number ≤ top)
    (hcap : ∀ a, cappedAt = some a → a.number ≤ top)
    (hok : ∀ summary, (d.engine.applyBatch A batch).2 = .ok summary →
      MarksOk chains d.config.startBlock (d.engine.applyBatch A batch).1.cursor
        (d.engine.applyBatch A batch).1.observed.getLast?
        (if batch.isEmpty then cappedAt.or d.walked else none)
        (if batch.isEmpty && cappedAt.isNone then d.vouched else some head))
    (herr : ∀ err, (d.engine.applyBatch A batch).2 = .error err →
      (d.engine.applyBatch A batch).1.status = .active →
      MarksOk chains d.config.startBlock (d.engine.applyBatch A batch).1.cursor
        (d.engine.applyBatch A batch).1.observed.getLast? none d.vouched) :
    Framed d d' ∧ Good A chains top d' := by
  unfold applyScan at hrun
  rcases hap : d.engine.applyBatch A batch with ⟨e, err | summary⟩
  · rw [hap] at hs htop herr
    -- a fork is recovered from with both marks dropped
    have hrecover : RunsOn ({ d with consecutiveErrors := 0, walked := none, engine := e } :
        Driver σ κ).recoverViaBisection τ (d', t) → Framed d d' ∧ Good A chains top d' := by
      intro hrec
      have h := recoverViaBisection_spec hrec
      exact ⟨⟨h.config, h.initial, h.span, h.leftAt⟩, h.good hs htop rfl rfl⟩
    -- any other error drops the walked mark
    have hstop : ∀ n, d' = { d with consecutiveErrors := n, walked := none, engine := e } →
        Framed d d' ∧ Good A chains top d' := by
      rintro n rfl
      exact ⟨⟨rfl, rfl, rfl, rfl⟩, hs, htop, by simp, herr err rfl⟩
    cases err with
    | forkSuspected observed refetched =>
        simp only [hap] at hrun
        exact hrecover hrun
    | missingBoundary =>
        simp only [hap] at hrun
        exact hrecover hrun
    | cursorBlockUnobserved block =>
        simp only [hap] at hrun
        exact hrecover hrun
    | halted pos error =>
        simp only [hap] at hrun
        rw [runsOn_pure_iff, Prod.mk.injEq] at hrun
        exact hstop _ hrun.2.1
    | poisoned pos error =>
        simp only [hap] at hrun
        rw [runsOn_pure_iff, Prod.mk.injEq] at hrun
        exact hstop _ hrun.2.1
    | shape error =>
        simp only [hap] at hrun
        rw [runsOn_pure_iff, Prod.mk.injEq] at hrun
        exact hstop _ hrun.2.1
    | boundaryNumberMismatch expected got =>
        simp only [hap] at hrun
        rw [runsOn_pure_iff, Prod.mk.injEq] at hrun
        exact hstop _ hrun.2.1
    | notActive status =>
        simp only [hap] at hrun
        rw [runsOn_pure_iff, Prod.mk.injEq] at hrun
        exact hstop _ hrun.2.1
  · simp only [hap] at hrun
    rw [runsOn_pure_iff] at hrun
    obtain ⟨e', sink, c, s, refused, he', -, heq⟩ := accept_eq K
      ({ d with consecutiveErrors := 0, walked := none, engine := e } : Driver σ κ)
      summary head d.walked cappedAt batch.isEmpty
    rw [← hrun.2] at heq
    rw [hap] at hs htop
    have hmarks := hok summary (by rw [hap])
    rw [hap] at hmarks
    have hd' : d' = _ := congrArg Prod.fst heq
    have hcur : e'.cursor = e.cursor := by
      rcases he' with rfl | rfl
      · rfl
      · exact checkpoint_cursor e
    have hobs : e'.observed = e.observed := by
      rcases he' with rfl | rfl
      · rfl
      · exact checkpoint_observed e
    rw [hd']
    refine ⟨⟨rfl, rfl, rfl, rfl⟩, ?_, ?_, ?_, ?_⟩
    · rcases he' with rfl | rfl
      · exact hs
      · exact hs.checkpoint
    · intro p hp
      exact htop p (hcur.symm.trans hp)
    · intro w hw'
      dsimp only at hw'
      split_ifs at hw'
      cases hcapped : cappedAt with
      | none =>
          rw [hcapped, Option.none_or] at hw'
          exact hw w hw'
      | some a =>
          rw [hcapped, Option.some_or, Option.some.injEq] at hw'
          exact hw' ▸ hcap a hcapped
    · intro _
      show MarksOk _ _ e'.cursor e'.observed.getLast? _ _
      rw [hcur, hobs]
      exact hmarks

variable (hcom : Committed chains)

/-- A batch without events leaves a good driver, unless its walk was capped. -/
theorem applyScan_empty (K : Sink κ σ) {batch : Batch E} (hempty : batch.isEmpty = true)
    {head : BlockRef} {τ : Trace E} (hrun : RunsOn (d.applyScan A K batch head none) τ (d', t))
    (hd : Good A chains top d) (hactive : d.engine.status = .active) :
    Framed d d' ∧ Good A chains top d' := by
  have hu := applyBatch_empty A d.engine hempty
  have hmarks : MarksOk chains d.config.startBlock (d.engine.applyBatch A batch).1.cursor
      (d.engine.applyBatch A batch).1.observed.getLast? d.walked d.vouched :=
    MarksOk.untouched hu (hd.marked hactive)
  refine applyScan_good K hrun (hd.sound.untouched hu) ?_
    hd.walked_top (by simp) ?_ ?_
  · rw [hu.cursor]
    exact hd.cursor_top
  · intro summary _
    rw [hempty]
    exact hmarks
  · intro err _ _
    exact hmarks.dropWalked (Or.inr rfl)

include hcom

/-- **A poll keeps a driver good.** -/
theorem pollApply_good (K : Sink κ σ) {τ : Trace E}
    (hrun : RunsOn (d.pollApply A K) τ (d', t)) (hτ : Honest chains τ) (hb : Bracketed τ)
    (htop : HeadsUpTo top τ) (hd : Good A chains top d) :
    Framed d d' ∧ Good A chains top d' := by
  unfold pollApply at hrun
  set d₀ : Driver σ κ := { d with generation := d.generation + 1 } with hd₀
  have hgood : Good A chains top d₀ := hd.of_eq rfl rfl rfl (Or.inl rfl) rfl
  have hstop : ∀ d₁ : Driver σ κ, d₁.engine = d.engine → d₁.config = d.config →
      d₁.initial = d.initial → d₁.span = d.span → d₁.leftAt = d.leftAt →
      (d₁.walked = d.walked ∨ d₁.walked = none) → d₁.vouched = d.vouched →
      Framed d d₁ ∧ Good A chains top d₁ := by
    intro d₁ he hc hi hsp hl hw hv
    exact ⟨⟨hc, hi, hsp, hl⟩, hd.of_eq he hc hi hw hv⟩
  by_cases hactive : d.engine.status = .active
  · rw [if_pos (EngineStatus.isActive_iff.mpr hactive)] at hrun
    obtain ⟨τ₁, out, τ₂, rfl, hscan, hgo⟩ := runsOn_bind_iff.mp hrun
    have hτ₁ := (Honest.append.mp hτ).1
    have hwalked : out.walked = d₀.walked ∨ out.walked = none := by
      cases scanCases hscan with
      | headError D => exact Or.inl rfl
      | lagError below h => exact Or.inl rfl
      | lagging below h => exact Or.inl rfl
      | walked below h => exact scanFrom_walked h
    have hgood₁ : Good A chains top { d₀ with walked := out.walked } :=
      hgood.of_eq rfl rfl rfl hwalked rfl
    have hframed : Framed { d₀ with walked := out.walked } d' ∧ Good A chains top d' →
        Framed d d' ∧ Good A chains top d' :=
      fun h => ⟨⟨h.1.config, h.1.initial, h.1.span, h.1.leftAt⟩, h.2⟩
    by_cases heff : Effective out
    · cases scanCases hscan with
      | headError D => simp [Effective] at heff
      | lagError below h => simp [Effective] at heff
      | lagging below h => simp [Effective] at heff
      | @walked head D τ₃ τ₄ _ below h =>
          obtain ⟨hthrough, hD, hDhead⟩ := through_of_effective hτ₁ hb.left h heff
          have hall : ∀ C ∈ chains, C.Has head → OutcomeOk C d₀ head τ₄ out.batch out.outcome :=
            fun C hC hChead => scanFrom_spec hcom hC hChead (hgood.started hactive)
              (hgood.marked hactive) h hthrough (Or.inr heff)
          have hheadtop : head.number ≤ top := htop (⟨.head, some head⟩, D) (by simp) head rfl
          cases hout : out.outcome with
          | none => simp [Effective, hout] at heff
          | some scan =>
              simp only [hout] at hgo hall
              cases scan with
              | refused => simp [Effective, hout] at heff
              | lagging => simp [Effective, hout] at heff
              | ready head' =>
                  have hempty : out.batch.isEmpty = false := by
                    rcases heff with ⟨a, h', hcap⟩ | ⟨-, hne⟩
                    · simp [hout] at hcap
                    · exact hne
                  obtain ⟨rfl, -, n, hn, hbatch, -⟩ := hall D hD hDhead
                  obtain ⟨hsound, hcases⟩ :=
                    hgood₁.sound.applyBatch hcom hD hactive hbatch
                  refine hframed (applyScan_good K hgo hsound ?_ hgood₁.walked_top (by simp) ?_ ?_)
                  · rcases hcases with ⟨⟨err, -, heq⟩, -⟩ | hadv
                    · rw [heq]
                      exact hgood₁.cursor_top
                    · intro p hp
                      rcases hadv.cursor with hsame | ⟨q, hq, -, hqn⟩
                      · exact hgood₁.cursor_top p (hsame.symm.trans hp)
                      · rw [hp, Option.some.injEq] at hq
                        rw [hq]
                        exact hqn.trans (hn.trans hheadtop)
                  · intro summary hok
                    rw [hempty]
                    exact marks_filled hcom hgood₁.sound hactive
                      (fun C hC hChead => by
                        obtain ⟨-, -, m, -, hbatch', -⟩ := hall C hC hChead
                        exact ⟨m, hbatch'⟩) hempty hok
                  · intro err herr hact
                    rcases hcases with ⟨⟨err', -, heq⟩, -⟩ | hadv
                    · rw [heq]
                      exact (hgood₁.marked hactive).dropWalked (Or.inr rfl)
                    · exact absurd hact (hadv.error err herr)
              | capped a head' =>
                  obtain ⟨rfl, hcap⟩ := hall D hD hDhead
                  have hu := applyBatch_empty A d.engine hcap.empty
                  refine hframed (applyScan_good K hgo
                    (hgood₁.sound.untouched hu) ?_
                    hgood₁.walked_top ?_ ?_ ?_)
                  · intro p hp
                    exact hgood₁.cursor_top p (hu.cursor.symm.trans hp)
                  · intro a' ha
                    rw [← Option.some.inj ha]
                    exact hcap.lt.le.trans hheadtop
                  · intro summary hok
                    rw [hcap.empty]
                    refine MarksOk.untouched hu ?_
                    exact marks_capped hcom hgood₁.sound hactive hD hDhead
                      (fun C hC hChead => by
                        obtain ⟨-, hcap'⟩ := hall C hC hChead
                        exact ⟨hcap'.batch, hcap'.has⟩) hcap.empty hcap.start_le hcap.cursor_le hok
                  · intro err _ _
                    exact (MarksOk.untouched hu (hgood₁.marked hactive)).dropWalked (Or.inr rfl)
    · cases hout : out.outcome with
      | none =>
          simp only [hout] at hgo
          rw [runsOn_pure_iff, Prod.mk.injEq] at hgo
          rw [hgo.2.1]
          exact hstop _ rfl rfl rfl rfl rfl hwalked rfl
      | some scan =>
          simp only [hout] at hgo
          cases scan with
          | refused =>
              rw [runsOn_pure_iff, Prod.mk.injEq] at hgo
              rw [hgo.2.1]
              exact hstop _ rfl rfl rfl rfl rfl hwalked rfl
          | lagging =>
              rw [runsOn_pure_iff, Prod.mk.injEq] at hgo
              rw [hgo.2.1]
              exact hstop _ rfl rfl rfl rfl rfl hwalked rfl
          | ready head =>
              have hempty : out.batch.isEmpty = true := by
                by_contra hne
                exact heff (Or.inr ⟨⟨head, hout⟩, by simpa using hne⟩)
              exact hframed (applyScan_empty K hempty hgo hgood₁ hactive)
          | capped a head => exact absurd (Or.inl ⟨a, head, hout⟩) heff
  · rw [if_neg (fun h => hactive (EngineStatus.isActive_iff.mp h))] at hrun
    rw [runsOn_pure_iff, Prod.mk.injEq] at hrun
    rw [hrun.2.1]
    exact hstop _ rfl rfl rfl rfl rfl (Or.inl rfl) rfl

end Poll

/-! ### A tick -/

section Step

variable {A : Fold σ E ε} {chains : Set (Chain E)} {top : ℕ} {d d' : Driver σ κ} {t : Tick}

/-- Marks survive only while the engine stands where the last tick left it. -/
theorem catchCaller_eq (K : Sink κ σ) (d : Driver σ κ) : ∃ sink c s n,
    d.catchCaller K = { d with
      sink := sink
      lastCheckpointBlock := c
      lastSnapshotBlock := s
      seenResets := n
      leftAt := none
      walked := if d.leftAt = some d.enginePoint then d.walked else none
      vouched := if d.leftAt = some d.enginePoint then d.vouched else none } := by
  unfold catchCaller
  dsimp only
  by_cases hleft : d.leftAt = some d.enginePoint
  · rw [if_pos hleft, if_pos hleft]
    split_ifs with hresets h h
    · exact absurd hleft h
    · exact ⟨_, _, _, _, rfl⟩
    · exact absurd hleft h
    · exact ⟨_, _, _, _, rfl⟩
  · rw [if_neg hleft, if_neg hleft]
    split_ifs with hresets h h
    · exact ⟨_, _, _, _, rfl⟩
    · exact absurd (not_not.mp h) hleft
    · exact ⟨_, _, _, _, rfl⟩
    · exact absurd (not_not.mp h) hleft

theorem catchCaller_good (K : Sink κ σ) (hd : Kept A chains top d) :
    Good A chains top (d.catchCaller K) := by
  obtain ⟨sink, c, s, n, heq⟩ := catchCaller_eq K d
  rw [heq]
  by_cases hleft : d.leftAt = some d.enginePoint
  · rw [if_pos hleft, if_pos hleft]
    exact ⟨hd.sound, hd.cursor_top, hd.walked_top, fun _ => (hd.marks _ hleft).2 rfl⟩
  · rw [if_neg hleft, if_neg hleft]
    exact ⟨hd.sound, hd.cursor_top, by simp, fun _ => MarksOk.clear _ _ _ _⟩

theorem settle_kept (hd : Good A chains top d) (hspan : 1 ≤ d.span ∧ d.span ≤ MAX_SPAN)
    (t : Tick) : Kept A chains top (d.settle t) where
  sound := hd.sound
  cursor_top := hd.cursor_top
  walked_top := hd.walked_top
  span := by
    unfold settle satMul MAX_SPAN U64_MAX at *
    dsimp only
    split_ifs <;> omega
  marks := by
    intro point hpoint
    unfold settle at hpoint
    dsimp only at hpoint
    split_ifs at hpoint with hactive
    rw [Option.some.injEq] at hpoint
    subst hpoint
    exact ⟨le_rfl, fun _ => hd.marked (EngineStatus.isActive_iff.mp hactive)⟩

variable (hcom : Committed chains)

include hcom

/-- **A tick keeps a driver.** -/
theorem step_kept (K : Sink κ σ) {τ : Trace E} (hrun : RunsOn (d.step A K) τ (d', t))
    (hτ : Honest chains τ) (hb : Bracketed τ) (htop : HeadsUpTo top τ)
    (hd : Kept A chains top d) :
    Kept A chains top d' ∧ d'.config = d.config ∧ d'.initial = d.initial := by
  unfold step at hrun
  obtain ⟨τ₁, ⟨d₁, t₁⟩, τ₂, rfl, hpoll, hend⟩ := runsOn_bind_iff.mp hrun
  rw [runsOn_pure_iff, Prod.mk.injEq] at hend
  obtain ⟨rfl, rfl, rfl⟩ := hend
  rw [List.append_nil] at hτ hb htop
  obtain ⟨hframe, hgood⟩ := pollApply_good hcom K hpoll hτ hb htop (catchCaller_good K hd)
  obtain ⟨sink, c, s, n, heq⟩ := catchCaller_eq K d
  rw [heq] at hframe
  refine ⟨settle_kept hgood ?_ t, hframe.config, hframe.initial⟩
  rw [hframe.span]
  exact hd.span

end Step

end Driver

end Works.Chainfold
