import Works.Chainfold.Source
import Works.Chainfold.Engine

/-! # The driver

`Driver` of `driver.rs`: the poll loop over one source, as programs that ask the source.  A
method that reads the source returns a program; the driver it leaves is part of the result.
The batch and the scratch space, which every scan refills, are local here.  The delays between
ticks are left out. -/

namespace Works.Chainfold

open Works.Lib

variable {σ E ε κ : Type}

/-- `u64::saturating_add`. -/
def satAdd (a b : ℕ) : ℕ := min (a + b) U64_MAX

/-- `u64::saturating_mul`. -/
def satMul (a b : ℕ) : ℕ := min (a * b) U64_MAX

/-- `MAX_SPAN`. -/
def MAX_SPAN : ℕ := 64

/-- `u32::MAX`, where the count of consecutive errors saturates. -/
def U32_MAX : ℕ := 2 ^ 32 - 1

/-- `due`. -/
def due (last : Option ℕ) (block interval : ℕ) : Bool :=
  last.all fun last => decide (satAdd last interval ≤ block)

/-- `Tick`. -/
inductive Tick where
  | progressed (summary : ApplySummary)
  | idle
  | rolledBack (to_ : Cursor)
  | resynced
  | sourceError
  | durabilityLost
  | terminal (status : EngineStatus)
deriving DecidableEq, Repr

/-- `Scan`. -/
inductive Scan where
  | ready (head : BlockRef)
  | capped (anchor head : BlockRef)
  | lagging
  | refused
deriving DecidableEq, Repr

/-- `DriverConfig`, less the delays. -/
structure DriverConfig where
  startBlock : ℕ
  checkpointInterval : Option ℕ
  snapshotInterval : Option ℕ
deriving DecidableEq, Repr

/-- `DriverStatus`. -/
structure DriverStatus where
  cursor : Cursor
  lastVerified : Option BlockRef
  engine : EngineStatus
  caughtUp : Bool
  skips : ℕ
  durableCursor : Cursor
  durabilityLost : Bool
  generation : UInt64
deriving DecidableEq, Repr

/-- `SnapshotSink`; `offer` tells whether the sink accepts. -/
structure Sink (κ σ : Type) where
  offer : κ → Engine σ → κ × Bool
  durableCursor : κ → Cursor
  reset : κ → κ

/-- `NoSink`. -/
def noSink : Sink Unit σ where
  offer _ _ := ((), true)
  durableCursor _ := none
  reset _ := ()

/-- `Driver`. -/
structure Driver (σ κ : Type) where
  engine : Engine σ
  sink : κ
  config : DriverConfig
  initial : σ
  consecutiveErrors : ℕ
  caughtUp : Bool
  generation : UInt64
  lastCheckpointBlock : Option ℕ
  lastSnapshotBlock : Option ℕ
  seenResets : UInt64
  durabilityLost : Bool
  advanced : Bool
  span : ℕ
  walked : Option BlockRef
  vouched : Option BlockRef
  leftAt : Option (Cursor × UInt64)

/-! ### Grouping -/

/-- The loop of `group_into` over the sorted entries. -/
def groupLoop : Batch E → Option BlockRef → List (ℕ × E) → List (ChainEvent E) → Batch E
  | batch, none, _, [] => batch
  | batch, some open_, span, [] => batch.pushBlock open_ span
  | batch, none, span, x :: rest =>
      groupLoop batch (some x.block) (span ++ [(x.logIndex, x.event)]) rest
  | batch, some open_, span, x :: rest =>
      if open_ ≠ x.block then
        groupLoop (batch.pushBlock open_ span) (some x.block) [(x.logIndex, x.event)] rest
      else groupLoop batch (some open_) (span ++ [(x.logIndex, x.event)]) rest

/-- `group_into`; `sort_by_key` is stable, as is an insertion sort. -/
def groupInto (batch : Batch E) (entries : List (ChainEvent E)) : Batch E :=
  groupLoop batch none [] (entries.insertionSort fun a b => a.pos ≤ b.pos)

/-! ### Scanning -/

/-- How a walk over the windows ends. -/
inductive WalkEnd (E : Type) where
  | error
  | refused
  | done (batch : Batch E)

/-- Where a walk starts: the mark that is kept, the first block, and whether the cursor block
is skipped. -/
structure WalkStart where
  walked : Option BlockRef
  first : ℕ
  resumed : Bool

/-- What a scan leaves; no outcome is an error of the source. -/
structure Scanned (E : Type) where
  walked : Option BlockRef
  batch : Batch E
  outcome : Option Scan

/-- The answer of the lagging branch of `Driver::scan`: whether the newest observed block at or
below the head is on the source's chain. -/
def isLagging (observed : List BlockRef) (head : BlockRef) : Ask E (Option Bool) :=
  match (observed.takeWhile fun seen => decide (seen.number ≤ head.number)).getLast? with
  | none => pure (some true)
  | some seen =>
      if seen.number = head.number then pure (some (decide (seen = head)))
      else Ask.headerAt seen.number >>= fun answer =>
        pure (answer.map fun header => header.all fun header => decide (header = seen))

/-- What the cursor block adds to a window: the boundary it shows, and the events above the
cursor; none when the window names two such blocks. -/
def atCursor (cursor : Cursor) (first : ℕ) (batch : Batch E) (scratch : List (ChainEvent E)) :
    Option (Batch E × List (ChainEvent E)) :=
  match cursor with
  | none => some (batch, scratch)
  | some c =>
      if first = c.block then
        let refs := (scratch.map (·.block)).filter fun block => decide (block.number = c.block)
        if refs.tail.any fun block => !decide (some block = refs.head?) then none
        else some (batch.withBoundary refs.head?, scratch.filter fun x => decide (c < x.pos))
      else some (batch, scratch)

/-- The loop of `Driver::scan` over the windows up to `last`. -/
def walk (cursor : Cursor) (window last : ℕ) : ℕ → ℕ → Batch E → Ask E (WalkEnd E)
  | 0, _, batch => pure (.done batch)
  | fuel + 1, first, batch =>
      if last < first then pure (.done batch)
      else
        let to_ := min last (satAdd first (window - 1))
        Ask.eventsIn first to_ >>= fun answer =>
          match answer with
          | none => pure .error
          | some scratch =>
              if scratch.any fun x =>
                  !decide (first ≤ x.block.number ∧ x.block.number ≤ to_) then pure .refused
              else match atCursor cursor first batch scratch with
                | none => pure .refused
                | some (batch, scratch) =>
                    if ¬ scratch.isEmpty then pure (.done (groupInto batch scratch))
                    else if to_ = U64_MAX then pure (.done batch)
                    else walk cursor window last fuel (to_ + 1) batch

namespace Driver

/-- The events of a scan start at the cursor block or at the first block to fold. -/
def firstBlock (d : Driver σ κ) : ℕ :=
  match d.engine.cursor with
  | none => d.config.startBlock
  | some c => c.block

/-- The choice of the first block of a walk in `Driver::scan`. -/
def walkStart (d : Driver σ κ) (head : BlockRef) : Ask E (Option WalkStart) :=
  match d.walked with
  | some walked =>
      if d.vouched = some head ∨ head = walked then
        pure (some ⟨some walked, satAdd walked.number 1, true⟩)
      else Ask.headerAt walked.number >>= fun answer =>
        pure (answer.map fun header =>
          if header = some walked then ⟨some walked, satAdd walked.number 1, true⟩
          else ⟨none, d.firstBlock, false⟩)
  | none =>
      match d.engine.cursor with
      | some c =>
          if d.vouched = some head then pure (some ⟨none, satAdd c.block 1, true⟩)
          else pure (some ⟨none, d.firstBlock, false⟩)
      | none => pure (some ⟨none, d.firstBlock, false⟩)

/-- The boundary of a batch whose walk has not shown the cursor block. -/
def fillBoundary (d : Driver σ κ) (head : BlockRef) (resumed : Bool) (batch : Batch E) :
    Ask E (Option (Batch E)) :=
  match d.engine.cursor with
  | none => pure (some batch)
  | some c =>
      if batch.boundary.isSome then pure (some batch)
      else if resumed then pure (some (batch.withBoundary d.engine.observed.getLast?))
      else if head.number = c.block then pure (some (batch.withBoundary (some head)))
      else Ask.headerAt c.block >>= fun answer =>
        pure (answer.map fun header => batch.withBoundary header)

/-- The reads that close a scan. -/
def conclude (head : BlockRef) (last : ℕ) (batch : Batch E) : Ask E (Option Scan) :=
  if last < head.number ∧ batch.isEmpty = true then
    Ask.headerAt last >>= fun answer =>
      match answer with
      | none => pure none
      | some anchor => Ask.headerAt head.number >>= fun answer =>
          pure (answer.map fun again =>
            match anchor with
            | some anchor =>
                if again = some head ∧ anchor.number = last then .capped anchor head else .refused
            | none => .refused)
  else if batch.isEmpty then pure (some (.ready head))
  else Ask.headerAt head.number >>= fun answer =>
    pure (answer.map fun again => if again = some head then .ready head else .refused)

/-- `Driver::scan` from the walk on. -/
def scanFrom (d : Driver σ κ) (head : BlockRef) : Ask E (Scanned E) :=
  Ask.window >>= fun window =>
    let window := max window 1
    d.walkStart head >>= fun start =>
      match start with
      | none => pure ⟨d.walked, Batch.new, none⟩
      | some start =>
          let last := min head.number (satAdd start.first (satMul d.span window - 1))
          walk d.engine.cursor window last (last + 1 - start.first) start.first Batch.new >>=
            fun walked =>
              match walked with
              | .error => pure ⟨start.walked, Batch.new, none⟩
              | .refused => pure ⟨start.walked, Batch.new, some .refused⟩
              | .done batch => d.fillBoundary head start.resumed batch >>= fun filled =>
                  match filled with
                  | none => pure ⟨start.walked, batch, none⟩
                  | some batch => conclude head last batch >>= fun outcome =>
                      pure ⟨start.walked, batch, outcome⟩

/-- The block below which a head means that the source lags. -/
def floor (d : Driver σ κ) : Option ℕ :=
  (d.walked.map (·.number)).or (Cursor.block d.engine.cursor)

/-- `Driver::scan`. -/
def scan (d : Driver σ κ) : Ask E (Scanned E) :=
  Ask.head >>= fun answer =>
    match answer with
    | none => pure ⟨d.walked, Batch.new, none⟩
    | some head =>
        if d.floor.any fun floor => decide (head.number < floor) then
          isLagging d.engine.observed head >>= fun lagging =>
            match lagging with
            | none => pure ⟨d.walked, Batch.new, none⟩
            | some true => pure ⟨d.walked, Batch.new, some .lagging⟩
            | some false => d.scanFrom head
        else d.scanFrom head

/-! ### Checkpoints and offers -/

/-- `Driver::run_checkpoint`, also `Driver::checkpoint`. -/
def checkpoint (d : Driver σ κ) : Driver σ κ :=
  { d with
    engine := d.engine.checkpoint
    lastCheckpointBlock := (Cursor.block d.engine.cursor).or d.lastCheckpointBlock }

/-- `Driver::auto_checkpoint`. -/
def autoCheckpoint (d : Driver σ κ) : Driver σ κ :=
  match d.config.checkpointInterval, d.engine.cursor with
  | some interval, some cursor =>
      if due d.lastCheckpointBlock cursor.block interval then d.checkpoint else d
  | _, _ => d

/-- `Driver::offer_snapshot`: whether the sink refused. -/
def offerSnapshot (K : Sink κ σ) (d : Driver σ κ) : Driver σ κ × Bool :=
  if d.durabilityLost then (d, false)
  else match d.config.snapshotInterval, d.engine.durablePoint with
    | some interval, some point =>
        if due d.lastSnapshotBlock point.block interval then
          match K.offer d.sink d.engine with
          | (sink, true) =>
              ({ d with sink := sink, lastSnapshotBlock := some point.block }, false)
          | (sink, false) => ({ d with sink := sink, durabilityLost := true }, true)
        else (d, false)
    | _, _ => (d, false)

/-! ### Recovery -/

/-- `Driver::resync`. -/
def resync (d : Driver σ κ) : Driver σ κ × Tick :=
  ({ d with
      engine := d.engine.reset d.initial
      caughtUp := false
      consecutiveErrors := 0 }, .resynced)

/-- `Driver::resync_or_terminal`. -/
def resyncOrTerminal (d : Driver σ κ) : Ask E (Driver σ κ × Tick) :=
  Ask.horizon >>= fun horizon =>
    match horizon with
    | .fromBlock horizon =>
        if d.config.startBlock < horizon then
          let engine := d.engine.markUnrecoverable
            (.horizonExceeded d.config.startBlock horizon)
          pure ({ d with engine := engine }, .terminal engine.status)
        else pure d.resync
    | .genesis => pure d.resync

/-- `Driver::roll_back_to`. -/
def rollBackTo (d : Driver σ κ) (ancestor : ℕ) : Ask E (Driver σ κ × Tick) :=
  match d.engine.rollbackAtOrBelow ancestor with
  | (engine, .ok to_) => pure ({ d with engine := engine, caughtUp := false }, .rolledBack to_)
  | (engine, .error (.noCheckpointAtOrBelow _)) =>
      ({ d with engine := engine } : Driver σ κ).resyncOrTerminal
  | (engine, .error (.unrecoverable cause)) =>
      pure ({ d with engine := engine }, .terminal (.unrecoverable cause))

/-- One more consecutive error. -/
def bump (d : Driver σ κ) : Driver σ κ :=
  { d with consecutiveErrors := min (d.consecutiveErrors + 1) U32_MAX }

/-- The bisection of `Driver::recover_via_bisection`: how many of the observed blocks are on the
source's chain.  The index is always in range. -/
def bisect (observed : List BlockRef) : ℕ → ℕ → ℕ → Ask E (Option ℕ)
  | 0, lo, _ => pure (some lo)
  | fuel + 1, lo, hi =>
      if lo < hi then
        let mid := lo + (hi - lo) / 2
        match observed[mid]? with
        | none => pure (some lo)
        | some seen => Ask.headerAt seen.number >>= fun answer =>
            match answer with
            | none => pure none
            | some header =>
                if header.any fun header => decide (header.hash = seen.hash) then
                  bisect observed fuel (mid + 1) hi
                else bisect observed fuel lo mid
      else pure (some lo)

/-- `Driver::recover_via_bisection`. -/
def recoverViaBisection (d : Driver σ κ) : Ask E (Driver σ κ × Tick) :=
  let d := { d with vouched := none }
  bisect d.engine.observed d.engine.observed.length 0 d.engine.observed.length >>= fun found =>
    match found with
    | none => pure (d.bump, .sourceError)
    | some lo =>
        match (if lo = 0 then none else d.engine.observed[lo - 1]?) with
        | none => d.resyncOrTerminal
        | some seen => d.rollBackTo seen.number

/-! ### Ticks -/

/-- What `Driver::poll_apply` does once a batch is applied. -/
def accept (K : Sink κ σ) (d : Driver σ κ) (summary : ApplySummary) (head : BlockRef)
    (walked cappedAt : Option BlockRef) (empty : Bool) : Driver σ κ × Tick :=
  let idle := empty && cappedAt.isNone
  let d := { d with
    walked := if empty then cappedAt.or walked else none
    vouched := if idle then d.vouched else some head
    caughtUp := idle }
  match d.autoCheckpoint.offerSnapshot K with
  | (d, true) => (d, .durabilityLost)
  | (d, false) => (d, if idle then .idle else .progressed summary)

/-- `Driver::poll_apply` from `apply_batch` on.  An engine that is not active does not get
here. -/
def applyScan (A : Fold σ E ε) (K : Sink κ σ) (d : Driver σ κ) (batch : Batch E)
    (head : BlockRef) (cappedAt : Option BlockRef) : Ask E (Driver σ κ × Tick) :=
  let walked := d.walked
  let d := { d with consecutiveErrors := 0, walked := none }
  match d.engine.applyBatch A batch with
  | (engine, .ok summary) =>
      pure (({ d with engine := engine } : Driver σ κ).accept K summary head walked cappedAt
        batch.isEmpty)
  | (engine, .error (.forkSuspected _ _)) =>
      ({ d with engine := engine } : Driver σ κ).recoverViaBisection
  | (engine, .error .missingBoundary) =>
      ({ d with engine := engine } : Driver σ κ).recoverViaBisection
  | (engine, .error (.cursorBlockUnobserved _)) =>
      ({ d with engine := engine } : Driver σ κ).recoverViaBisection
  | (engine, .error (.halted _ _)) => pure ({ d with engine := engine }, .terminal engine.status)
  | (engine, .error (.poisoned _ _)) =>
      pure ({ d with engine := engine }, .terminal engine.status)
  | (engine, .error (.shape _)) =>
      pure (({ d with engine := engine } : Driver σ κ).bump, .sourceError)
  | (engine, .error (.boundaryNumberMismatch _ _)) =>
      pure (({ d with engine := engine } : Driver σ κ).bump, .sourceError)
  | (engine, .error (.notActive status)) => pure ({ d with engine := engine }, .terminal status)

/-- `Driver::poll_apply`. -/
def pollApply (A : Fold σ E ε) (K : Sink κ σ) (d : Driver σ κ) : Ask E (Driver σ κ × Tick) :=
  let d := { d with generation := d.generation + 1 }
  if d.engine.status.isActive then
    d.scan >>= fun scanned =>
      let d := { d with walked := scanned.walked }
      match scanned.outcome with
      | some (.ready head) => d.applyScan A K scanned.batch head none
      | some (.capped anchor head) => d.applyScan A K scanned.batch head (some anchor)
      | some .lagging => pure ({ d with consecutiveErrors := 0, caughtUp := true }, .idle)
      | some .refused => pure (d.bump, .sourceError)
      | none => pure (d.bump, .sourceError)
  else pure (d, .terminal d.engine.status)

/-- `Driver::engine_point`. -/
def enginePoint (d : Driver σ κ) : Cursor × UInt64 := (d.engine.cursor, d.engine.resets)

/-- `Driver::clamp_marks`. -/
def clampMarks (d : Driver σ κ) : Driver σ κ :=
  let clamp := fun mark : Option ℕ =>
    mark.bind fun mark => (Cursor.block d.engine.cursor).map fun block => min mark block
  { d with
    lastCheckpointBlock := clamp d.lastCheckpointBlock
    lastSnapshotBlock := clamp d.lastSnapshotBlock }

/-- The start of `Driver::step`: what the caller may have done to the engine. -/
def catchCaller (K : Sink κ σ) (d : Driver σ κ) : Driver σ κ :=
  let d := d.clampMarks
  let d := if d.seenResets ≠ d.engine.resets then
      { d with sink := K.reset d.sink, seenResets := d.engine.resets }
    else d
  if d.leftAt ≠ some d.enginePoint then
    { d with leftAt := none, walked := none, vouched := none }
  else { d with leftAt := none }

/-- The end of `Driver::step`. -/
def settle (d : Driver σ κ) (tick : Tick) : Driver σ κ :=
  { d with
    advanced := match tick with
      | .progressed _ => true
      | _ => false
    span := if tick = .sourceError then max (d.span / 2) 1 else min (satMul d.span 2) MAX_SPAN
    leftAt := if d.engine.status.isActive then some d.enginePoint else none }

/-- `Driver::step`, also `Driver::tick`. -/
def step (A : Fold σ E ε) (K : Sink κ σ) (d : Driver σ κ) : Ask E (Driver σ κ × Tick) :=
  (d.catchCaller K).pollApply A K >>= fun r => pure (r.1.settle r.2, r.2)

/-- `Driver::is_caught_up`. -/
def isCaughtUp (d : Driver σ κ) : Bool :=
  d.caughtUp && d.engine.status.isActive && decide (d.leftAt = some d.enginePoint)

/-- `Driver::status`. -/
def status (d : Driver σ κ) (K : Sink κ σ) : DriverStatus where
  cursor := d.engine.cursor
  lastVerified := d.engine.lastVerified
  engine := d.engine.status
  caughtUp := d.isCaughtUp
  skips := d.engine.skips
  durableCursor := if d.seenResets = d.engine.resets then K.durableCursor d.sink else none
  durabilityLost := d.durabilityLost
  generation := d.generation

/-- `Driver::source_mut`, as far as the driver goes. -/
def sourceMut (d : Driver σ κ) : Driver σ κ := { d with walked := none, vouched := none }

/-! ### Construction -/

/-- `Driver::around`. -/
def around (K : Sink κ σ) (engine : Engine σ) (sink : κ) (initial : σ) (config : DriverConfig) :
    Ask E (Except ConfigError (Driver σ κ)) :=
  Ask.horizon >>= fun horizon =>
    let driver : Driver σ κ :=
      { engine := engine
        sink := if engine.cursor < K.durableCursor sink then K.reset sink else sink
        config := config
        initial := initial
        consecutiveErrors := 0
        caughtUp := false
        generation := 0
        lastCheckpointBlock := none
        lastSnapshotBlock := none
        seenResets := engine.resets
        durabilityLost := false
        advanced := false
        span := MAX_SPAN
        walked := none
        vouched := none
        leftAt := none }
    let driver := if engine.checkpointCount = 0 then driver.autoCheckpoint else driver
    match horizon with
    | .genesis => pure (.ok driver)
    | .fromBlock horizon =>
        if config.startBlock < horizon then
          pure (.error (.horizonExceedsStart config.startBlock horizon))
        else pure (.ok driver)

/-- `Driver::build`, behind `Driver::new` and `Driver::with_sink`. -/
def build (K : Sink κ σ) (fold : σ) (sink : κ) (engineConfig : EngineConfig)
    (config : DriverConfig) : Ask E (Except ConfigError (Driver σ κ)) :=
  match Engine.new fold engineConfig with
  | .error error => pure (.error error)
  | .ok engine => around K engine sink fold config

end Driver

end Works.Chainfold
