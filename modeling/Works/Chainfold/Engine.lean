import Works.Chainfold.Batch
import Works.Chainfold.Checkpoint

/-! # The fold engine

`Engine` of `engine.rs`.  An operation returns the engine it leaves together with its result,
so that an early exit keeps what was done before it.  The counter of skipped events is a
natural number; the counter of resets wraps as in the source.  A fold that panics is not
modelled: its engine stays poisoned and only a rollback or a reset leaves that state. -/

namespace Works.Chainfold

variable {σ E ε : Type}

/-- `MIN_RING_CAPACITY`. -/
def MIN_RING_CAPACITY : ℕ := 2

/-- `MAX_RING_CAPACITY`. -/
def MAX_RING_CAPACITY : ℕ := 2 ^ 20

/-- `MAX_CHECKPOINT_SLOTS`. -/
def MAX_CHECKPOINT_SLOTS : ℕ := 2 ^ 16

/-- `EngineConfig`. -/
structure EngineConfig where
  ringCapacity : ℕ
  checkpointSlots : ℕ
deriving DecidableEq, Repr

namespace EngineConfig

/-- `EngineConfig::validate`. -/
def validate (c : EngineConfig) : Except ConfigError Unit :=
  if ¬ c.ringCapacity.isPowerOfTwo then .error (.ringCapacityNotPowerOfTwo c.ringCapacity)
  else if ¬ (MIN_RING_CAPACITY ≤ c.ringCapacity ∧ c.ringCapacity ≤ MAX_RING_CAPACITY) then
    .error (.ringCapacityOutOfRange c.ringCapacity)
  else if MAX_CHECKPOINT_SLOTS < c.checkpointSlots then
    .error (.checkpointSlotsOutOfRange c.checkpointSlots)
  else .ok ()

theorem isPowerOfTwo_of_validate {c : EngineConfig} {u : Unit} (h : c.validate = .ok u) :
    c.ringCapacity.isPowerOfTwo := by
  unfold validate at h
  split_ifs at h with h1
  exact h1

end EngineConfig

/-- `ApplySummary`. -/
structure ApplySummary where
  applied : ℕ
  deduped : ℕ
  skipped : ℕ
deriving DecidableEq, Repr

/-- `ApplySummary::default`. -/
def ApplySummary.zero : ApplySummary := ⟨0, 0, 0⟩

/-- `Engine`. -/
structure Engine (σ : Type) where
  fold : σ
  cursor : Cursor
  ring : BlockRing
  checkpoints : CheckpointRing σ
  status : EngineStatus
  lastVerified : Option BlockRef
  skips : ℕ
  resets : UInt64

namespace Engine

/-- The engine `Engine::new` builds once the configuration is accepted. -/
def fresh (fold : σ) (config : EngineConfig) (h : config.ringCapacity.isPowerOfTwo) :
    Engine σ where
  fold := fold
  cursor := none
  ring := BlockRing.withCapacity config.ringCapacity h
  checkpoints := CheckpointRing.new config.checkpointSlots
  status := .active
  lastVerified := none
  skips := 0
  resets := 0

/-- `Engine::new`. -/
def new (fold : σ) (config : EngineConfig) : Except ConfigError (Engine σ) :=
  match h : config.validate with
  | .error e => .error e
  | .ok _ => .ok (fresh fold config (EngineConfig.isPowerOfTwo_of_validate h))

/-- `Engine::observed`, collected. -/
def observed (e : Engine σ) : List BlockRef := e.ring.iter

/-- `Engine::checkpoint_count`. -/
def checkpointCount (e : Engine σ) : ℕ := e.checkpoints.count e.ring

/-- `Engine::durable_point`. -/
def durablePoint (e : Engine σ) : Cursor := (e.checkpoints.oldest e.ring).bind (·.cursor)

/-! ### Applying a batch -/

/-- `Engine::advance`. -/
def advance (e : Engine σ) (number : ℕ) (hash : Hash) (pos : Position) : Engine σ :=
  if e.ring.newestNumber.all fun newest => decide (newest < number) then
    { e with
      ring := e.ring.push ⟨number, hash⟩
      lastVerified := some ⟨number, hash⟩
      cursor := some pos }
  else { e with cursor := some pos }

/-- `Engine::consumed_through`. -/
def consumedThrough (e : Engine σ) (span : SpanView E) (indices : List ℕ) (offset : ℕ) :
    Engine σ :=
  match (if offset = 0 then none else indices[offset - 1]?) with
  | some logIndex => e.advance span.number span.hash ⟨span.number, logIndex⟩
  | none => e

/-- The loop of `Engine::apply_span` over the events left after dedup. -/
def applyEvents (A : Fold σ E ε) (span : SpanView E) (indices : List ℕ) :
    ℕ → List (ℕ × E) → Engine σ → ApplySummary →
      Engine σ × Except (ApplyError ε) ApplySummary
  | _, [], e, summary => (e, .ok summary)
  | offset, (logIndex, event) :: rest, e, summary =>
      match A.apply e.fold ⟨span.number, logIndex⟩ event with
      | (fold, .ok ()) =>
          applyEvents A span indices (offset + 1) rest { e with fold := fold }
            { summary with applied := summary.applied + 1 }
      | (fold, .error (.skip _)) =>
          applyEvents A span indices (offset + 1) rest
            { e with fold := fold, skips := e.skips + 1 }
            { summary with skipped := summary.skipped + 1 }
      | (fold, .error (.halt error)) =>
          ({ consumedThrough { e with fold := fold } span indices offset with
              status := .halted ⟨span.number, logIndex⟩ },
            .error (.halted ⟨span.number, logIndex⟩ error))
      | (fold, .error (.poison error)) =>
          ({ consumedThrough { e with fold := fold } span indices offset with
              status := .poisoned ⟨span.number, logIndex⟩ },
            .error (.poisoned ⟨span.number, logIndex⟩ error))

/-- How many events of a span are at or below the cursor; `partition_point` on the sorted log
indices of the cursor block. -/
def dedupCount (cursor : Cursor) (span : SpanView E) : ℕ :=
  match cursor with
  | none => 0
  | some c =>
      if c.block < span.number then 0
      else if span.number < c.block then span.logIndices.length
      else (span.logIndices.takeWhile fun index => decide (index ≤ c.logIndex)).length

/-- `Engine::apply_span`. -/
def applySpan (A : Fold σ E ε) (e : Engine σ) (span : SpanView E) (summary : ApplySummary) :
    Engine σ × Except (ApplyError ε) ApplySummary :=
  let deduped := dedupCount e.cursor span
  let summary := { summary with deduped := summary.deduped + deduped }
  let indices := span.logIndices.drop deduped
  let events := span.events.drop deduped
  match indices.getLast? with
  | none => (e, .ok summary)
  | some last =>
      match applyEvents A span indices 0 (indices.zip events) e summary with
      | (e, .ok summary) => (e.advance span.number span.hash ⟨span.number, last⟩, .ok summary)
      | (e, .error error) => (e, .error error)

/-- The hash the fork check of a span compares with: that of an observed block at or below the
cursor. -/
def observedHash (e : Engine σ) (span : SpanView E) : Option Hash :=
  if e.cursor.any fun c => decide (span.number ≤ c.block) then e.ring.hashAt span.number else none

/-- `fork_suspected`. -/
def forkSuspected (number : ℕ) (observedHash : Hash) (refetched : BlockRef) : ApplyError ε :=
  .forkSuspected ⟨number, observedHash⟩ refetched

/-- The loop of `Engine::apply_batch` over the spans. -/
def applySpans (A : Fold σ E ε) : List (SpanView E) → Engine σ → ApplySummary →
    Engine σ × Except (ApplyError ε) ApplySummary
  | [], e, summary => ({ e with status := .active }, .ok summary)
  | span :: spans, e, summary =>
      match (e.observedHash span).filter fun h => !decide (h = span.hash) with
      | some hash =>
          ({ e with status := .active }, .error (forkSuspected span.number hash span.block))
      | none =>
          match applySpan A e span summary with
          | (e, .ok summary) => applySpans A spans e summary
          | (e, .error error) => (e, .error error)

/-- The boundary check of `Engine::apply_batch`: the block it confirms, when there is a
cursor. -/
def checkBoundary (e : Engine σ) (boundary : Option BlockRef) :
    Except (ApplyError ε) (Option BlockRef) :=
  match e.cursor with
  | none => .ok none
  | some cursor => match boundary with
      | none => .error .missingBoundary
      | some boundary =>
          if boundary.number ≠ cursor.block then
            .error (.boundaryNumberMismatch cursor.block boundary.number)
          else match e.ring.hashAt cursor.block with
            | none => .error (.cursorBlockUnobserved cursor.block)
            | some hash =>
                if hash ≠ boundary.hash then .error (forkSuspected cursor.block hash boundary)
                else .ok (some boundary)

/-- `Engine::apply_batch`. -/
def applyBatch (A : Fold σ E ε) (e : Engine σ) (batch : Batch E) :
    Engine σ × Except (ApplyError ε) ApplySummary :=
  if e.status.isActive then
    match batch.validate with
    | .error error => (e, .error (.shape error))
    | .ok () => match e.checkBoundary batch.boundary with
        | .error error => (e, .error error)
        | .ok verified =>
            applySpans A batch.spans
              { e with
                lastVerified := verified.or e.lastVerified
                status := .poisoned (e.cursor.getD ⟨0, 0⟩) }
              ApplySummary.zero
  else (e, .error (.notActive e.status))

/-! ### Checkpoints and restarts -/

/-- `Engine::checkpoint`. -/
def checkpoint (e : Engine σ) : Engine σ :=
  if e.status.isActive then { e with checkpoints := e.checkpoints.store ⟨e.fold, e.cursor⟩ }
  else e

/-- The ring truncated to a cursor. -/
def ringAt (ring : BlockRing) : Cursor → BlockRing
  | some cursor => ring.truncateAbove cursor.block
  | none => ring.clear

/-- The engine restored to a slot. -/
def restore (e : Engine σ) (slot : Slot σ) : Engine σ :=
  { e with
    fold := slot.fold
    cursor := slot.cursor
    ring := ringAt e.ring slot.cursor
    status := .active
    lastVerified := none
    checkpoints := e.checkpoints.dropNewer slot.cursor }

/-- `Engine::rollback_at_or_below`. -/
def rollbackAtOrBelow (e : Engine σ) (block : ℕ) : Engine σ × Except RollbackError Cursor :=
  match e.status with
  | .unrecoverable cause => (e, .error (.unrecoverable cause))
  | _ => match e.checkpoints.bestAtOrBelow block e.ring with
      | none => (e, .error (.noCheckpointAtOrBelow block))
      | some slot => (e.restore slot, .ok slot.cursor)

/-- `Engine::reset`. -/
def reset (e : Engine σ) (fold : σ) : Engine σ :=
  { e with
    ring := e.ring.clear
    checkpoints := e.checkpoints.clear
    fold := fold
    cursor := none
    status := .active
    lastVerified := none
    skips := 0
    resets := e.resets + 1 }

/-- `Engine::mark_unrecoverable`. -/
def markUnrecoverable (e : Engine σ) (cause : DivergenceCause) : Engine σ :=
  { e with status := .unrecoverable cause }

end Engine

end Works.Chainfold
