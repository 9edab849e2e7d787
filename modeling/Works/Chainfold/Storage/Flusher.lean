import Works.Chainfold.Storage.Store

/-! # The flusher

`flusher.rs`: an apply thread that offers snapshots and resets, a flusher thread that commits them,
a queue between the two.  A step of the system is a step of one thread, up to its next access to
what they share: the slots of the admission gate, the queue, the flag, and the epoch with the
watermark.  A run is any interleaving of such steps.

The flag is an atomic: it may take a while until the apply thread sees it set.  A commit is the
program of the store, with any answers of the filesystem.  The tokens, which only the unit tests
wait for, are left out. -/

namespace Works.Chainfold

open Works.Lib

variable {σ π : Type}

/-- `Job`.  The code has no `number`; it tells the offers apart. -/
structure Job where
  snapshot : List UInt8
  cursor : Cursor
  epoch : UInt64
  number : ℕ
deriving DecidableEq

/-- Where the apply thread is: between calls, or in `submit` before it takes a slot, before it
reads the epoch, or before it sends. -/
inductive Caller where
  | idle
  | admitting (snapshot : List UInt8) (point : Position)
  | stamping (snapshot : List UInt8) (point : Position)
  | sending (job : Job)

/-- Where the flusher thread is: waiting for a job, before it commits one, after a commit that
succeeded or failed, or stopped by a panic. -/
inductive Worker where
  | waiting
  | received (job : Job)
  | committed (job : Job)
  | failed (job : Job)
  | stopped

/-- The two threads and what they share.  `noticed` is the flag as the apply thread sees it. -/
structure Flushing where
  caller : Caller
  worker : Worker
  store : SnapshotStore
  depth : ℕ
  queue : List Job
  available : ℕ
  poisoned : Bool
  noticed : Bool
  epoch : UInt64
  watermark : Cursor
  offers : ℕ

/-- `Flusher::spawn`. -/
def Flushing.spawn (store : SnapshotStore) (queueDepth : ℕ) : Flushing where
  caller := .idle
  worker := .waiting
  store := store
  depth := max queueDepth 1
  queue := []
  available := max queueDepth 1
  poisoned := false
  noticed := false
  epoch := 0
  watermark := store.durableCursor
  offers := 0

/-- How a call of `offer` goes on: there is nothing to submit, durability is lost, or it submits. -/
inductive Entry where
  | nothing
  | lost
  | admitted
deriving DecidableEq

/-- What a step shows. -/
inductive FlushEvent (σ : Type) where
  | offer (engine : Engine σ) (entry : Entry)
  | acquired
  | offered (job : Job)
  | sent (job : Job)
  | disconnected (job : Job)
  | reset
  | received (job : Job)
  | skipped (job : Job)
  | committed (job : Job)
  | failed (job : Job)
  | died (job : Job)
  | published (job : Job)
  | poisoned (job : Job)
  | noticed

/-- A step of the flusher. -/
inductive FlushStep (P : Persist σ π) (W : Wincode) (crc : Crc) :
    Flushing → FlushEvent σ → Flushing → Prop
  /-- `offer` without a durable point. -/
  | nothing {s : Flushing} {engine : Engine σ} (idle : s.caller = .idle)
      (encoded : (engine.encodeDurableSnapshot P W crc []).2 = .ok none) :
      FlushStep P W crc s (.offer engine .nothing) s
  /-- `offer` of a snapshot that cannot be encoded. -/
  | unencodable {s : Flushing} {engine : Engine σ} {error : SnapshotError π}
      (idle : s.caller = .idle)
      (encoded : (engine.encodeDurableSnapshot P W crc []).2 = .error error) :
      FlushStep P W crc s (.offer engine .lost) s
  /-- `submit` sees the flag. -/
  | refuse {s : Flushing} {engine : Engine σ} {bytes : List UInt8} {point : Position}
      (idle : s.caller = .idle)
      (encoded : engine.encodeDurableSnapshot P W crc [] = (bytes, .ok (some point)))
      (noticed : s.noticed = true) : FlushStep P W crc s (.offer engine .lost) s
  | accept {s : Flushing} {engine : Engine σ} {bytes : List UInt8} {point : Position}
      (idle : s.caller = .idle)
      (encoded : engine.encodeDurableSnapshot P W crc [] = (bytes, .ok (some point)))
      (clear : s.noticed = false) :
      FlushStep P W crc s (.offer engine .admitted) { s with caller := .admitting bytes point }
  | acquire {s : Flushing} {bytes : List UInt8} {point : Position}
      (caller : s.caller = .admitting bytes point) (free : 0 < s.available) :
      FlushStep P W crc s .acquired
        { s with caller := .stamping bytes point, available := s.available - 1 }
  /-- `submit` reads the epoch into the job. -/
  | stamp {s : Flushing} {bytes : List UInt8} {point : Position}
      (caller : s.caller = .stamping bytes point) :
      FlushStep P W crc s (.offered ⟨bytes, some point, s.epoch, s.offers⟩)
        { s with
          caller := .sending ⟨bytes, some point, s.epoch, s.offers⟩
          offers := s.offers + 1 }
  | send {s : Flushing} {job : Job} (caller : s.caller = .sending job)
      (running : s.worker ≠ .stopped) (room : s.queue.length < s.depth) :
      FlushStep P W crc s (.sent job) { s with caller := .idle, queue := s.queue ++ [job] }
  /-- `send` without a receiver; the job is dropped. -/
  | disconnect {s : Flushing} {job : Job} (caller : s.caller = .sending job)
      (stopped : s.worker = .stopped) :
      FlushStep P W crc s (.disconnected job)
        { s with caller := .idle, available := s.available + 1 }
  | reset {s : Flushing} (idle : s.caller = .idle) :
      FlushStep P W crc s .reset { s with epoch := s.epoch + 1, watermark := none }
  | receive {s : Flushing} {job : Job} {rest : List Job} (waiting : s.worker = .waiting)
      (queue : s.queue = job :: rest) :
      FlushStep P W crc s (.received job) { s with worker := .received job, queue := rest }
  | skip {s : Flushing} {job : Job} (worker : s.worker = .received job)
      (poisoned : s.poisoned = true) :
      FlushStep P W crc s (.skipped job)
        { s with worker := .waiting, available := s.available + 1 }
  | commit {s : Flushing} {job : Job} {store : SnapshotStore}
      {τ : List (Exchange VfsOp.Answer)} (worker : s.worker = .received job)
      (clear : s.poisoned = false)
      (run : Prog.Runs (s.store.commit crc job.snapshot job.cursor) τ (store, .ok ())) :
      FlushStep P W crc s (.committed job)
        { s with worker := .committed job, store := store }
  | fail {s : Flushing} {job : Job} {store : SnapshotStore} {error : StoreError}
      {τ : List (Exchange VfsOp.Answer)} (worker : s.worker = .received job)
      (clear : s.poisoned = false)
      (run : Prog.Runs (s.store.commit crc job.snapshot job.cursor) τ (store, .fail error)) :
      FlushStep P W crc s (.failed job) { s with worker := .failed job, store := store }
  /-- A panic in `commit` drops the job, the receiver and what is queued. -/
  | die {s : Flushing} {job : Job} {store : SnapshotStore}
      {τ : List (Exchange VfsOp.Answer)} (worker : s.worker = .received job)
      (clear : s.poisoned = false)
      (run : Prog.Runs (s.store.commit crc job.snapshot job.cursor) τ (store, .panic)) :
      FlushStep P W crc s (.died job)
        { s with
          worker := .stopped, store := store, queue := []
          available := s.available + (s.queue.length + 1) }
  /-- A commit moves the watermark in its own epoch only. -/
  | publish {s : Flushing} {job : Job} (worker : s.worker = .committed job) :
      FlushStep P W crc s (.published job)
        { s with
          worker := .waiting
          watermark := if s.epoch = job.epoch then s.store.durableCursor else s.watermark
          available := s.available + 1 }
  /-- `poison_and_report`. -/
  | poison {s : Flushing} {job : Job} (worker : s.worker = .failed job) :
      FlushStep P W crc s (.poisoned job)
        { s with worker := .waiting, poisoned := true, available := s.available + 1 }
  /-- The apply thread sees the flag. -/
  | notice {s : Flushing} (poisoned : s.poisoned = true) :
      FlushStep P W crc s .noticed { s with noticed := true }

/-- A run from one state to another, with what its steps showed, the latest first. -/
inductive FlushRun (P : Persist σ π) (W : Wincode) (crc : Crc) (s₀ : Flushing) :
    List (FlushEvent σ) → Flushing → Prop
  | start : FlushRun P W crc s₀ [] s₀
  | step {τ : List (FlushEvent σ)} {s s' : Flushing} {ev : FlushEvent σ}
      (run : FlushRun P W crc s₀ τ s) (step : FlushStep P W crc s ev s') :
      FlushRun P W crc s₀ (ev :: τ) s'

end Works.Chainfold
