import Works.Rotortree.Storage.Recovery
import Works.Rotortree.Calls

/-! # The durable tree

`RotorTree` of `storage/mod.rs` as a state machine.  Two locks order its operations: `state`
(the tree, the buffer of log entries, the next sequence number, the checkpointed chunks) and
`wal_file`, which a flush or a checkpoint holds from beginning to end.  `Holder` says where the
holder of `wal_file` stands; between its steps other threads insert, unless it holds `state`
as well.  A step ends where another thread may run, and where a file is synced, so that a
crash may come between any two of them.

Every I/O call on the log comes with its outcome in the action.  `check_closed` is
asked before any lock is taken, so that a caller who was admitted may run after an error was
latched; such an action is marked `admitted`. -/

namespace Works.Rotortree

open Works.Lib

/-! ### State -/

/-- `LevelCheckpointData`. -/
structure LevelCheckpointData (Hash : Type) where
  newChunks : List (Chunk Hash)
  fromChunk : ℕ
  totalChunks : ℕ

/-- `CheckpointSnap`. -/
structure CheckpointSnap (Hash : Type) where
  depth : ℕ
  leafCount : ℕ
  lastSeq : ℕ
  rootHash : Hash
  levelData : List (LevelCheckpointData Hash)

/-- `BackgroundError`. -/
inductive BackgroundError where
  | flushFailed
  | checkpointFailed
deriving DecidableEq, Repr

/-- The stages of `checkpoint_inner`. -/
inductive CheckpointStage (Hash : Type) where
  /-- Both locks are held; what was in the buffer is written and not yet synced. -/
  | flush
  /-- `state` is released; nothing is written yet. -/
  | header (snap : CheckpointSnap Hash)
  /-- The chunks still to be written. -/
  | write (snap : CheckpointSnap Hash) (writes : List (ShardWrite Hash))
  /-- The files still to be synced. -/
  | sync (snap : CheckpointSnap Hash) (files : List (ℕ × ℕ))
  /-- The metadata is switched. -/
  | remap (snap : CheckpointSnap Hash)
  /-- Both locks are held; the log is cut and not yet synced. -/
  | truncate
  /-- Both locks are held; what was in the buffer is written and not yet synced. -/
  | tail

/-- The holder of `wal_file`. -/
inductive Holder (Hash : Type) where
  | free
  /-- `flush_inner` has taken the buffer, and has written it or not. -/
  | flush (buf : List UInt8) (lastSeq : ℕ) (written : Bool)
  /-- `checkpoint_inner`, called by a user or by the checkpoint thread. -/
  | checkpoint (background : Bool) (stage : CheckpointStage Hash)

/-- An open tree: `Shared`, with the cursor of the log file. -/
structure Shared (Hash : Type) (N MAX_DEPTH : ℕ) where
  inner : TreeInner Hash N MAX_DEPTH
  buffer : List UInt8
  nextSeq : ℕ
  checkpointedChunks : List ℕ
  cursor : ℕ
  snapshot : TreeSnapshot Hash N MAX_DEPTH
  flushed : Option ℕ
  closed : Bool
  bgError : Option BackgroundError
  pinAboveLevel : ℕ
  holder : Holder Hash

/-- A directory, and the tree that is open on it. -/
structure World (Hash : Type) (N MAX_DEPTH : ℕ) where
  disk : Disk Hash
  handle : Option (Shared Hash N MAX_DEPTH)

/-- The outcome of `write_all`: it fails after some of the bytes. -/
inductive WriteResult where
  | writes
  | fails (written : ℕ)
deriving DecidableEq, Repr

/-- The outcome of the calls in `flush_inner` up to the end of the write, with the rollback. -/
inductive FlushResult where
  | positionFails
  | writes
  | fails (written : ℕ) (seekOk setLenOk : Bool)
deriving DecidableEq, Repr

/-- The outcome of the calls that cut the log after a checkpoint, up to the sync. -/
inductive TruncateResult where
  | cuts
  | seekFails
  | headerFails (written : ℕ)
  | setLenFails
deriving DecidableEq, Repr

/-- The steps of the system. -/
inductive Action (Hash : Type) where
  | call (c : Call Hash) (admitted : Bool)
  | flush (admitted : Bool)
  | flushWrite (res : FlushResult)
  | flushSync (ok : Bool)
  | checkpoint (background admitted : Bool) (res : WriteResult)
  | checkpointCapture (ok : Bool)
  | checkpointHeader
  | checkpointWrite
  | checkpointSync
  | checkpointRemap (res : TruncateResult)
  | checkpointTruncated (ok : Bool) (res : WriteResult)
  | checkpointFinish (ok : Bool)
  | close
  | crash (wal : List UInt8) (shards : ℕ → ℕ → Option (List Hash))
  | reopen (pinAboveLevel : ℕ) (verify : Bool) (par : ℕ → ℕ → Bool)

variable {Hash : Type} {N MAX_DEPTH : ℕ}

/-- `DurabilityTracker::mark_flushed`. -/
def markFlushed (flushed : Option ℕ) (seq : ℕ) : Option ℕ :=
  match flushed with
  | some prev => if seq ≤ prev then some prev else some seq
  | none => some seq

/-- `Vec::resize` with zeros. -/
def resize (l : List ℕ) (n : ℕ) : List ℕ := l.take n ++ List.replicate (n - l.length) 0

/-- The log entry of a call. -/
def Call.payload : Call Hash → WalPayload Hash
  | .insert leaf => .single leaf
  | .insertMany _ leaves => .batch leaves

/-- The stages in which the checkpoint holds `state`. -/
def Holder.locksState : Holder Hash → Bool
  | .checkpoint _ .flush => true
  | .checkpoint _ .truncate => true
  | .checkpoint _ .tail => true
  | _ => false

namespace Shared

/-- `check_closed`. -/
def checkClosed (h : Shared Hash N MAX_DEPTH) : Outcome StorageError Unit :=
  if h.closed then .fail .closed
  else match h.bgError with
    | none => pure ()
    | some .flushFailed => .fail .flushFailed
    | some .checkpointFailed => .fail .checkpointFailed

/-- `DurabilityToken::is_durable` of the token for `seq`. -/
def isDurable (h : Shared Hash N MAX_DEPTH) (seq : ℕ) : Bool :=
  match h.flushed with
  | some f => decide (seq ≤ f)
  | none => false

/-- A checkpoint returns an error, which the checkpoint thread latches. -/
def checkpointFails (h : Shared Hash N MAX_DEPTH) (background : Bool) : Shared Hash N MAX_DEPTH :=
  { h with
    holder := .free
    bgError := if background then some .checkpointFailed else h.bgError }

variable [Zero Hash] (W : Wire Hash) (H : Hasher Hash)

/-! ### Insertions -/

/-- `insert` and `insert_many` after `check_closed`: the root and the sequence number of the
token.  The tree changes first; an entry that does not fit into a frame panics after that. -/
def insertCall (fs : ShardFs Hash) (c : Call Hash) :
    Exec (Shared Hash N MAX_DEPTH) StorageError (Hash × ℕ) := fun h =>
  match c.run fs H h.inner with
  | (.error (.err e), inner) => (.fail (.tree e), { h with inner := inner })
  | (.error .panic, inner) => (.panic, { h with inner := inner })
  | (.ok root, inner) =>
      match serializeEntry W h.buffer h.nextSeq c.payload with
      | .error e => (.error e, { h with inner := inner })
      | .ok buffer =>
          if h.nextSeq + 1 < U64_SIZE then
            (.ok (root, h.nextSeq), { h with
              inner := inner
              buffer := buffer
              nextSeq := h.nextSeq + 1
              snapshot := inner.snapshot })
          else (.panic, { h with inner := inner, buffer := buffer })

/-! ### `flush_inner` -/

omit [Zero Hash] in
/-- Take the buffer. -/
def flushTake (h : Shared Hash N MAX_DEPTH) : Shared Hash N MAX_DEPTH :=
  if h.buffer.isEmpty then h
  else { h with buffer := [], holder := .flush h.buffer (h.nextSeq - 1) false }

omit [Zero Hash] in
/-- Write `buf` at the cursor; on an error go back, and put it in front of the buffer again. -/
def flushWrite (buf : List UInt8) (lastSeq : ℕ) (res : FlushResult) (wal : CrashFile UInt8)
    (h : Shared Hash N MAX_DEPTH) : CrashFile UInt8 × Shared Hash N MAX_DEPTH :=
  match res with
  | .positionFails => (wal, { h with holder := .free })
  | .writes =>
      (wal.write h.cursor buf,
        { h with cursor := h.cursor + buf.length, holder := .flush buf lastSeq true })
  | .fails written seekOk setLenOk =>
      let posBefore := h.cursor
      let wal := wal.write posBefore (buf.take written)
      let wal := if setLenOk then wal.setLen posBefore else wal
      (wal, { h with
        cursor := if seekOk then posBefore else posBefore + (buf.take written).length
        buffer := buf ++ h.buffer
        bgError := some .flushFailed
        holder := .free })

omit [Zero Hash] in
/-- Sync and mark. -/
def flushSync (lastSeq : ℕ) (ok : Bool) (wal : CrashFile UInt8) (h : Shared Hash N MAX_DEPTH) :
    CrashFile UInt8 × Shared Hash N MAX_DEPTH :=
  if ok then (wal.sync, { h with flushed := markFlushed h.flushed lastSeq, holder := .free })
  else (wal, { h with bgError := some .flushFailed, holder := .free })

/-! ### `checkpoint_inner` -/

omit [Zero Hash] in
/-- The write of `flush_buffer_locked`, and the stage that follows it. -/
def lockedWrite (background : Bool) (stage : CheckpointStage Hash) (res : WriteResult)
    (wal : CrashFile UInt8) (h : Shared Hash N MAX_DEPTH) :
    CrashFile UInt8 × Shared Hash N MAX_DEPTH :=
  if h.buffer.isEmpty then (wal, { h with holder := .checkpoint background stage })
  else match res with
    | .writes => (wal.write h.cursor h.buffer,
        { h with cursor := h.cursor + h.buffer.length, holder := .checkpoint background stage })
    | .fails written => (wal.write h.cursor (h.buffer.take written),
        { h with cursor := h.cursor + (h.buffer.take written).length }.checkpointFails background)

omit [Zero Hash] in
/-- The sync of `flush_buffer_locked`; `none` when it fails. -/
def lockedSync (ok : Bool) (wal : CrashFile UInt8) (h : Shared Hash N MAX_DEPTH) :
    Option (CrashFile UInt8 × Shared Hash N MAX_DEPTH) :=
  if h.buffer.isEmpty then some (wal, h)
  else if ok then
    some (wal.sync, { h with flushed := markFlushed h.flushed (h.nextSeq - 1), buffer := [] })
  else none

omit [Zero Hash] in
/-- What the checkpoint takes from one level: the chunks after those counted before. -/
def captureLevel (h : Shared Hash N MAX_DEPTH) (k : ℕ) :
    Outcome StorageError (LevelCheckpointData Hash) := do
  let lvl ← (h.inner.level k).mapErr .tree
  let already := h.checkpointedChunks.getD k 0
  let newChunks ← (lvl.chunksSince already).mapErr .tree
  pure ⟨newChunks, already, lvl.len / CHUNK_SIZE⟩

/-- The first half of `checkpoint_inner`, after the flush. -/
def capture (h : Shared Hash N MAX_DEPTH) : Outcome StorageError (CheckpointSnap Hash) := do
  let activeLevels := min h.inner.depth (MAX_DEPTH - 1) + 1
  let levelData ← (List.range activeLevels).mapM h.captureLevel
  pure ⟨h.inner.depth, h.inner.size, h.nextSeq - 1, h.inner.root.getD 0, levelData⟩

omit [Zero Hash] in
/-- One level in the second half of `checkpoint_inner`. -/
def remapLevel (files : ShardFiles Hash) (k : ℕ) (ld : LevelCheckpointData Hash) :
    Exec (Shared Hash N MAX_DEPTH) StorageError Unit := do
  let h ← Exec.get
  if 0 < ld.totalChunks ∧ k < h.pinAboveLevel then do
    let regions ← Exec.lift (mmapLevelShards files k ld.totalChunks)
    let lvl ← Exec.lift ((h.inner.level k).mapErr .tree)
    let lvl' ← Exec.lift (if regions.isEmpty then pure lvl
      else lvl.remapChunks ld.totalChunks regions)
    Exec.modify fun h => { h with
      inner := h.inner.setLevel k lvl'
      checkpointedChunks := h.checkpointedChunks.set k ld.totalChunks }
  else Exec.modify fun h =>
    { h with checkpointedChunks := h.checkpointedChunks.set k ld.totalChunks }

omit [Zero Hash] in
/-- The levels from `k` on. -/
def remapLevels (files : ShardFiles Hash) :
    ℕ → List (LevelCheckpointData Hash) → Exec (Shared Hash N MAX_DEPTH) StorageError Unit
  | _, [] => pure ()
  | k, ld :: lds => do
      remapLevel files k ld
      remapLevels files (k + 1) lds

omit [Zero Hash] in
/-- Cut the log to its header. -/
def truncateWal (background : Bool) (header : List UInt8) (res : TruncateResult)
    (wal : CrashFile UInt8) (h : Shared Hash N MAX_DEPTH) :
    CrashFile UInt8 × Shared Hash N MAX_DEPTH :=
  match res with
  | .seekFails => (wal, h.checkpointFails background)
  | .headerFails written => (wal.write 0 (header.take written),
      { h with cursor := (header.take written).length }.checkpointFails background)
  | .setLenFails => (wal.write 0 header,
      { h with cursor := header.length }.checkpointFails background)
  | .cuts => ((wal.write 0 header).setLen header.length,
      { h with cursor := header.length, holder := .checkpoint background .truncate })

omit [Zero Hash] in
/-- The end of `checkpoint_inner`. -/
def checkpointDone (h : Shared Hash N MAX_DEPTH) : Shared Hash N MAX_DEPTH :=
  { h with snapshot := h.inner.snapshot, holder := .free }

end Shared

namespace CheckpointSnap

/-- The chunks to be written, level by level. -/
def writes (snap : CheckpointSnap Hash) : List (ShardWrite Hash) :=
  (snap.levelData.mapIdx fun k ld => appendChunksToLevel k ld.fromChunk ld.newChunks).flatten

/-- `files_to_sync`. -/
def files (snap : CheckpointSnap Hash) : List (ℕ × ℕ) :=
  (snap.levelData.mapIdx fun k ld => appendedFiles k ld.fromChunk ld.newChunks).flatten

end CheckpointSnap

/-! ### Steps -/

section Step

variable [Zero Hash] [DecidableEq Hash] (W : Wire Hash) (H : Hasher Hash)

/-- `RotorTree::open`. -/
def openTree (pinAboveLevel : ℕ) (verify : Bool) (par : ℕ → ℕ → Bool) (disk : Disk Hash) :
    Outcome StorageError (Shared Hash N MAX_DEPTH × Disk Hash) := do
  let r : RecoveryResult Hash N MAX_DEPTH ←
    if disk.dataDir then recoverWithCheckpoint W H par disk verify
    else recover W H par disk.shards.fs disk.wal
  let checkpointedChunks ← computeInitialLevelFiles W N MAX_DEPTH disk.metaFile
  pure ({
      inner := r.inner
      buffer := []
      nextSeq := r.nextSeq
      checkpointedChunks := checkpointedChunks
      cursor := r.cursor
      snapshot := r.inner.snapshot
      flushed := if 0 < r.nextSeq then some (r.nextSeq - 1) else none
      closed := false
      bgError := none
      pinAboveLevel := pinAboveLevel
      holder := .free },
    { disk with wal := r.wal })

/-- A caller gets past `check_closed`. -/
def Shared.admits (h : Shared Hash N MAX_DEPTH) (admitted : Bool) : Bool :=
  admitted || h.checkClosed.isOk

namespace World

/-- The world after a change of the log and of the open tree. -/
def withWal (w : World Hash N MAX_DEPTH) (r : CrashFile UInt8 × Shared Hash N MAX_DEPTH) :
    World Hash N MAX_DEPTH :=
  ⟨{ w.disk with wal := r.1 }, some r.2⟩

/-- The steps of a checkpoint from one stage to the next. -/
def checkpointStep (w : World Hash N MAX_DEPTH) (h : Shared Hash N MAX_DEPTH)
    (background : Bool) : CheckpointStage Hash → Action Hash → Option (World Hash N MAX_DEPTH)
  | .flush, .checkpointCapture ok =>
      match h.lockedSync ok w.disk.wal with
      | none => some (w.withWal (w.disk.wal, h.checkpointFails background))
      | some (wal, h) =>
          if h.inner.size = 0 then some (w.withWal (wal, { h with holder := .free }))
          else match h.capture with
            | .error _ => none
            | .ok snap =>
                some (w.withWal (wal, { h with holder := .checkpoint background (.header snap) }))
  | .header snap, .checkpointHeader =>
      match writeHeader W N MAX_DEPTH with
      | .error _ => none
      | .ok file => some
          ⟨{ w.disk with dataDir := true, headerFile := some file },
            some { h with holder := .checkpoint background (.write snap snap.writes) }⟩
  | .write snap (c :: writes), .checkpointWrite => some
      ⟨{ w.disk with shards := w.disk.shards.write c },
        some { h with holder := .checkpoint background (.write snap writes) }⟩
  | .write snap [], .checkpointSync => some
      ⟨w.disk, some { h with holder := .checkpoint background (.sync snap snap.files) }⟩
  | .sync snap (f :: files), .checkpointSync => some
      ⟨{ w.disk with shards := w.disk.shards.sync f },
        some { h with holder := .checkpoint background (.sync snap files) }⟩
  | .sync snap [], .checkpointSync =>
      match writeMeta W N MAX_DEPTH snap.lastSeq snap.leafCount snap.depth snap.rootHash with
      | .error _ => none
      | .ok file => some
          ⟨{ w.disk with metaFile := some file },
            some { h with holder := .checkpoint background (.remap snap) }⟩
  | .remap snap, .checkpointRemap res =>
      let h := { h with checkpointedChunks := resize h.checkpointedChunks snap.levelData.length }
      match Shared.remapLevels w.disk.shards 0 snap.levelData h with
      | (.error .panic, _) => none
      | (.error (.err _), h) => some ⟨w.disk, some (h.checkpointFails background)⟩
      | (.ok (), h) =>
          match serializeHeader W N MAX_DEPTH with
          | .error _ => none
          | .ok header => some (w.withWal (h.truncateWal background header res w.disk.wal))
  | .truncate, .checkpointTruncated ok res =>
      if ok then
        if h.buffer.isEmpty then some (w.withWal (w.disk.wal.sync, h.checkpointDone))
        else some (w.withWal (h.lockedWrite background .tail res w.disk.wal.sync))
      else some (w.withWal (w.disk.wal, h.checkpointFails background))
  | .tail, .checkpointFinish ok =>
      match h.lockedSync ok w.disk.wal with
      | none => some (w.withWal (w.disk.wal, h.checkpointFails background))
      | some (wal, h) => some (w.withWal (wal, h.checkpointDone))
  | _, _ => none

/-- A step of an open tree. -/
def handleStep (w : World Hash N MAX_DEPTH) (h : Shared Hash N MAX_DEPTH) :
    Action Hash → Option (World Hash N MAX_DEPTH)
  | .call c admitted =>
      if h.holder.locksState then none
      else if h.admits admitted then some ⟨w.disk, some (h.insertCall W H w.disk.shards.fs c).2⟩
      else some w
  | .flush admitted =>
      match h.holder with
      | .free => if h.admits admitted then some ⟨w.disk, some h.flushTake⟩ else some w
      | _ => none
  | .flushWrite res =>
      match h.holder with
      | .flush buf lastSeq false => some (w.withWal (h.flushWrite buf lastSeq res w.disk.wal))
      | _ => none
  | .flushSync ok =>
      match h.holder with
      | .flush _ lastSeq true => some (w.withWal (h.flushSync lastSeq ok w.disk.wal))
      | _ => none
  | .checkpoint background admitted res =>
      match h.holder with
      | .free =>
          if h.admits admitted then some (w.withWal (h.lockedWrite background .flush res w.disk.wal))
          else some w
      | _ => none
  | .close => some ⟨w.disk, some { h with closed := true }⟩
  | .crash wal shards => some
      ⟨{ w.disk with wal := .synced wal, shards := fun k s => (shards k s).map .synced }, none⟩
  | .reopen _ _ _ => none
  | a =>
      match h.holder with
      | .checkpoint background stage => checkpointStep W w h background stage a
      | _ => none

/-- A step of the system: an open tree acts, or `open` is called on the directory. -/
def step (w : World Hash N MAX_DEPTH) (a : Action Hash) : Option (World Hash N MAX_DEPTH) :=
  match w.handle with
  | some h => handleStep W H w h a
  | none => match a with
      | .reopen pinAboveLevel verify par =>
          match openTree W H pinAboveLevel verify par w.disk with
          | .ok (h, disk) => some ⟨disk, some h⟩
          | .error _ => some w
      | _ => none

/-- An empty directory. -/
def empty : World Hash N MAX_DEPTH := ⟨⟨.synced [], false, none, none, fun _ _ => none⟩, none⟩

end World

end Step

end Works.Rotortree
