import Works.Rotortree.Storage.Wal
import Works.Rotortree.Tree

/-! # Recovery

`storage/recovery.rs`: the tree is read back from the log, or from the level files of the last
checkpoint and the entries the log has after it.  The loop over the entries runs on fuel;
every entry takes at least eight bytes, so that the length of the data is enough.  Recovery
leaves the log cut to its last whole entry, with the cursor behind it. -/

namespace Works.Rotortree

open Works.Lib

/-- The directory of a tree: the log, and under `data` the files of the checkpoint. -/
structure Disk (Hash : Type) where
  wal : CrashFile UInt8
  dataDir : Bool
  headerFile : Option (List UInt8)
  metaFile : Option (List UInt8)
  shards : ShardFiles Hash

/-- `RecoveryResult`, with the log file and its cursor as recovery leaves them. -/
structure RecoveryResult (Hash : Type) (N MAX_DEPTH : ℕ) where
  inner : TreeInner Hash N MAX_DEPTH
  nextSeq : ℕ
  wal : CrashFile UInt8
  cursor : ℕ

variable {Hash : Type} {N MAX_DEPTH : ℕ}

/-! ### `recompute_root` -/

/-- `_hash_group`. -/
def hashGroup (H : Hasher Hash) (N : ℕ) (current : List Hash) (parentIdx len : ℕ) :
    Outcome StorageError Hash :=
  let start := parentIdx * N
  let stop := min (start + N) len
  let tally := stop - start
  if tally = 1 then Outcome.expect current[start]?
  else pure (H.hashChildren ((current.take stop).drop start))

/-- The loop of `recompute_root`: `depth` times the parents of the frontier. -/
def recomputeLevels (H : Hasher Hash) (N : ℕ) : ℕ → List Hash → Outcome StorageError (List Hash)
  | 0, frontier => pure frontier
  | depth + 1, frontier => do
      let parents ← (List.range (frontier.length ⌈/⌉ N)).mapM fun parentIdx =>
        hashGroup H N frontier parentIdx frontier.length
      recomputeLevels H N depth parents

/-- `Result::ok`: errors become `none`, panics stay. -/
def okOrNone {α : Type} : Outcome TreeError α → Outcome StorageError (Option α)
  | .ok a => .ok (some a)
  | .error (.err _) => .ok none
  | .error .panic => .panic

/-- `recompute_root`: the root over the leaf level, bottom-up. -/
def recomputeRoot (fs : ShardFs Hash) (H : Hasher Hash) (t : TreeInner Hash N MAX_DEPTH) :
    Outcome StorageError (Option Hash) := do
  if t.size = 0 then pure none
  else
    let level0 ← (t.level 0).mapErr .tree
    if t.size = 1 then okOrNone (level0.get fs 0)
    else
      match ← okOrNone ((List.range level0.len).mapM (level0.get fs)) with
      | none => pure none
      | some frontier => do
          let top ← recomputeLevels H N t.depth frontier
          pure top.head?

variable [Zero Hash] (W : Wire Hash) (H : Hasher Hash) (par : ℕ → ℕ → Bool) (fs : ShardFs Hash)

/-! ### Replay -/

/-- `_insert_many` on the tree under recovery. -/
def insertManyInto (leaves : List Hash) (inner : TreeInner Hash N MAX_DEPTH) :
    Outcome StorageError (TreeInner Hash N MAX_DEPTH) :=
  match insertMany fs H par leaves inner with
  | (.ok _, inner') => .ok inner'
  | (.error (.err e), _) => .fail (.tree e)
  | (.error .panic, _) => .panic

/-- `flush_pending`. -/
def flushPending (inner : TreeInner Hash N MAX_DEPTH) (pending : List Hash) :
    Outcome StorageError (TreeInner Hash N MAX_DEPTH) :=
  if pending.isEmpty then pure inner else insertManyInto H par fs pending inner

/-- The entries up to `skip_until_seq` are not replayed. -/
def shouldReplay (skipUntilSeq : Option ℕ) (seq : ℕ) : Bool :=
  match skipUntilSeq with
  | some skip => skip < seq
  | none => true

/-- One entry: a single leaf waits in `pending_singles`, a batch goes in after those waiting. -/
def replayEntry (skipUntilSeq : Option ℕ) (entry : WalEntry Hash) (pending : List Hash)
    (inner : TreeInner Hash N MAX_DEPTH) :
    Outcome StorageError (List Hash × TreeInner Hash N MAX_DEPTH) :=
  if shouldReplay skipUntilSeq entry.seq then
    match entry.payload with
    | .single leaf => pure (pending ++ [leaf], inner)
    | .batch leaves => do
        let inner ← flushPending H par fs inner pending
        let inner ← insertManyInto H par fs leaves inner
        pure ([], inner)
  else pure (pending, inner)

/-- The loop of `replay_wal_entries`. -/
def replayLoop (data : List UInt8) (skipUntilSeq : Option ℕ) :
    ℕ → ℕ → Option ℕ → List Hash → TreeInner Hash N MAX_DEPTH →
      Outcome StorageError (TreeInner Hash N MAX_DEPTH × Option ℕ × ℕ)
  | 0, _, _, _, _ => .panic
  | fuel + 1, offset, lastSeq, pending, inner => do
      match ← deserializeEntry W data offset lastSeq with
      | none => do
          let inner ← flushPending H par fs inner pending
          pure (inner, lastSeq, offset)
      | some (entry, consumed) => do
          let (pending, inner) ← replayEntry H par fs skipUntilSeq entry pending inner
          replayLoop data skipUntilSeq fuel (offset + consumed) (some entry.seq) pending inner

/-- `replay_wal_entries`: the tree, the last sequence number and the end of the last entry. -/
def replayWalEntries (entryData : List UInt8) (inner : TreeInner Hash N MAX_DEPTH)
    (skipUntilSeq : Option ℕ) :
    Outcome StorageError (TreeInner Hash N MAX_DEPTH × Option ℕ × ℕ) :=
  replayLoop W H par fs entryData skipUntilSeq (entryData.length + 1) 0 none [] inner

/-- `s.checked_add(1)` of a sequence number. -/
def nextAfter (seq : ℕ) : Outcome StorageError ℕ :=
  if seq + 1 < U64_SIZE then .ok (seq + 1) else .fail .mathError

/-- The part of `recover` and `recover_with_checkpoint` that reads a log file that is not empty:
the tree, the last sequence number, and the file cut at the end of the last entry. -/
def replayFile (wal : CrashFile UInt8) (inner : TreeInner Hash N MAX_DEPTH)
    (skipUntilSeq : Option ℕ) :
    Outcome StorageError (TreeInner Hash N MAX_DEPTH × Option ℕ × CrashFile UInt8 × ℕ) := do
  let (n, maxDepth, headerSize) ← deserializeHeader W wal.now
  if n ≠ N % U32_SIZE ∨ maxDepth ≠ MAX_DEPTH % U32_SIZE then
    .fail (.configMismatch (N % U32_SIZE) n (MAX_DEPTH % U32_SIZE) maxDepth)
  else
    let (inner, lastSeq, validOffset) ←
      replayWalEntries W H par fs (wal.now.drop headerSize) inner skipUntilSeq
    let validEnd := headerSize + validOffset
    let wal := if validEnd < wal.now.length then (wal.setLen validEnd).sync else wal
    pure (inner, lastSeq, wal, validEnd)

/-- `recover`. -/
def recover (wal : CrashFile UInt8) : Outcome StorageError (RecoveryResult Hash N MAX_DEPTH) := do
  if wal.now.length = 0 then
    let buf ← serializeHeader W N MAX_DEPTH
    pure ⟨TreeInner.new, 0, (wal.write 0 buf).sync, buf.length⟩
  else
    let (inner, lastSeq, wal, cursor) ← replayFile W H par fs wal TreeInner.new none
    match lastSeq with
    | none => pure ⟨inner, 0, wal, cursor⟩
    | some s => do
        let nextSeq ← nextAfter s
        pure ⟨inner, nextSeq, wal, cursor⟩

/-! ### Checkpoint data -/

/-- `level_lens[k]`: the number of nodes of a level, from the number of leaves. -/
def levelLen (N leafCount : ℕ) : ℕ → ℕ
  | 0 => leafCount
  | k + 1 => levelLen N leafCount k ⌈/⌉ N

omit [Zero Hash] in
/-- One level of a checkpoint: every chunk on disk, including a partial last one. -/
def recoverLevel (files : ShardFiles Hash) (N leafCount k : ℕ) :
    Outcome StorageError (ChunkedLevel Hash) := do
  let len := levelLen N leafCount k
  if len = 0 then pure ChunkedLevel.new
  else
    let numChunks := len ⌈/⌉ CHUNK_SIZE
    let regions ← mmapLevelShards files k numChunks
    if regions.isEmpty then pure (ChunkedLevel.fromParts [] len)
    else
      let chunks ← (List.range numChunks).mapM (Chunk.mapAt regions)
      pure (ChunkedLevel.fromParts chunks len)

omit [Zero Hash] in
/-- The tree of a checkpoint. -/
def loadCheckpoint (files : ShardFiles Hash) (m : MetaFrame Hash) :
    Outcome StorageError (TreeInner Hash N MAX_DEPTH) := do
  let active := min m.depth (MAX_DEPTH - 1) + 1
  let levels ← (List.range active).mapM (recoverLevel files N m.leafCount)
  pure {
    levels := fun k => levels.getD k ChunkedLevel.new
    root := if 0 < m.leafCount then some m.rootHash else none
    size := m.leafCount
    depth := m.depth }

/-- The end of `recover_with_checkpoint`: the entries of the log that are not in the
checkpoint. -/
def replayDelta (wal : CrashFile UInt8) (inner : TreeInner Hash N MAX_DEPTH) (lastWalSeq : ℕ) :
    Outcome StorageError (RecoveryResult Hash N MAX_DEPTH) := do
  if wal.now.length = 0 then
    let buf ← serializeHeader W N MAX_DEPTH
    let nextSeq ← nextAfter lastWalSeq
    pure ⟨inner, nextSeq, (wal.write 0 buf).sync, buf.length⟩
  else
    let (inner, lastSeq, wal, cursor) ← replayFile W H par fs wal inner (some lastWalSeq)
    let nextSeq ← nextAfter (lastSeq.getD lastWalSeq)
    pure ⟨inner, nextSeq, wal, cursor⟩

/-- `recover_with_checkpoint`: without valid checkpoint files the log is all there is. -/
def recoverWithCheckpoint [DecidableEq Hash] (disk : Disk Hash) (verify : Bool) :
    Outcome StorageError (RecoveryResult Hash N MAX_DEPTH) := do
  match ← readMeta W disk.metaFile with
  | none => recover W H par disk.shards.fs disk.wal
  | some m =>
      if m.n ≠ N % U32_SIZE ∨ m.maxDepth ≠ MAX_DEPTH % U32_SIZE then
        recover W H par disk.shards.fs disk.wal
      else
        match ← readHeader W disk.headerFile with
        | none => recover W H par disk.shards.fs disk.wal
        | some h =>
            if h.n = N % U32_SIZE ∧ h.maxDepth = MAX_DEPTH % U32_SIZE ∧
                h.chunkSize = CHUNK_SIZE % U32_SIZE then do
              let inner : TreeInner Hash N MAX_DEPTH ← loadCheckpoint disk.shards m
              if verify ∧ 0 < m.leafCount then do
                let computed ← recomputeRoot disk.shards.fs H inner
                if computed ≠ inner.root then .fail .dataCorruption
                else replayDelta W H par disk.shards.fs disk.wal inner m.lastWalSeq
              else replayDelta W H par disk.shards.fs disk.wal inner m.lastWalSeq
            else recover W H par disk.shards.fs disk.wal

omit [Zero Hash] in
/-- `compute_initial_level_files`: the chunks of each level that the last checkpoint counted. -/
def computeInitialLevelFiles (N MAX_DEPTH : ℕ) (metaFile : Option (List UInt8)) :
    Outcome StorageError (List ℕ) := do
  match ← readMeta W metaFile with
  | none => pure []
  | some m =>
      if m.leafCount = 0 then pure []
      else
        let active := min m.depth (MAX_DEPTH - 1) + 1
        pure ((List.range active).map fun k => levelLen N m.leafCount k / CHUNK_SIZE)

end Works.Rotortree
