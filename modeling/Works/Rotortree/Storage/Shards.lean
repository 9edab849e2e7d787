import Works.Lib.CrashFile
import Works.Rotortree.LevelSpec

/-! # Shard files

The level files of a checkpoint (`storage/checkpoint.rs`) and the operations of
`chunked_level.rs` that put chunks into files and windows onto files into levels.  A level
is kept in files of `CHUNKS_PER_SHARD` chunks each; every write is a whole chunk at a
multiple of the chunk size and hashes have 32 bytes, so that a file is a list of hashes here.

`Chunk.home k i` is the window onto the place of chunk `i` of level `k`, and node `p` of the
level stands at `slotOf p` of file `shardOf p`. -/

namespace Works.Rotortree

open Works.Lib

/-- What an I/O call reports, or the code about a file it looked at. -/
inductive IoError where
  | failed
  | shardMissing (level shard : ℕ)
  | shardTooSmall (level shard fileLen validLen : ℕ)
deriving DecidableEq, Repr

/-- `StorageError`. -/
inductive StorageError where
  | io (e : IoError)
  | crcMismatch (offset expected actual : ℕ)
  | walCorrupted (offset : ℕ)
  | configMismatch (expectedN actualN expectedMaxDepth actualMaxDepth : ℕ)
  | closed
  | tree (e : TreeError)
  | flushFailed
  | checkpointFailed
  | mathError
  | dataCorruption
  | serdeFailed
deriving DecidableEq, Repr

/-- `CHUNK_BYTE_SIZE`. -/
def CHUNK_BYTE_SIZE : ℕ := CHUNK_SIZE * 32

/-- `CHUNKS_PER_SHARD`. -/
def CHUNKS_PER_SHARD : ℕ := 65536

theorem CHUNKS_PER_SHARD_pos : 0 < CHUNKS_PER_SHARD := by decide

/-- `shard_address`: the shard of a chunk and its byte offset there. -/
def shardAddress (chunkIdx : ℕ) : ℕ × ℕ :=
  (chunkIdx / CHUNKS_PER_SHARD, chunkIdx % CHUNKS_PER_SHARD * CHUNK_BYTE_SIZE)

variable {Hash : Type}

/-- The shard files, by level and shard index. -/
abbrev ShardFiles (Hash : Type) := ℕ → ℕ → Option (CrashFile Hash)

/-- What a mapping of a shard file reads. -/
def ShardFiles.fs [Zero Hash] (files : ShardFiles Hash) : ShardFs Hash :=
  fun level shard i => match files level shard with
    | none => 0
    | some f => f.now.getD i 0

/-! ### Windows onto files -/

/-- `Chunk::new_mapped`. -/
def Chunk.newMapped (region : MmapRegion) (offset : ℕ) : Outcome StorageError (Chunk Hash) := do
  Outcome.require (offset + CHUNK_BYTE_SIZE ≤ region.validLen)
  pure (.mapped region offset)

/-- Chunk `i` of a level, from the regions of its shards. -/
def Chunk.mapAt (regions : List MmapRegion) (i : ℕ) : Outcome StorageError (Chunk Hash) := do
  let region ← Outcome.expect regions[(shardAddress i).1]?
  Chunk.newMapped region (shardAddress i).2

/-- The loop of `mmap_level_shards`: `n` shards from `shardIdx` on. -/
def mmapShards (files : ShardFiles Hash) (level validChunks : ℕ) :
    ℕ → ℕ → List MmapRegion → Outcome StorageError (List MmapRegion)
  | 0, _, regions => pure regions
  | n + 1, shardIdx, regions =>
      match files level shardIdx with
      | none => if shardIdx = 0 then pure [] else .fail (.io (.shardMissing level shardIdx))
      | some file =>
          let chunksInShard := min CHUNKS_PER_SHARD (validChunks - shardIdx * CHUNKS_PER_SHARD)
          let validLen := chunksInShard * CHUNK_BYTE_SIZE
          let fileLen := file.now.length * 32
          if fileLen < validLen then .fail (.io (.shardTooSmall level shardIdx fileLen validLen))
          else mmapShards files level validChunks n (shardIdx + 1)
            (regions ++ [⟨level, shardIdx, validLen⟩])

/-- `mmap_level_shards`. -/
def mmapLevelShards (files : ShardFiles Hash) (level validChunks : ℕ) :
    Outcome StorageError (List MmapRegion) :=
  if validChunks = 0 then pure []
  else mmapShards files level validChunks (validChunks ⌈/⌉ CHUNKS_PER_SHARD) 0 []

namespace ChunkedLevel

/-- `from_parts`: full segments first, the rest is pending. -/
def fromParts (chunks : List (Chunk Hash)) (len : ℕ) : ChunkedLevel Hash where
  segments := List.ofFn fun (s : Fin (chunks.length / CHUNKS_PER_SEGMENT))
    (j : Fin CHUNKS_PER_SEGMENT) => chunks.get ⟨s.val * CHUNKS_PER_SEGMENT + j.val, by
      have h1 := Nat.div_mul_le_self chunks.length CHUNKS_PER_SEGMENT
      have h2 := Nat.mul_le_mul_right CHUNKS_PER_SEGMENT (Nat.succ_le_of_lt s.isLt)
      rw [Nat.succ_mul] at h2
      have := j.isLt
      omega⟩
  pending := chunks.drop (chunks.length / CHUNKS_PER_SEGMENT * CHUNKS_PER_SEGMENT)
  len := len

/-- `chunks_since`. -/
def chunksSince (lvl : ChunkedLevel Hash) (already : ℕ) : Outcome TreeError (List (Chunk Hash)) :=
  (List.range (lvl.chunkCount - already)).mapM fun i => lvl.chunk (already + i)

/-- `remap_chunks`: the first `count` chunks become windows. -/
def remapChunks (lvl : ChunkedLevel Hash) (count : ℕ) (regions : List MmapRegion) :
    Outcome StorageError (ChunkedLevel Hash) :=
  let remapCount := min count lvl.chunkCount
  if remapCount = 0 ∨ regions.isEmpty = true then pure lvl
  else do
    let unmapped ← (lvl.chunksSince remapCount).mapErr .tree
    let mapped ← (List.range remapCount).mapM (Chunk.mapAt regions)
    pure ((mapped ++ unmapped).foldl pushChunk ⟨[], [], lvl.len⟩)

end ChunkedLevel

/-! ### Writing chunks -/

/-- One `write_all` of `append_chunks_to_level`; the position is counted in hashes. -/
structure ShardWrite (Hash : Type) where
  level : ℕ
  shard : ℕ
  position : ℕ
  chunk : Chunk Hash

/-- The shards that `count` chunks from `fromChunk` on lie in. -/
def shardRange (fromChunk count : ℕ) : List ℕ :=
  List.range' (fromChunk / CHUNKS_PER_SHARD)
    ((fromChunk + count - 1) / CHUNKS_PER_SHARD + 1 - fromChunk / CHUNKS_PER_SHARD)

/-- `append_chunks_to_level`: the writes it issues, shard by shard.  Every shard file is opened
(or created), and written from the place of its first new chunk on. -/
def appendChunksToLevel (level fromChunk : ℕ) (chunks : List (Chunk Hash)) :
    List (ShardWrite Hash) :=
  if chunks.isEmpty then []
  else (shardRange fromChunk chunks.length).flatMap fun shardIdx =>
    let shardStart := shardIdx * CHUNKS_PER_SHARD
    let localStart := shardStart - fromChunk
    let localEnd := min ((shardIdx + 1) * CHUNKS_PER_SHARD - fromChunk) chunks.length
    let offset := (shardAddress (fromChunk + localStart)).2
    ((chunks.take localEnd).drop localStart).mapIdx fun i c =>
      ⟨level, shardIdx, offset / 32 + i * CHUNK_SIZE, c⟩

/-- The files `append_chunks_to_level` returns, to be synced. -/
def appendedFiles (level fromChunk : ℕ) (chunks : List (Chunk Hash)) : List (ℕ × ℕ) :=
  if chunks.isEmpty then []
  else (shardRange fromChunk chunks.length).map fun shardIdx => (level, shardIdx)

/-- A chunk reaches its file, which is created when it does not exist.  What is written is what
the chunk holds at that moment. -/
def ShardFiles.write [Zero Hash] (files : ShardFiles Hash) (w : ShardWrite Hash) :
    ShardFiles Hash :=
  fun level shard =>
    if level = w.level ∧ shard = w.shard then
      some (((files level shard).getD (.synced [])).write w.position
        (List.ofFn (w.chunk.asSlice files.fs)))
    else files level shard

/-- `sync_data` on one shard file. -/
def ShardFiles.sync (files : ShardFiles Hash) (file : ℕ × ℕ) : ShardFiles Hash :=
  fun level shard =>
    if level = file.1 ∧ shard = file.2 then (files level shard).map CrashFile.sync
    else files level shard

end Works.Rotortree
