import Works.Rotortree.Basic

/-! # Chunked levels

The storage of one tree level (`chunked_level.rs`): chunks of `CHUNK_SIZE` hashes, committed
chunks grouped into immutable segments of `CHUNKS_PER_SEGMENT` and the younger ones in
`pending`.  A chunk is either in memory or a window onto a shard file (`Chunk.mapped`),
which reads whatever the file holds *now*: every reading operation takes the current file
contents `fs`.  Sharing is by value: `Arc` clones are copies, and `make_mut` turns a mapped
chunk into a private one.

The last section forgets the segments: `chunks` is the list of all chunks, and every
operation that moves chunks is an operation on that list. -/

namespace Works.Rotortree

open Works.Lib

/-- Number of hashes per chunk for structural sharing. -/
def CHUNK_SIZE : ℕ := 128

/-- Number of chunks per immutable segment. -/
def CHUNKS_PER_SEGMENT : ℕ := 256

theorem CHUNK_SIZE_pos : 0 < CHUNK_SIZE := by decide

theorem CHUNKS_PER_SEGMENT_pos : 0 < CHUNKS_PER_SEGMENT := by decide

/-- The contents of the shard files: level, shard and position (in hashes) within the file. -/
abbrev ShardFs (Hash : Type) := ℕ → ℕ → ℕ → Hash

/-- `MmapRegion`: a mapping of one shard file, of which `validLen` bytes may be read. -/
structure MmapRegion where
  level : ℕ
  shard : ℕ
  validLen : ℕ
deriving DecidableEq, Repr

/-- `Chunk`. -/
inductive Chunk (Hash : Type) where
  | memory (data : Fin CHUNK_SIZE → Hash)
  | mapped (region : MmapRegion) (offset : ℕ)

/-- `ChunkedLevel`. -/
structure ChunkedLevel (Hash : Type) where
  segments : List (Fin CHUNKS_PER_SEGMENT → Chunk Hash)
  pending : List (Chunk Hash)
  len : ℕ

variable {Hash : Type}

/-- `Chunk::as_slice`: the hashes of a chunk; offsets are in bytes, hashes have 32 of them. -/
def Chunk.asSlice (fs : ShardFs Hash) : Chunk Hash → Fin CHUNK_SIZE → Hash
  | .memory data => data
  | .mapped region offset => fun i => fs region.level region.shard (offset / 32 + i)

/-- The chunk is a window onto a shard file. -/
def Chunk.IsMapped : Chunk Hash → Prop
  | .memory _ => False
  | .mapped _ _ => True

namespace ChunkedLevel

variable (fs : ShardFs Hash)

/-- `ChunkedLevel::new`. -/
def new : ChunkedLevel Hash := ⟨[], [], 0⟩

/-- `chunk_count`. -/
def chunkCount (lvl : ChunkedLevel Hash) : ℕ :=
  lvl.segments.length * CHUNKS_PER_SEGMENT + lvl.pending.length

/-- `chunk`: committed chunks live in the segments, the others in `pending`. -/
def chunk (lvl : ChunkedLevel Hash) (chunkIdx : ℕ) : Outcome TreeError (Chunk Hash) :=
  let committed := lvl.segments.length * CHUNKS_PER_SEGMENT
  if chunkIdx < committed then do
    let seg ← Outcome.expect lvl.segments[chunkIdx / CHUNKS_PER_SEGMENT]?
    FixedArray.index seg (chunkIdx % CHUNKS_PER_SEGMENT)
  else
    Outcome.expect lvl.pending[chunkIdx - committed]?

/-- `chunk_slice`. -/
def chunkSlice (lvl : ChunkedLevel Hash) (chunkIdx : ℕ) :
    Outcome TreeError (Fin CHUNK_SIZE → Hash) := do
  let c ← lvl.chunk chunkIdx
  pure (c.asSlice fs)

/-- `get`. -/
def get (lvl : ChunkedLevel Hash) (index : ℕ) : Outcome TreeError Hash :=
  if lvl.len ≤ index then .fail (.indexOutOfRange index lvl.len)
  else do
    let s ← lvl.chunkSlice fs (index / CHUNK_SIZE)
    FixedArray.index s (index % CHUNK_SIZE)

/-- The runs of `[idx, idx + remaining)`, one per chunk; every run has at least one hash, so
`remaining` rounds suffice. -/
def runsFrom (lvl : ChunkedLevel Hash) : ℕ → ℕ → ℕ → Outcome TreeError (List (List Hash))
  | 0, _, _ => pure []
  | fuel + 1, idx, remaining =>
      if remaining = 0 then pure []
      else do
        let offset := idx % CHUNK_SIZE
        let take := min (CHUNK_SIZE - offset) remaining
        let s ← lvl.chunkSlice fs (idx / CHUNK_SIZE)
        let run ← FixedArray.slice s offset (offset + take)
        let rest ← runsFrom lvl fuel (idx + take) (remaining - take)
        pure (run :: rest)

/-- `runs`. -/
def runs (lvl : ChunkedLevel Hash) (start count : ℕ) : Outcome TreeError (List (List Hash)) := do
  Outcome.require (start + count ≤ lvl.len)
  lvl.runsFrom fs count start count

/-- `get_group`: the hashes `[start, start + count)`, in the order they are copied out. -/
def getGroup (lvl : ChunkedLevel Hash) (start count : ℕ) : Outcome TreeError (List Hash) := do
  let rs ← lvl.runs fs start count
  pure rs.flatten

/-- `chunk_slice_mut` followed by a write: the chunk becomes private and is rewritten. -/
def chunkSliceMut (lvl : ChunkedLevel Hash) (chunkIdx : ℕ)
    (write : (Fin CHUNK_SIZE → Hash) → Outcome TreeError (Fin CHUNK_SIZE → Hash)) :
    Outcome TreeError (ChunkedLevel Hash) :=
  let committed := lvl.segments.length * CHUNKS_PER_SEGMENT
  if chunkIdx < committed then do
    let segIdx := chunkIdx / CHUNKS_PER_SEGMENT
    let segOff := chunkIdx % CHUNKS_PER_SEGMENT
    let seg ← Outcome.expect lvl.segments[segIdx]?
    let c ← FixedArray.index seg segOff
    let data ← write (c.asSlice fs)
    let seg' ← FixedArray.setAt seg segOff (.memory data)
    pure { lvl with segments := lvl.segments.set segIdx seg' }
  else do
    let c ← Outcome.expect lvl.pending[chunkIdx - committed]?
    let data ← write (c.asSlice fs)
    pure { lvl with pending := lvl.pending.set (chunkIdx - committed) (.memory data) }

/-- `push_chunk`, with `freeze_pending` when the buffer is full. -/
def pushChunk (lvl : ChunkedLevel Hash) (c : Chunk Hash) : ChunkedLevel Hash :=
  let pending := lvl.pending ++ [c]
  if h : pending.length = CHUNKS_PER_SEGMENT then
    { lvl with segments := lvl.segments ++ [fun i => pending.get (i.cast h.symm)], pending := [] }
  else
    { lvl with pending := pending }

/-- `set_preallocated`. -/
def setPreallocated (lvl : ChunkedLevel Hash) (index : ℕ) (value : Hash) :
    Outcome TreeError (ChunkedLevel Hash) := do
  Outcome.require (index < lvl.len)
  lvl.chunkSliceMut fs (index / CHUNK_SIZE) fun data =>
    FixedArray.setAt data (index % CHUNK_SIZE) value

/-- A `fill` closure: the hashes it writes when given an offset and a number of slots. -/
abbrev Fill (Hash : Type) := ℕ → ℕ → Outcome TreeError (List Hash)

/-- The loop of `write_with`. -/
def writeFrom (start count : ℕ) (fill : Fill Hash) :
    ℕ → ℕ → ChunkedLevel Hash → Outcome TreeError (ChunkedLevel Hash)
  | 0, _, lvl => pure lvl
  | fuel + 1, done, lvl =>
      if count ≤ done then pure lvl
      else do
        let idx := start + done
        let offset := idx % CHUNK_SIZE
        let take := min (CHUNK_SIZE - offset) (count - done)
        let lvl' ← lvl.chunkSliceMut fs (idx / CHUNK_SIZE) fun data => do
          let xs ← fill done take
          FixedArray.copyFromSlice data offset (offset + take) xs
        writeFrom start count fill fuel (done + take) lvl'

/-- `write_with`: overwrite `[start, start + count)`. -/
def writeWith (lvl : ChunkedLevel Hash) (start count : ℕ) (fill : Fill Hash) :
    Outcome TreeError (ChunkedLevel Hash) := do
  Outcome.require (start + count ≤ lvl.len)
  lvl.writeFrom fs start count fill count 0

variable [Zero Hash]

/-- One freshly allocated chunk of `extend_with`: `fill`ed, then padded with zeros. -/
def buildChunk (fill : Fill Hash) (count done ci : ℕ) : Outcome TreeError (Chunk Hash) := do
  let base := done + ci * CHUNK_SIZE
  let take := min (count - base) CHUNK_SIZE
  let xs ← fill base take
  let data ← FixedArray.copyFromSlice (fun _ => (0 : Hash)) 0 take xs
  pure (.memory data)

omit [Zero Hash] in
/-- The first part of `extend_with`: fill the free slots of a partial last chunk. -/
def fillLast (lvl : ChunkedLevel Hash) (take : ℕ) (fill : Fill Hash) :
    Outcome TreeError (ChunkedLevel Hash) :=
  let offset := lvl.len % CHUNK_SIZE
  if 0 < offset then
    lvl.chunkSliceMut fs (lvl.len / CHUNK_SIZE) fun data => do
      let xs ← fill 0 take
      FixedArray.copyFromSlice data offset (offset + take) xs
  else pure lvl

/-- `extend_with`: append `count` hashes produced by `fill`. -/
def extendWith (lvl : ChunkedLevel Hash) (count : ℕ) (fill : Fill Hash) :
    Outcome TreeError (ChunkedLevel Hash) :=
  if count = 0 then pure lvl
  else do
    let newLen ← checkedAdd lvl.len count .mathError
    let offset := lvl.len % CHUNK_SIZE
    let take := min (CHUNK_SIZE - offset) count
    let lvl₁ ← lvl.fillLast fs take fill
    let done := if 0 < offset then take else 0
    let built ← (List.range ((count - done) ⌈/⌉ CHUNK_SIZE)).mapM (buildChunk fill count done)
    pure { built.foldl pushChunk lvl₁ with len := newLen }

/-- `extend`. -/
def extend (lvl : ChunkedLevel Hash) (values : List Hash) :
    Outcome TreeError (ChunkedLevel Hash) :=
  lvl.extendWith fs values.length fun off n => pure ((values.drop off).take n)

/-- `ensure_len`: grow to `target`, zero-filling the new slots. -/
def ensureLen (lvl : ChunkedLevel Hash) (target : ℕ) : Outcome TreeError (ChunkedLevel Hash) :=
  if target ≤ lvl.len then pure lvl
  else lvl.extendWith fs (target - lvl.len) fun _ n => pure (List.replicate n 0)

/-- `set`. -/
def set (lvl : ChunkedLevel Hash) (index : ℕ) (value : Hash) :
    Outcome TreeError (ChunkedLevel Hash) := do
  let lvl' ← if lvl.len ≤ index then lvl.ensureLen fs (index + 1) else pure lvl
  lvl'.setPreallocated fs index value

/-! ### The chunks of a level -/

omit [Zero Hash]

/-- All chunks in order. -/
def chunks (lvl : ChunkedLevel Hash) : List (Chunk Hash) :=
  lvl.segments.flatMap List.ofFn ++ lvl.pending

theorem length_chunks (lvl : ChunkedLevel Hash) : lvl.chunks.length = lvl.chunkCount := by
  rw [chunks, List.length_append, FixedArray.length_blocks, chunkCount]

theorem chunk_eq (lvl : ChunkedLevel Hash) (i : ℕ) : lvl.chunk i = Outcome.expect lvl.chunks[i]? := by
  have hlen := FixedArray.length_blocks lvl.segments
  unfold chunk chunks
  dsimp only
  split_ifs with hi
  · rw [List.getElem?_append_left (by rw [hlen]; exact hi),
      FixedArray.getElem?_blocks CHUNKS_PER_SEGMENT_pos]
    cases lvl.segments[i / CHUNKS_PER_SEGMENT]? with
    | none => rfl
    | some seg => exact FixedArray.index_of_lt seg (Nat.mod_lt _ CHUNKS_PER_SEGMENT_pos)
  · rw [List.getElem?_append_right (by rw [hlen]; omega), hlen]

theorem chunkSliceMut_spec {lvl : ChunkedLevel Hash} {i : ℕ} {c : Chunk Hash}
    (write : (Fin CHUNK_SIZE → Hash) → Outcome TreeError (Fin CHUNK_SIZE → Hash))
    {data : Fin CHUNK_SIZE → Hash} (hc : lvl.chunks[i]? = some c)
    (hw : write (c.asSlice fs) = .ok data) :
    ∃ lvl', lvl.chunkSliceMut fs i write = .ok lvl' ∧
      lvl'.chunks = lvl.chunks.set i (.memory data) ∧ lvl'.len = lvl.len ∧
      lvl'.pending.length = lvl.pending.length := by
  have hlen := FixedArray.length_blocks lvl.segments
  unfold chunkSliceMut
  dsimp only
  split_ifs with hi
  · rw [chunks, List.getElem?_append_left (by rw [hlen]; exact hi),
      FixedArray.getElem?_blocks CHUNKS_PER_SEGMENT_pos] at hc
    cases hs : lvl.segments[i / CHUNKS_PER_SEGMENT]? with
    | none => rw [hs] at hc; cases hc
    | some seg =>
        rw [hs, Option.map_some, Option.some.injEq] at hc
        rw [Outcome.expect_some, Outcome.ok_bind,
          FixedArray.index_of_lt seg (Nat.mod_lt _ CHUNKS_PER_SEGMENT_pos), Outcome.ok_bind, hc, hw,
          Outcome.ok_bind, FixedArray.setAt_of_lt seg _ (Nat.mod_lt _ CHUNKS_PER_SEGMENT_pos),
          Outcome.ok_bind]
        refine ⟨_, rfl, ?_, rfl, rfl⟩
        unfold chunks
        dsimp only
        rw [FixedArray.blocks_set CHUNKS_PER_SEGMENT_pos hs,
          List.set_append_left _ _ (by rw [hlen]; exact hi)]
  · rw [chunks, List.getElem?_append_right (by rw [hlen]; omega), hlen] at hc
    rw [hc, Outcome.expect_some, Outcome.ok_bind, hw, Outcome.ok_bind]
    refine ⟨_, rfl, ?_, rfl, by simp⟩
    unfold chunks
    dsimp only
    rw [List.set_append_right _ _ (by rw [hlen]; omega), hlen]

theorem chunks_pushChunk (lvl : ChunkedLevel Hash) (c : Chunk Hash) :
    (lvl.pushChunk c).chunks = lvl.chunks ++ [c] := by
  unfold pushChunk
  dsimp only
  split_ifs with h
  · unfold chunks
    have e : List.ofFn (fun i : Fin CHUNKS_PER_SEGMENT => (lvl.pending ++ [c]).get (i.cast h.symm)) =
        lvl.pending ++ [c] := by
      rw [List.ofFn_congr h.symm]
      exact List.ofFn_get _
    simp only [List.flatMap_append, List.flatMap_cons, List.flatMap_nil, List.append_nil, e,
      List.append_assoc]
  · simp [chunks]

theorem pending_pushChunk {lvl : ChunkedLevel Hash} (c : Chunk Hash)
    (h : lvl.pending.length < CHUNKS_PER_SEGMENT) :
    (lvl.pushChunk c).pending.length < CHUNKS_PER_SEGMENT := by
  unfold pushChunk
  dsimp only
  split_ifs with h'
  · exact CHUNKS_PER_SEGMENT_pos
  · have : (lvl.pending ++ [c]).length = lvl.pending.length + 1 := by simp
    dsimp only
    omega

theorem chunks_foldl_pushChunk (cs : List (Chunk Hash)) (lvl : ChunkedLevel Hash) :
    (cs.foldl pushChunk lvl).chunks = lvl.chunks ++ cs := by
  induction cs generalizing lvl with
  | nil => simp
  | cons c cs ih => rw [List.foldl_cons, ih, chunks_pushChunk]; simp

theorem len_foldl_pushChunk (cs : List (Chunk Hash)) (lvl : ChunkedLevel Hash) :
    (cs.foldl pushChunk lvl).len = lvl.len := by
  induction cs generalizing lvl with
  | nil => rfl
  | cons c cs ih =>
      rw [List.foldl_cons, ih]
      unfold pushChunk
      dsimp only
      split_ifs <;> rfl

theorem pending_foldl_pushChunk (cs : List (Chunk Hash)) {lvl : ChunkedLevel Hash}
    (h : lvl.pending.length < CHUNKS_PER_SEGMENT) :
    (cs.foldl pushChunk lvl).pending.length < CHUNKS_PER_SEGMENT := by
  induction cs generalizing lvl with
  | nil => exact h
  | cons c cs ih => exact ih (pending_pushChunk c h)

end ChunkedLevel

end Works.Rotortree
