import Works.Rotortree.Storage.LevelFiles
import Works.Rotortree.Storage.RotorTree

/-! # Checkpoints and the tree in memory

`TreeInv` relates the tree in memory to the leaves `L` it was given and to the level files: the
tree refines `L`, its windows onto files are at home, and the chunks counted by the last
checkpoint, over the first `m` leaves, are on disk as they were then.  A checkpoint over
`n` leaves keeps this invariant through its stages (`Stage`): what it is going to write is
what the levels held when it captured them, and a chunk of the live tree that is still a
window onto a file is written with what the file holds.

Whether the tree survives the last stage, in which chunks become windows onto their files,
depends on `n` and on the leaves that came in since: see `remap`. -/

namespace Works.Rotortree

open Works.Lib ChunkedLevel

variable {Hash : Type} {N MAX_DEPTH : ℕ}

/-- The leaf count of the checkpoint on disk, zero without one. -/
def lastCheckpoint (W : Wire Hash) (disk : Disk Hash) : ℕ :=
  match readMeta W disk.metaFile with
  | .ok (some m) => m.leafCount
  | _ => 0

/-! ### The stages -/

/-- What a checkpoint over the first `n` leaves captured, after one over `m`. -/
structure SnapOk (H : Hasher Hash) (N MAX_DEPTH : ℕ) (L : List Hash) (m : ℕ)
    (snap : CheckpointSnap Hash) : Prop where
  base : m ≤ snap.leafCount
  pos : 0 < snap.leafCount
  size : snap.leafCount ≤ L.length
  depth : snap.depth = Nat.clog N snap.leafCount
  root : LeanTree.root N H.hashChildren (L.take snap.leafCount) = some snap.rootHash
  active : snap.levelData.length = min snap.depth (MAX_DEPTH - 1) + 1
  levels : ∀ k ld, snap.levelData[k]? = some ld →
    ld.fromChunk = wholeChunks N m k ∧ ld.totalChunks = wholeChunks N snap.leafCount k ∧
    ld.fromChunk + ld.newChunks.length =
      (storedLevel N H.hashChildren (L.take snap.leafCount) k).length ⌈/⌉ CHUNK_SIZE

/-- A write that is still to be done: nodes of the level over `Lc`, to a place behind the
counted chunks.  It changes nothing that the live tree reads: the chunk is the window onto the
very place, or the live tree has no window there. -/
def WriteOk (H : Hasher Hash) (files : ShardFiles Hash) [Zero Hash]
    (inner : TreeInner Hash N MAX_DEPTH) (Lc : List Hash) (m : ℕ) (w : ShardWrite Hash) : Prop :=
  ∃ (k : Fin MAX_DEPTH) (i : ℕ) (c : Chunk Hash), w = .home k i c ∧ wholeChunks N m k ≤ i ∧
    (∀ j : Fin CHUNK_SIZE, IsNode (storedLevel N H.hashChildren Lc k) (i * CHUNK_SIZE + j)
      (c.asSlice files.fs j)) ∧
    ((∃ v, c = Chunk.home k v i) ∨
      (¬ c.IsMapped ∧ ∀ c', (inner.levels k).chunks[i]? = some c' → ¬ c'.IsMapped))

/-- Node `p` of level `k` as the files have it after the checkpoint over `n` leaves: the chunks
that were counted before are those of the checkpoint over `m`. -/
def Expected (H : Hasher Hash) (N : ℕ) (L : List Hash) (m n k p : ℕ) : Hash → Prop :=
  IsNode (storedLevel N H.hashChildren
    (L.take (if p < wholeChunks N m k * CHUNK_SIZE then m else n)) k) p

/-- The nodes that a checkpoint over `n` leaves writes to the levels below `tiers`. -/
def Touched (H : Hasher Hash) (N MAX_DEPTH tiers : ℕ) (L : List Hash) (m n k p : ℕ) : Prop :=
  k < tiers ∧ k < MAX_DEPTH ∧ wholeChunks N m k * CHUNK_SIZE ≤ p ∧
    p < (storedLevel N H.hashChildren (L.take n) k).length ⌈/⌉ CHUNK_SIZE * CHUNK_SIZE

variable [Zero Hash]

/-- The chunks `ws` are still to be written, the others are. -/
structure Writing (H : Hasher Hash) (tiers : ℕ) (files : ShardFiles Hash)
    (inner : TreeInner Hash N MAX_DEPTH) (L : List Hash) (m n : ℕ)
    (ws : List (ShardWrite Hash)) : Prop where
  ok : ∀ w ∈ ws, WriteOk H files inner (L.take n) m w
  done : ∀ k p, Touched H N MAX_DEPTH tiers L m n k p →
    (∃ c, ShardWrite.home k (p / CHUNK_SIZE) c ∈ ws) ∨
      NowSat files k p (IsNode (storedLevel N H.hashChildren (L.take n) k) p)

omit [Zero Hash] in
/-- All chunks are written; the files `fl` are still to be synced. -/
def Syncing (H : Hasher Hash) (N MAX_DEPTH tiers : ℕ) (files : ShardFiles Hash) (L : List Hash)
    (m n : ℕ) (fl : List (ℕ × ℕ)) : Prop :=
  ∀ k p, Touched H N MAX_DEPTH tiers L m n k p →
    NowSat files k p (IsNode (storedLevel N H.hashChildren (L.take n) k) p) ∧
      ((k, shardOf p) ∈ fl ∨
        FileSat files k p (IsNode (storedLevel N H.hashChildren (L.take n) k) p))

omit [Zero Hash] in
/-- All nodes of the levels below `tiers` are on disk, those of the counted chunks as they were
before. -/
def Synced (H : Hasher Hash) (N MAX_DEPTH tiers : ℕ) (files : ShardFiles Hash) (L : List Hash)
    (m n : ℕ) : Prop :=
  ∀ k < tiers, k < MAX_DEPTH →
    ∀ p < (storedLevel N H.hashChildren (L.take n) k).length ⌈/⌉ CHUNK_SIZE * CHUNK_SIZE,
      FileSat files k p (Expected H N L m n k p)

/-- What holds of the files and the tree in the stages of a checkpoint. -/
def Stage (H : Hasher Hash) (tiers : ℕ) (files : ShardFiles Hash)
    (inner : TreeInner Hash N MAX_DEPTH) (L : List Hash) (m : ℕ) : Holder Hash → Prop
  | .checkpoint _ (.header snap) => SnapOk H N MAX_DEPTH L m snap ∧
      Writing H tiers files inner L m snap.leafCount snap.writes
  | .checkpoint _ (.write snap ws) => SnapOk H N MAX_DEPTH L m snap ∧
      Writing H tiers files inner L m snap.leafCount ws
  | .checkpoint _ (.sync snap fl) => SnapOk H N MAX_DEPTH L m snap ∧
      Syncing H N MAX_DEPTH tiers files L m snap.leafCount fl
  | .checkpoint _ (.remap snap) => SnapOk H N MAX_DEPTH L m snap ∧
      Synced H N MAX_DEPTH tiers files L m snap.leafCount
  | _ => True

/-- The leaf count of the metadata on disk, which runs ahead of the tree in one stage. -/
def metaCount (m : ℕ) : Holder Hash → ℕ
  | .checkpoint _ (.remap snap) => snap.leafCount
  | _ => m

/-- The tree in memory, the leaves `L`, and the level files below `tiers` of the checkpoint over
the first `m` leaves. -/
structure TreeInv (W : Wire Hash) (H : Hasher Hash) (tiers : ℕ) (disk : Disk Hash)
    (h : Shared Hash N MAX_DEPTH) (L : List Hash) (m : ℕ) : Prop where
  refines : Refines disk.shards.fs H h.inner L
  home : ∀ k : Fin MAX_DEPTH, AtHome k (h.inner.levels k)
  base : m ≤ L.length
  counts : ∀ k < MAX_DEPTH, h.checkpointedChunks.getD k 0 = wholeChunks N m k
  counted : ∀ k < tiers, k < MAX_DEPTH → ∀ p < wholeChunks N m k * CHUNK_SIZE,
    FileSat disk.shards k p fun x => (storedLevel N H.hashChildren (L.take m) k)[p]? = some x
  onDisk : lastCheckpoint W disk = metaCount m h.holder
  stage : Stage H tiers disk.shards h.inner L m h.holder

/-! ### New leaves -/

section Grow

variable {H : Hasher Hash} {tiers : ℕ} {files : ShardFiles Hash}
variable {inner inner' : TreeInner Hash N MAX_DEPTH} {L : List Hash} {m n : ℕ}

omit [Zero Hash] in
theorem SnapOk.grow {snap : CheckpointSnap Hash} (h : SnapOk H N MAX_DEPTH L m snap)
    (xs : List Hash) : SnapOk H N MAX_DEPTH (L ++ xs) m snap := by
  have e : (L ++ xs).take snap.leafCount = L.take snap.leafCount :=
    List.take_append_of_le_length h.size
  refine ⟨h.base, h.pos, ?_, h.depth, by rw [e]; exact h.root, h.active, by rw [e]; exact h.levels⟩
  rw [List.length_append]
  exact h.size.trans (Nat.le_add_right _ _)

theorem WriteOk.derived {Lc : List Hash} {w : ShardWrite Hash}
    (h : WriteOk H files inner Lc m w) (hd : inner.Derived inner') :
    WriteOk H files inner' Lc m w := by
  obtain ⟨k, i, c, hw, hi, hnode, hsafe⟩ := h
  refine ⟨k, i, c, hw, hi, hnode, hsafe.imp_right fun ⟨hc, hlive⟩ => ⟨hc, ?_⟩⟩
  intro c' hc' hm
  exact hlive c' (hd k i c' hc' hm) hm

theorem Writing.grow {ws : List (ShardWrite Hash)}
    (h : Writing H tiers files inner L m n ws) (hd : inner.Derived inner') (hn : n ≤ L.length)
    (xs : List Hash) : Writing H tiers files inner' (L ++ xs) m n ws := by
  have e : (L ++ xs).take n = L.take n := List.take_append_of_le_length hn
  refine ⟨?_, ?_⟩
  · rw [e]
    exact fun w hw => (h.ok w hw).derived hd
  · unfold Touched
    rw [e]
    exact h.done

/-- A stage does not mind new leaves. -/
theorem Stage.grow {holder : Holder Hash} (h : Stage H tiers files inner L m holder)
    (hd : inner.Derived inner') (hm : m ≤ L.length) (xs : List Hash) :
    Stage H tiers files inner' (L ++ xs) m holder := by
  cases holder with
  | free => trivial
  | flush buf lastSeq written => trivial
  | checkpoint background stage =>
      cases stage with
      | flush => trivial
      | header snap => exact ⟨h.1.grow xs, h.2.grow hd h.1.size xs⟩
      | write snap ws => exact ⟨h.1.grow xs, h.2.grow hd h.1.size xs⟩
      | sync snap fl =>
          obtain ⟨hs, hsync⟩ := h
          refine ⟨hs.grow xs, ?_⟩
          unfold Syncing Touched
          rw [List.take_append_of_le_length hs.size]
          exact hsync
      | remap snap =>
          obtain ⟨hs, hsync⟩ := h
          refine ⟨hs.grow xs, ?_⟩
          intro k hk hkD p hp
          rw [List.take_append_of_le_length hs.size] at hp
          have hx := hsync k hk hkD p hp
          unfold Expected at hx ⊢
          split_ifs at hx ⊢ with h1
          · rwa [List.take_append_of_le_length hm]
          · rwa [List.take_append_of_le_length hs.size]
      | truncate => trivial
      | tail => trivial

end Grow

/-- What a call leaves alone. -/
theorem Shared.insertCall_frame (W : Wire Hash) (H : Hasher Hash) (fs : ShardFs Hash)
    (c : Call Hash) (h : Shared Hash N MAX_DEPTH) :
    (h.insertCall W H fs c).2.inner = (c.run fs H h.inner).2 ∧
    (h.insertCall W H fs c).2.checkpointedChunks = h.checkpointedChunks ∧
    (h.insertCall W H fs c).2.holder = h.holder ∧
    (h.insertCall W H fs c).2.cursor = h.cursor ∧
    (h.insertCall W H fs c).2.flushed = h.flushed ∧
    (h.insertCall W H fs c).2.closed = h.closed ∧
    (h.insertCall W H fs c).2.bgError = h.bgError ∧
    (h.insertCall W H fs c).2.pinAboveLevel = h.pinAboveLevel := by
  unfold Shared.insertCall
  split
  · rename_i e inner he
    rw [he]
    exact ⟨rfl, rfl, rfl, rfl, rfl, rfl, rfl, rfl⟩
  · rename_i inner he
    rw [he]
    exact ⟨rfl, rfl, rfl, rfl, rfl, rfl, rfl, rfl⟩
  · rename_i root inner he
    rw [he]
    split
    · exact ⟨rfl, rfl, rfl, rfl, rfl, rfl, rfl, rfl⟩
    · split_ifs <;> exact ⟨rfl, rfl, rfl, rfl, rfl, rfl, rfl, rfl⟩

/-- What one computation keeps of the state and then the other. -/
theorem keeps_bind {σ ε α β : Type} {P : σ → Prop} {x : Exec σ ε α} {f : α → Exec σ ε β}
    (hx : ∀ s, P s → P (x s).2) (hf : ∀ a s, P s → P (f a s).2) (s : σ) (hs : P s) :
    P ((x >>= f) s).2 := by
  have hafter := hx s hs
  rcases hxs : x s with ⟨r, s'⟩
  rw [hxs] at hafter
  cases r with
  | ok a =>
      rw [Exec.bind_of_ok hxs]
      exact hf a s' hafter
  | error e =>
      rw [Exec.bind_of_error hxs]
      exact hafter

omit [Zero Hash] in
/-- The levels are remapped in the tree and the counts only, whatever comes of it. -/
theorem Shared.remapLevels_frame (files : ShardFiles Hash) (lds : List (LevelCheckpointData Hash))
    (k : ℕ) (s : Shared Hash N MAX_DEPTH) :
    ∃ inner chunks, (Shared.remapLevels files k lds s).2 =
      { s with inner := inner, checkpointedChunks := chunks } := by
  have hkeep : ∀ s', (∃ inner chunks, s' = { s with
      inner := inner, checkpointedChunks := chunks }) → ∃ inner chunks,
        (Shared.remapLevels files k lds s').2 =
          { s with inner := inner, checkpointedChunks := chunks } := by
    induction lds generalizing k with
    | nil => exact fun s' hs' => hs'
    | cons ld lds ih =>
        refine keeps_bind ?_ fun _ => ih (k + 1)
        refine keeps_bind (fun s' hs' => hs') fun h' => ?_
        split_ifs
        · refine keeps_bind (fun s' hs' => hs') fun regions => ?_
          refine keeps_bind (fun s' hs' => hs') fun lvl => ?_
          refine keeps_bind (fun s' hs' => hs') fun lvl' => ?_
          rintro s' ⟨inner, chunks, rfl⟩
          exact ⟨_, _, rfl⟩
        · rintro s' ⟨inner, chunks, rfl⟩
          exact ⟨_, _, rfl⟩
  exact hkeep s ⟨s.inner, s.checkpointedChunks, rfl⟩

section Steps

variable {W : Wire Hash} {H : Hasher Hash} {tiers : ℕ} {disk : Disk Hash}
variable {h : Shared Hash N MAX_DEPTH} {L : List Hash} {m : ℕ}

/-- **A call.**  The leaves it brings are added, unless it is turned down. -/
theorem TreeInv.call (hH : H.Lawful) (hN : 2 ≤ N) (hD : 1 ≤ MAX_DEPTH)
    (hi : TreeInv W H tiers disk h L m) (c : Call Hash) :
    TreeInv W H tiers disk (h.insertCall W H disk.shards.fs c).2
      (if c.TurnedDown N MAX_DEPTH L.length then L else L ++ c.leaves) m := by
  obtain ⟨h1, h2, h3, -⟩ := Shared.insertCall_frame W H disk.shards.fs c h
  split_ifs with hc
  · obtain ⟨e, he⟩ := (@Call.run_of_turnedDown _ _ _ _ disk.shards.fs H) hN
      (show c.TurnedDown N MAX_DEPTH h.inner.size by rw [hi.refines.size]; exact hc)
    rw [he] at h1
    exact ⟨by rw [h1]; exact hi.refines, by rw [h1]; exact hi.home, hi.base,
      by rw [h2]; exact hi.counts, hi.counted, by rw [h3]; exact hi.onDisk,
      by rw [h1, h3]; exact hi.stage⟩
  · obtain ⟨r, t', he, -, href, hd⟩ := Call.run_spec hH hN hD (hi.refines.near hN) hc
    rw [he] at h1
    refine ⟨by rw [h1]; exact href, ?_, ?_, by rw [h2]; exact hi.counts, ?_,
      by rw [h3]; exact hi.onDisk, by rw [h1, h3]; exact hi.stage.grow hd hi.base c.leaves⟩
    · rw [h1]
      exact fun k => (hi.home k).derived (hd k)
    · rw [List.length_append]
      exact hi.base.trans (Nat.le_add_right _ _)
    · rw [List.take_append_of_le_length hi.base]
      exact hi.counted

/-- A step that changes neither the tree nor the files of the checkpoint. -/
theorem TreeInv.keep (hi : TreeInv W H tiers disk h L m) {disk' : Disk Hash}
    {h' : Shared Hash N MAX_DEPTH} (hfiles : disk'.shards = disk.shards)
    (hmeta : disk'.metaFile = disk.metaFile) (hinner : h'.inner = h.inner)
    (hcounts : h'.checkpointedChunks = h.checkpointedChunks)
    (hcount : metaCount m h'.holder = metaCount m h.holder)
    (hstage : Stage H tiers disk.shards h.inner L m h'.holder) :
    TreeInv W H tiers disk' h' L m where
  refines := by rw [hfiles, hinner]; exact hi.refines
  home := by rw [hinner]; exact hi.home
  base := hi.base
  counts := by rw [hcounts]; exact hi.counts
  counted := by rw [hfiles]; exact hi.counted
  onDisk := by
    rw [hcount, ← hi.onDisk, lastCheckpoint, lastCheckpoint, hmeta]
  stage := by rw [hfiles, hinner]; exact hstage

end Steps

/-! ### Capture -/

section Capture

variable {H : Hasher Hash} {L : List Hash} {m : ℕ} {snap : CheckpointSnap Hash}

omit [Zero Hash] in
/-- The writes of a checkpoint. -/
theorem CheckpointSnap.mem_writes {w : ShardWrite Hash} : w ∈ snap.writes ↔
    ∃ (k : ℕ) (ld : LevelCheckpointData Hash) (i : ℕ) (c : Chunk Hash),
      snap.levelData[k]? = some ld ∧ ld.newChunks[i]? = some c ∧
      w = .home k (ld.fromChunk + i) c := by
  unfold CheckpointSnap.writes
  simp only [List.mem_flatten, List.mem_mapIdx, appendChunksToLevel_eq]
  constructor
  · rintro ⟨l, ⟨k, hk, rfl⟩, hw⟩
    obtain ⟨i, hi, rfl⟩ := List.mem_mapIdx.mp hw
    exact ⟨k, snap.levelData[k], i, _, List.getElem?_eq_getElem hk, List.getElem?_eq_getElem hi,
      rfl⟩
  · rintro ⟨k, ld, i, c, hld, hc, rfl⟩
    obtain ⟨hk, rfl⟩ := List.getElem?_eq_some_iff.mp hld
    obtain ⟨hi, rfl⟩ := List.getElem?_eq_some_iff.mp hc
    exact ⟨_, ⟨k, hk, rfl⟩, List.mem_mapIdx.mpr ⟨i, hi, rfl⟩⟩

omit [Zero Hash] in
/-- The file of every written chunk is synced. -/
theorem CheckpointSnap.mem_files {k i : ℕ} {ld : LevelCheckpointData Hash}
    (hld : snap.levelData[k]? = some ld) (hi : i < ld.newChunks.length) :
    (k, (ld.fromChunk + i) / CHUNKS_PER_SHARD) ∈ snap.files := by
  obtain ⟨hk, rfl⟩ := List.getElem?_eq_some_iff.mp hld
  unfold CheckpointSnap.files
  rw [List.mem_flatten]
  refine ⟨_, List.mem_mapIdx.mpr ⟨k, hk, rfl⟩, ?_⟩
  unfold appendedFiles
  rw [if_neg (by rw [List.isEmpty_iff]; intro h0; rw [h0] at hi; simp at hi)]
  apply List.mem_map_of_mem
  rw [shardRange, List.mem_range'_1]
  have h1 : snap.levelData[k].fromChunk / CHUNKS_PER_SHARD ≤
      (snap.levelData[k].fromChunk + i) / CHUNKS_PER_SHARD := Nat.div_le_div_right (by omega)
  have h2 : (snap.levelData[k].fromChunk + i) / CHUNKS_PER_SHARD ≤
      (snap.levelData[k].fromChunk + snap.levelData[k].newChunks.length - 1) / CHUNKS_PER_SHARD :=
    Nat.div_le_div_right (by omega)
  omega

variable {h : Shared Hash N MAX_DEPTH} {fs : ShardFs Hash}

omit [Zero Hash] in
theorem Shared.captureLevel_spec (hN : 2 ≤ N) (href : Refines fs H h.inner L)
    (hcounts : ∀ k < MAX_DEPTH, h.checkpointedChunks.getD k 0 = wholeChunks N m k)
    {k : ℕ} (hk : k < MAX_DEPTH) :
    h.captureLevel k = .ok ⟨(h.inner.levels ⟨k, hk⟩).chunks.drop (wholeChunks N m k),
      wholeChunks N m k, wholeChunks N L.length k⟩ := by
  have hl := href.levels ⟨k, hk⟩
  unfold Shared.captureLevel TreeInner.level
  rw [FixedArray.index_of_lt _ hk, Outcome.mapErr_ok, Outcome.ok_bind, hcounts k hk]
  dsimp only
  rw [chunksSince_eq, Outcome.mapErr_ok, Outcome.ok_bind, hl.len, length_storedLevel_div hN]
  rfl

omit [Zero Hash] in
/-- The chunks of a level that refines: there are enough of them for the counted ones. -/
theorem wholeChunks_le_chunks (hN : 2 ≤ N) (href : Refines fs H h.inner L) (hm : m ≤ L.length)
    (k : Fin MAX_DEPTH) : wholeChunks N m k ≤ (h.inner.levels k).chunks.length := by
  refine (wholeChunks_mono hN hm k).trans ?_
  rw [(href.levels k).count, ← length_storedLevel_div (h := H.hashChildren) hN,
    Nat.div_le_iff_le_mul_add_pred CHUNK_SIZE_pos]
  have := (ceilDiv_le_iff_le_mul (a := CHUNK_SIZE)
    (b := (storedLevel N H.hashChildren L k).length) CHUNK_SIZE_pos).mp le_rfl
  omega

/-- The levels of `snap` are those of the open tree, without the counted chunks. -/
structure Captured (h : Shared Hash N MAX_DEPTH) (L : List Hash) (m : ℕ)
    (snap : CheckpointSnap Hash) : Prop where
  leafCount : snap.leafCount = L.length
  depth : snap.depth = Nat.clog N L.length
  lastSeq : snap.lastSeq = h.nextSeq - 1
  rootHash : snap.rootHash = h.inner.root.getD 0
  active : snap.levelData.length = min (Nat.clog N L.length) (MAX_DEPTH - 1) + 1
  level : ∀ k (hk : k < MAX_DEPTH), k < snap.levelData.length →
    snap.levelData[k]? = some ⟨(h.inner.levels ⟨k, hk⟩).chunks.drop (wholeChunks N m k),
      wholeChunks N m k, wholeChunks N L.length k⟩

theorem Shared.exists_captured (hN : 2 ≤ N) (hD : 1 ≤ MAX_DEPTH) (href : Refines fs H h.inner L)
    (hcounts : ∀ k < MAX_DEPTH, h.checkpointedChunks.getD k 0 = wholeChunks N m k) :
    ∃ snap, h.capture = .ok snap ∧ Captured h L m snap := by
  set levelOf : ℕ → LevelCheckpointData Hash := fun k =>
    if hk : k < MAX_DEPTH then ⟨(h.inner.levels ⟨k, hk⟩).chunks.drop (wholeChunks N m k),
      wholeChunks N m k, wholeChunks N L.length k⟩ else ⟨[], 0, 0⟩ with hlevelOf
  refine ⟨⟨h.inner.depth, h.inner.size, h.nextSeq - 1, h.inner.root.getD 0,
    (List.range (min h.inner.depth (MAX_DEPTH - 1) + 1)).map levelOf⟩, ?_, href.size, href.depth,
    rfl, rfl, by simp [href.depth], ?_⟩
  · unfold Shared.capture
    dsimp only
    rw [Outcome.mapM_ok (g := levelOf), Outcome.ok_bind]
    · rfl
    · intro k hk
      rw [List.mem_range] at hk
      have hkD : k < MAX_DEPTH := by omega
      rw [Shared.captureLevel_spec hN href hcounts hkD, hlevelOf]
      dsimp only
      rw [dif_pos hkD]
  · intro k hk hlt
    rw [List.length_map, List.length_range] at hlt
    rw [List.getElem?_map, List.getElem?_range hlt, Option.map_some, hlevelOf]
    dsimp only
    rw [dif_pos hk]

theorem Captured.level_eq (hD : 1 ≤ MAX_DEPTH) (hc : Captured h L m snap) {k : ℕ}
    {ld : LevelCheckpointData Hash} (hld : snap.levelData[k]? = some ld) :
    ∃ hk : k < MAX_DEPTH, ld = ⟨(h.inner.levels ⟨k, hk⟩).chunks.drop (wholeChunks N m k),
      wholeChunks N m k, wholeChunks N L.length k⟩ := by
  have hlt := (List.getElem?_eq_some_iff.mp hld).1
  have hk : k < MAX_DEPTH := by
    have := hc.active
    omega
  refine ⟨hk, ?_⟩
  rw [hc.level k hk hlt, Option.some.injEq] at hld
  exact hld.symm

theorem Captured.snapOk (hN : 2 ≤ N) (hD : 1 ≤ MAX_DEPTH) (hc : Captured h L m snap)
    (href : Refines fs H h.inner L) (hm : m ≤ L.length) (hne : L ≠ []) :
    SnapOk H N MAX_DEPTH L m snap := by
  obtain ⟨r, hroot, -⟩ := LeanTree.root_eq_some (N := N) (h := H.hashChildren) (by omega) hne
  have htake : L.take snap.leafCount = L := by rw [hc.leafCount, List.take_length]
  refine ⟨hm.trans_eq hc.leafCount.symm,
    (List.length_pos_iff.mpr hne).trans_eq hc.leafCount.symm, hc.leafCount.le,
    by rw [hc.depth, hc.leafCount], ?_, by rw [hc.active, hc.depth], ?_⟩
  · rw [htake, hc.rootHash, href.root, hroot]
    rfl
  · intro k ld hld
    obtain ⟨hk, rfl⟩ := hc.level_eq hD hld
    have hle := wholeChunks_le_chunks hN href hm ⟨k, hk⟩
    refine ⟨rfl, by rw [hc.leafCount], ?_⟩
    rw [htake, ← (href.levels ⟨k, hk⟩).count, List.length_drop]
    dsimp only at hle ⊢
    omega

theorem Captured.writing (hD : 1 ≤ MAX_DEPTH) (hc : Captured h L m snap)
    {files : ShardFiles Hash} (href : Refines files.fs H h.inner L)
    (hhome : ∀ k : Fin MAX_DEPTH, AtHome k (h.inner.levels k)) (tiers : ℕ) :
    Writing H tiers files h.inner L m snap.leafCount snap.writes := by
  have htake : L.take snap.leafCount = L := by rw [hc.leafCount, List.take_length]
  constructor
  · intro w hw
    rw [htake]
    obtain ⟨k, ld, i, c, hld, hchunk, rfl⟩ := CheckpointSnap.mem_writes.mp hw
    obtain ⟨hk, rfl⟩ := hc.level_eq hD hld
    dsimp only at hchunk ⊢
    rw [List.getElem?_drop] at hchunk
    refine ⟨⟨k, hk⟩, _, c, rfl, Nat.le_add_right _ _, ?_, ?_⟩
    · intro j hlt
      obtain ⟨h1, h2⟩ := chunk_div_mod (wholeChunks N m k + i) j
      rw [(href.levels ⟨k, hk⟩).asSlice hlt (c := c) (by rw [h1]; exact hchunk)]
      congr 2
      exact Fin.ext h2
    · cases hmap : c with
      | memory data =>
          refine Or.inr ⟨fun h0 => h0, fun c' hc' hm' => ?_⟩
          rw [hchunk, hmap, Option.some.injEq] at hc'
          rw [← hc'] at hm'
          exact hm'
      | mapped region offset =>
          rw [← hmap]
          exact Or.inl (hhome ⟨k, hk⟩ _ c hchunk (by rw [hmap]; trivial))
  · rintro k p ⟨-, hk, h1, h2⟩
    left
    rw [htake] at h2
    have hlt : p / CHUNK_SIZE < (h.inner.levels ⟨k, hk⟩).chunks.length := by
      rw [(href.levels ⟨k, hk⟩).count]
      exact (Nat.div_lt_iff_lt_mul CHUNK_SIZE_pos).mpr h2
    have hle : wholeChunks N m k ≤ p / CHUNK_SIZE := (Nat.le_div_iff_mul_le CHUNK_SIZE_pos).mpr h1
    have hkact : k < snap.levelData.length := by
      have hk' : k ≤ Nat.clog N L.length := by
        by_contra hno
        rw [storedLevel_of_lt (by omega)] at h2
        simp at h2
      rw [hc.active]
      omega
    refine ⟨(h.inner.levels ⟨k, hk⟩).chunks[p / CHUNK_SIZE], CheckpointSnap.mem_writes.mpr
      ⟨k, _, p / CHUNK_SIZE - wholeChunks N m k, (h.inner.levels ⟨k, hk⟩).chunks[p / CHUNK_SIZE],
        hc.level k hk hkact, ?_, ?_⟩⟩
    · dsimp only
      rw [List.getElem?_drop, Nat.add_sub_cancel' hle, List.getElem?_eq_getElem hlt]
    · dsimp only
      rw [Nat.add_sub_cancel' hle]

end Capture

/-! ### Writing and syncing -/

section Write

variable {W : Wire Hash} {H : Hasher Hash} {tiers : ℕ} {disk : Disk Hash}
variable {h : Shared Hash N MAX_DEPTH} {L : List Hash} {m n : ℕ} {snap : CheckpointSnap Hash}
variable {files : ShardFiles Hash} {inner : TreeInner Hash N MAX_DEPTH} {Lc : List Hash}

omit [Zero Hash] in
theorem ShardWrite.home_inj {k k' i i' : ℕ} {c c' : Chunk Hash}
    (h : ShardWrite.home k i c = ShardWrite.home k' i' c') : k = k' ∧ i = i' ∧ c = c' := by
  unfold ShardWrite.home at h
  injection h with h1 h2 h3 h4
  refine ⟨h1, ?_, h4⟩
  have h5 := Nat.eq_of_mul_eq_mul_right CHUNK_SIZE_pos h3
  rw [← Nat.div_add_mod' i CHUNKS_PER_SHARD, ← Nat.div_add_mod' i' CHUNKS_PER_SHARD, h2, h5]

/-- The hash that a write puts at node `p`. -/
theorem WriteOk.isNode {k : Fin MAX_DEPTH} {i : ℕ} {c : Chunk Hash}
    (hnode : ∀ j : Fin CHUNK_SIZE, IsNode (storedLevel N H.hashChildren Lc k) (i * CHUNK_SIZE + j)
      (c.asSlice files.fs j)) {p : ℕ} (hp : p / CHUNK_SIZE = i) :
    IsNode (storedLevel N H.hashChildren Lc k) p
      (c.asSlice files.fs ⟨p % CHUNK_SIZE, Nat.mod_lt _ CHUNK_SIZE_pos⟩) := by
  have hj := hnode ⟨p % CHUNK_SIZE, Nat.mod_lt _ CHUNK_SIZE_pos⟩
  have e : i * CHUNK_SIZE + p % CHUNK_SIZE = p := by
    rw [← hp, Nat.div_add_mod' p CHUNK_SIZE]
  dsimp only at hj
  rwa [e] at hj

/-- What the live tree maps does not change. -/
theorem WriteOk.refines {w : ShardWrite Hash} (hw : WriteOk H files inner Lc m w)
    (hhome : ∀ k : Fin MAX_DEPTH, AtHome k (inner.levels k)) (href : Refines files.fs H inner L) :
    Refines (files.write w).fs H inner L := by
  obtain ⟨kw, i, c, rfl, -, -, hsafe⟩ := hw
  refine ⟨href.size, href.depth, href.root, fun k => (href.levels k).of_fs (hhome k) ?_⟩
  intro p hp hmapped
  rw [nodeAt_write]
  split_ifs with hpi
  · obtain ⟨hk, hi⟩ := hpi
    obtain rfl : k = kw := Fin.ext hk
    rcases hsafe with ⟨v, rfl⟩ | ⟨-, hlive⟩
    · rw [Chunk.asSlice_home, ← hi]
      dsimp only
      rw [Nat.div_add_mod' p CHUNK_SIZE]
    · obtain ⟨c', hc'⟩ := (href.levels k).exists_chunk hp
      exact absurd (hmapped c' hc') (hlive c' (by rw [← hi]; exact hc'))
  · rfl

/-- A write leaves the other writes as they are. -/
theorem WriteOk.write {w w' : ShardWrite Hash} (hw : WriteOk H files inner Lc m w)
    (hw' : WriteOk H files inner Lc m w') : WriteOk H (files.write w) inner Lc m w' := by
  obtain ⟨kw, i, c, rfl, -, hnode, -⟩ := hw
  obtain ⟨k, i', c', rfl, hi', hnode', hsafe'⟩ := hw'
  refine ⟨k, i', c', rfl, hi', ?_, hsafe'⟩
  intro j
  cases hc' : c' with
  | memory data =>
      have := hnode' j
      rwa [hc'] at this
  | mapped region offset =>
      rw [← hc']
      obtain ⟨v, rfl⟩ : ∃ v, c' = Chunk.home k v i' := by
        rcases hsafe' with hv | ⟨hno, -⟩
        · exact hv
        · exact absurd (by rw [hc']; trivial) hno
      have hold := hnode' j
      rw [Chunk.asSlice_home] at hold ⊢
      rw [nodeAt_write]
      split_ifs with hpi
      · obtain ⟨hk, hp⟩ := hpi
        obtain rfl : k = kw := Fin.ext hk
        exact WriteOk.isNode hnode hp
      · exact hold

/-- **A chunk reaches its file.** -/
theorem TreeInv.write {background : Bool} {w : ShardWrite Hash} {ws : List (ShardWrite Hash)}
    (hi : TreeInv W H tiers disk h L m)
    (hst : h.holder = .checkpoint background (.write snap (w :: ws))) :
    TreeInv W H tiers { disk with shards := disk.shards.write w }
      { h with holder := .checkpoint background (.write snap ws) } L m := by
  have hstage := hi.stage
  have hdisk := hi.onDisk
  rw [hst] at hstage hdisk
  obtain ⟨hs, hwr⟩ := hstage
  have hw := hwr.ok w (by simp)
  obtain ⟨kw, i, c, hweq, hiw, hnode, -⟩ := id hw
  refine ⟨hw.refines hi.home hi.refines, hi.home, hi.base, hi.counts, ?_, hdisk, hs, ?_, ?_⟩
  · intro k hk hkD p hp
    rw [hweq]
    apply (hi.counted k hk hkD p hp).write
    intro hkw hpi
    have := (Nat.div_lt_iff_lt_mul CHUNK_SIZE_pos).mpr hp
    rw [hkw] at this
    omega
  · exact fun w' hw' => hw.write (hwr.ok w' (by simp [hw']))
  · intro k p ht
    have hdata : ∀ k' : ℕ, k' = kw → p / CHUNK_SIZE = i →
        IsNode (storedLevel N H.hashChildren (L.take snap.leafCount) k') p
          (c.asSlice disk.shards.fs ⟨p % CHUNK_SIZE, Nat.mod_lt _ CHUNK_SIZE_pos⟩) := by
      rintro k' rfl hp
      exact WriteOk.isNode hnode hp
    rcases hwr.done k p ht with ⟨c', hc'⟩ | hnow
    · rcases List.mem_cons.mp hc' with heq | hmem
      · rw [hweq] at heq
        obtain ⟨hk, hp, rfl⟩ := ShardWrite.home_inj heq
        right
        show NowSat (disk.shards.write w) k p _
        rw [hweq, ← hk]
        exact nowSat_write hp (hdata k hk hp)
      · exact Or.inl ⟨c', hmem⟩
    · right
      show NowSat (disk.shards.write w) k p _
      rw [hweq]
      exact hnow.write (hdata k)

omit [Zero Hash] in
/-- The file of every node that a checkpoint writes is synced. -/
theorem SnapOk.touched_file (hs : SnapOk H N MAX_DEPTH L m snap) {k p : ℕ}
    (ht : Touched H N MAX_DEPTH tiers L m snap.leafCount k p) : (k, shardOf p) ∈ snap.files := by
  obtain ⟨-, hkD, h1, h2⟩ := ht
  have hk : k < snap.levelData.length := by
    rw [hs.active, hs.depth]
    have hlen : (L.take snap.leafCount).length = snap.leafCount := by
      rw [List.length_take, Nat.min_eq_left hs.size]
    have : k ≤ Nat.clog N snap.leafCount := by
      by_contra hno
      rw [storedLevel_of_lt (by rw [hlen]; omega)] at h2
      simp at h2
    omega
  have hld := List.getElem?_eq_getElem hk
  obtain ⟨hfrom, -, htotal⟩ := hs.levels k _ hld
  have hle : snap.levelData[k].fromChunk ≤ p / CHUNK_SIZE := by
    rw [hfrom]
    exact (Nat.le_div_iff_mul_le CHUNK_SIZE_pos).mpr h1
  have hlt := (Nat.div_lt_iff_lt_mul CHUNK_SIZE_pos).mpr h2
  have hmem := CheckpointSnap.mem_files hld
    (i := p / CHUNK_SIZE - snap.levelData[k].fromChunk) (by omega)
  rwa [Nat.add_sub_cancel' hle] at hmem

/-- All chunks are written. -/
theorem TreeInv.written {background : Bool} (hi : TreeInv W H tiers disk h L m)
    (hst : h.holder = .checkpoint background (.write snap [])) :
    TreeInv W H tiers disk { h with holder := .checkpoint background (.sync snap snap.files) } L m := by
  have hstage := hi.stage
  rw [hst] at hstage
  obtain ⟨hs, hwr⟩ := hstage
  refine hi.keep rfl rfl rfl rfl (by rw [hst]; rfl) ⟨hs, ?_⟩
  intro k p ht
  rcases hwr.done k p ht with ⟨c, hc⟩ | hnow
  · cases hc
  · exact ⟨hnow, Or.inl (hs.touched_file ht)⟩

/-- A file is synced. -/
theorem TreeInv.sync {background : Bool} {f : ℕ × ℕ} {fl : List (ℕ × ℕ)}
    (hi : TreeInv W H tiers disk h L m)
    (hst : h.holder = .checkpoint background (.sync snap (f :: fl))) :
    TreeInv W H tiers { disk with shards := disk.shards.sync f }
      { h with holder := .checkpoint background (.sync snap fl) } L m := by
  have hstage := hi.stage
  have hdisk := hi.onDisk
  rw [hst] at hstage hdisk
  obtain ⟨hs, hsync⟩ := hstage
  refine ⟨?_, hi.home, hi.base, hi.counts, fun k hk hkD p hp => (hi.counted k hk hkD p hp).sync f,
    hdisk, hs, ?_⟩
  · show Refines (disk.shards.sync f).fs H h.inner L
    rw [ShardFiles.fs_sync]
    exact hi.refines
  · intro k p ht
    obtain ⟨hnow, hfile⟩ := hsync k p ht
    refine ⟨hnow.sync f, ?_⟩
    rcases hfile with hmem | hfile
    · rcases List.mem_cons.mp hmem with rfl | hmem
      · exact Or.inr hnow.fileSat_sync
      · exact Or.inl hmem
    · exact Or.inr (hfile.sync f)

end Write

end Works.Rotortree
