import Works.Rotortree.Storage.Shards

/-! # Shard files are arrays of nodes

Node `p` of level `k` has one place in the shard files.  `NowSat files k p P` says that the
file holds a hash with property `P` there, `FileSat` that it does whatever a crash leaves;
writing a chunk and syncing a file are described through these two.  The writes of
`append_chunks_to_level` go to the homes of the chunks, and the windows that
`mmap_level_shards` and `remap_chunks` make are windows onto them. -/

namespace Works.Rotortree

open Works.Lib ChunkedLevel

variable {Hash : Type}

/-! ### Places -/

/-- The shard of node `p` of a level. -/
def shardOf (p : ℕ) : ℕ := p / CHUNK_SIZE / CHUNKS_PER_SHARD

/-- The place of node `p` in its shard. -/
def slotOf (p : ℕ) : ℕ := p / CHUNK_SIZE % CHUNKS_PER_SHARD * CHUNK_SIZE + p % CHUNK_SIZE

/-- Node `p` of level `k`, read from the files. -/
def nodeAt (fs : ShardFs Hash) (k p : ℕ) : Hash := fs k (shardOf p) (slotOf p)

/-- The window onto the place of chunk `i` of level `k`. -/
def Chunk.home (k validLen i : ℕ) : Chunk Hash :=
  .mapped ⟨k, (shardAddress i).1, validLen⟩ (shardAddress i).2

/-- The write of chunk `c` to the place of chunk `i` of level `k`. -/
def ShardWrite.home (k i : ℕ) (c : Chunk Hash) : ShardWrite Hash :=
  ⟨k, i / CHUNKS_PER_SHARD, i % CHUNKS_PER_SHARD * CHUNK_SIZE, c⟩

/-- Every window of a level is onto the place of its chunk. -/
def ChunkedLevel.AtHome (k : ℕ) (lvl : ChunkedLevel Hash) : Prop :=
  ∀ (i : ℕ) (c : Chunk Hash), lvl.chunks[i]? = some c → c.IsMapped →
    ∃ validLen, c = Chunk.home k validLen i

theorem chunk_div_mod (i : ℕ) (j : Fin CHUNK_SIZE) :
    (i * CHUNK_SIZE + j) / CHUNK_SIZE = i ∧ (i * CHUNK_SIZE + j) % CHUNK_SIZE = j := by
  have hj := j.isLt
  constructor
  · rw [Nat.mul_comm, Nat.mul_add_div CHUNK_SIZE_pos, Nat.div_eq_of_lt hj, Nat.add_zero]
  · rw [Nat.mul_comm, Nat.mul_add_mod, Nat.mod_eq_of_lt hj]

theorem Chunk.asSlice_home (fs : ShardFs Hash) (k v i : ℕ) (j : Fin CHUNK_SIZE) :
    (Chunk.home k v i).asSlice fs j = nodeAt fs k (i * CHUNK_SIZE + j) := by
  obtain ⟨h1, h2⟩ := chunk_div_mod i j
  have h3 : i % CHUNKS_PER_SHARD * CHUNK_BYTE_SIZE / 32 = i % CHUNKS_PER_SHARD * CHUNK_SIZE := by
    rw [CHUNK_BYTE_SIZE, ← Nat.mul_assoc, Nat.mul_div_cancel _ (by decide)]
  unfold nodeAt shardOf slotOf
  rw [h1, h2, ← h3]
  rfl

/-- A node in a chunk that is a window at home. -/
theorem cell_home {fs : ShardFs Hash} {lvl : ChunkedLevel Hash} {k v p : ℕ}
    (h : lvl.chunks[p / CHUNK_SIZE]? = some (Chunk.home k v (p / CHUNK_SIZE))) :
    lvl.cell fs p = some (nodeAt fs k p) := by
  rw [cell, h, Option.map_some, Chunk.asSlice_home]
  dsimp only
  rw [Nat.div_add_mod' p CHUNK_SIZE]

/-- The chunk a node lies in, from its place. -/
theorem place_eq_iff {p i : ℕ} :
    shardOf p = i / CHUNKS_PER_SHARD ∧ i % CHUNKS_PER_SHARD * CHUNK_SIZE ≤ slotOf p ∧
      slotOf p < i % CHUNKS_PER_SHARD * CHUNK_SIZE + CHUNK_SIZE ↔ p / CHUNK_SIZE = i := by
  unfold shardOf slotOf CHUNKS_PER_SHARD CHUNK_SIZE
  omega

/-- Different nodes have different places. -/
theorem slotOf_sub {p i : ℕ} (h : p / CHUNK_SIZE = i) :
    slotOf p - i % CHUNKS_PER_SHARD * CHUNK_SIZE = p % CHUNK_SIZE := by
  unfold slotOf
  rw [h, Nat.add_sub_cancel_left]

/-! ### Files -/

/-- The file of node `p` of level `k` now holds a hash with property `P` there. -/
def NowSat (files : ShardFiles Hash) (k p : ℕ) (P : Hash → Prop) : Prop :=
  ∃ f, files k (shardOf p) = some f ∧ ∃ x, f.now[slotOf p]? = some x ∧ P x

/-- Whatever a crash leaves, the file holds a hash with property `P` there. -/
def FileSat (files : ShardFiles Hash) (k p : ℕ) (P : Hash → Prop) : Prop :=
  ∃ f, files k (shardOf p) = some f ∧
    ∀ v ∈ f.contents, ∃ x, v[slotOf p]? = some x ∧ P x

section Files

variable {files : ShardFiles Hash} {k p : ℕ} {P Q : Hash → Prop}

theorem FileSat.now (h : FileSat files k p P) : NowSat files k p P := by
  obtain ⟨f, hf, hv⟩ := h
  exact ⟨f, hf, hv f.now f.now_mem_contents⟩

theorem FileSat.imp (h : FileSat files k p P) (hPQ : ∀ x, P x → Q x) : FileSat files k p Q := by
  obtain ⟨f, hf, hv⟩ := h
  refine ⟨f, hf, fun v hm => ?_⟩
  obtain ⟨x, hx, hP⟩ := hv v hm
  exact ⟨x, hx, hPQ x hP⟩

theorem NowSat.imp (h : NowSat files k p P) (hPQ : ∀ x, P x → Q x) : NowSat files k p Q := by
  obtain ⟨f, hf, x, hx, hP⟩ := h
  exact ⟨f, hf, x, hx, hPQ x hP⟩

theorem NowSat.nodeAt [Zero Hash] (h : NowSat files k p P) : P (nodeAt files.fs k p) := by
  obtain ⟨f, hf, x, hx, hP⟩ := h
  have e : Works.Rotortree.nodeAt files.fs k p = x := by
    unfold Works.Rotortree.nodeAt ShardFiles.fs
    rw [hf]
    dsimp only
    rw [List.getD_eq_getElem?_getD, hx, Option.getD_some]
  rw [e]
  exact hP

theorem FileSat.sync (h : FileSat files k p P) (file : ℕ × ℕ) : FileSat (files.sync file) k p P := by
  obtain ⟨f, hf, hv⟩ := h
  unfold FileSat ShardFiles.sync
  split_ifs with hfile
  · rw [hf]
    refine ⟨f.sync, rfl, fun v hm => ?_⟩
    rw [CrashFile.contents_sync, List.mem_singleton] at hm
    rw [hm]
    exact hv _ f.now_mem_contents
  · exact ⟨f, hf, hv⟩

theorem NowSat.sync (h : NowSat files k p P) (file : ℕ × ℕ) : NowSat (files.sync file) k p P := by
  obtain ⟨f, hf, hv⟩ := h
  unfold NowSat ShardFiles.sync
  split_ifs with hfile
  · rw [hf]
    exact ⟨f.sync, rfl, hv⟩
  · exact ⟨f, hf, hv⟩

/-- Syncing the file of a node makes it safe. -/
theorem NowSat.fileSat_sync (h : NowSat files k p P) :
    FileSat (files.sync (k, shardOf p)) k p P := by
  obtain ⟨f, hf, hv⟩ := h
  unfold FileSat ShardFiles.sync
  rw [if_pos ⟨rfl, rfl⟩, hf]
  refine ⟨f.sync, rfl, fun v hm => ?_⟩
  rw [CrashFile.contents_sync, List.mem_singleton] at hm
  rw [hm]
  exact hv

variable [Zero Hash]

theorem ShardFiles.fs_sync (files : ShardFiles Hash) (file : ℕ × ℕ) :
    (files.sync file).fs = files.fs := by
  funext level shard i
  unfold ShardFiles.fs ShardFiles.sync
  split_ifs with hfile
  · cases files level shard with
    | none => rfl
    | some f => rfl
  · rfl

variable {i : ℕ} {c : Chunk Hash}

/-- The hashes that a write puts into the file. -/
theorem write_home_eq (files : ShardFiles Hash) (k i : ℕ) (c : Chunk Hash) (k' s : ℕ) :
    files.write (.home k i c) k' s = if k' = k ∧ s = i / CHUNKS_PER_SHARD then
      some (((files k' s).getD (.synced [])).write (i % CHUNKS_PER_SHARD * CHUNK_SIZE)
        (List.ofFn (c.asSlice files.fs))) else files k' s := rfl

/-- What a crash may leave of node `p` after chunk `i` of level `k'` was written: one more
possibility for the nodes of the chunk, and nothing else. -/
theorem FileSat.write (h : FileSat files k p P) {k' : ℕ}
    (hc : k = k' → p / CHUNK_SIZE = i →
      P (c.asSlice files.fs ⟨p % CHUNK_SIZE, Nat.mod_lt _ CHUNK_SIZE_pos⟩)) :
    FileSat (files.write (.home k' i c)) k p P := by
  obtain ⟨f, hf, hv⟩ := h
  unfold FileSat
  rw [write_home_eq]
  split_ifs with hfile
  · obtain ⟨hk, hs⟩ := hfile
    rw [hf, Option.getD_some]
    refine ⟨_, rfl, fun v hm => ?_⟩
    rw [CrashFile.write, CrashFile.contents_become, List.mem_cons] at hm
    rcases hm with rfl | hm
    · obtain ⟨x, hx, hP⟩ := hv _ f.now_mem_contents
      by_cases hp : p / CHUNK_SIZE = i
      · obtain ⟨-, h1, h2⟩ := place_eq_iff.mpr hp
        rw [CrashFile.getElem?_writeAt_of_mem h1 (by rw [List.length_ofFn]; exact h2),
          slotOf_sub hp, List.getElem?_ofFn, dif_pos (Nat.mod_lt _ CHUNK_SIZE_pos)]
        exact ⟨_, rfl, hc hk hp⟩
      · refine ⟨x, ?_, hP⟩
        rw [CrashFile.getElem?_writeAt_of_lt (List.getElem?_eq_some_iff.mp hx).1, hx]
        rw [List.length_ofFn]
        by_contra hno
        exact hp (place_eq_iff.mp ⟨hs, by omega, by omega⟩)
    · exact hv v hm
  · exact ⟨f, hf, hv⟩

theorem NowSat.write (h : NowSat files k p P) {k' : ℕ}
    (hc : k = k' → p / CHUNK_SIZE = i →
      P (c.asSlice files.fs ⟨p % CHUNK_SIZE, Nat.mod_lt _ CHUNK_SIZE_pos⟩)) :
    NowSat (files.write (.home k' i c)) k p P := by
  obtain ⟨f, hf, x, hx, hP⟩ := h
  unfold NowSat
  rw [write_home_eq]
  split_ifs with hfile
  · obtain ⟨hk, hs⟩ := hfile
    rw [hf, Option.getD_some]
    refine ⟨_, rfl, ?_⟩
    by_cases hp : p / CHUNK_SIZE = i
    · obtain ⟨-, h1, h2⟩ := place_eq_iff.mpr hp
      rw [CrashFile.write, CrashFile.now_become,
        CrashFile.getElem?_writeAt_of_mem h1 (by rw [List.length_ofFn]; exact h2),
        slotOf_sub hp, List.getElem?_ofFn, dif_pos (Nat.mod_lt _ CHUNK_SIZE_pos)]
      exact ⟨_, rfl, hc hk hp⟩
    · refine ⟨x, ?_, hP⟩
      rw [CrashFile.write, CrashFile.now_become,
        CrashFile.getElem?_writeAt_of_lt (List.getElem?_eq_some_iff.mp hx).1, hx]
      rw [List.length_ofFn]
      by_contra hno
      exact hp (place_eq_iff.mp ⟨hs, by omega, by omega⟩)
  · exact ⟨f, hf, x, hx, hP⟩

/-- The nodes of the chunk that was just written. -/
theorem nowSat_write (hp : p / CHUNK_SIZE = i)
    (hc : P (c.asSlice files.fs ⟨p % CHUNK_SIZE, Nat.mod_lt _ CHUNK_SIZE_pos⟩)) :
    NowSat (files.write (.home k i c)) k p P := by
  obtain ⟨hs, h1, h2⟩ := place_eq_iff.mpr hp
  unfold NowSat
  rw [write_home_eq, if_pos ⟨rfl, hs⟩]
  refine ⟨_, rfl, ?_⟩
  rw [CrashFile.write, CrashFile.now_become,
    CrashFile.getElem?_writeAt_of_mem h1 (by rw [List.length_ofFn]; exact h2),
    slotOf_sub hp, List.getElem?_ofFn, dif_pos (Nat.mod_lt _ CHUNK_SIZE_pos)]
  exact ⟨_, rfl, hc⟩

/-- What a mapping reads after a write. -/
theorem nodeAt_write (files : ShardFiles Hash) (k i : ℕ) (c : Chunk Hash) (k' p : ℕ) :
    nodeAt (files.write (.home k i c)).fs k' p =
      if k' = k ∧ p / CHUNK_SIZE = i then
        c.asSlice files.fs ⟨p % CHUNK_SIZE, Nat.mod_lt _ CHUNK_SIZE_pos⟩
      else nodeAt files.fs k' p := by
  split_ifs with h
  · obtain ⟨rfl, hp⟩ := h
    exact (nowSat_write (P := fun x => x = _) hp rfl).nodeAt
  · unfold nodeAt ShardFiles.fs
    rw [write_home_eq]
    by_cases hfile : k' = k ∧ shardOf p = i / CHUNKS_PER_SHARD
    · rw [if_pos hfile]
      dsimp only
      rw [CrashFile.write, CrashFile.now_become, CrashFile.getD_writeAt_of_not_mem]
      · cases files k' (shardOf p) with
        | none => rfl
        | some f => rfl
      · rw [List.length_ofFn]
        by_contra hno
        exact h ⟨hfile.1, place_eq_iff.mp ⟨hfile.2, by omega, by omega⟩⟩
    · rw [if_neg hfile]

end Files

/-! ### Mappings -/

/-- The region of shard `s` when `n` chunks of level `k` are mapped. -/
def regionOf (k n s : ℕ) : MmapRegion :=
  ⟨k, s, min CHUNKS_PER_SHARD (n - s * CHUNKS_PER_SHARD) * CHUNK_BYTE_SIZE⟩

section Mappings

variable {files : ShardFiles Hash} {k n : ℕ}

/-- The last node of the mapped part of shard `s`. -/
theorem last_place {n s : ℕ} (hs : s * CHUNKS_PER_SHARD < n) :
    ∃ p < n * CHUNK_SIZE, shardOf p = s ∧
      slotOf p + 1 = min CHUNKS_PER_SHARD (n - s * CHUNKS_PER_SHARD) * CHUNK_SIZE := by
  refine ⟨(s * CHUNKS_PER_SHARD + min CHUNKS_PER_SHARD (n - s * CHUNKS_PER_SHARD)) * CHUNK_SIZE - 1,
    ?_⟩
  unfold shardOf slotOf
  unfold CHUNKS_PER_SHARD CHUNK_SIZE at *
  refine ⟨?_, ?_, ?_⟩ <;> omega

theorem mmapShards_spec (hp : ∀ p < n * CHUNK_SIZE, NowSat files k p fun _ => True) (m : ℕ) :
    ∀ (s : ℕ) (regions : List MmapRegion), s + m ≤ n ⌈/⌉ CHUNKS_PER_SHARD →
      mmapShards files k n m s regions =
        .ok (regions ++ (List.range' s m).map (regionOf k n)) := by
  induction m with
  | zero => intro s regions _; simp [mmapShards]
  | succ m ih =>
      intro s regions hs
      have hlt : s * CHUNKS_PER_SHARD < n :=
        (LeanTree.lt_ceilDiv_iff CHUNKS_PER_SHARD_pos).mp (by omega)
      obtain ⟨p, hpn, hsh, hslot⟩ := last_place hlt
      obtain ⟨f, hf, x, hx, -⟩ := hp p hpn
      rw [hsh] at hf
      have hlen := (List.getElem?_eq_some_iff.mp hx).1
      have hfit : min CHUNKS_PER_SHARD (n - s * CHUNKS_PER_SHARD) * CHUNK_BYTE_SIZE ≤
          f.now.length * 32 := by
        rw [CHUNK_BYTE_SIZE, ← Nat.mul_assoc, ← hslot]
        exact Nat.mul_le_mul_right _ hlen
      unfold mmapShards
      rw [hf]
      dsimp only
      rw [if_neg (by omega), ih (s + 1) _ (by omega), List.range'_succ, List.map_cons,
        List.append_assoc, List.singleton_append, regionOf]

theorem mmapLevelShards_spec (hp : ∀ p < n * CHUNK_SIZE, NowSat files k p fun _ => True) :
    mmapLevelShards files k n =
      .ok ((List.range (n ⌈/⌉ CHUNKS_PER_SHARD)).map (regionOf k n)) := by
  unfold mmapLevelShards
  split_ifs with h0
  · subst h0
    simp
  · rw [mmapShards_spec hp _ 0 [] (by omega), List.range_eq_range', List.nil_append]

/-- The region of a mapped chunk. -/
theorem getElem?_regions {i : ℕ} (hi : i < n) :
    ((List.range (n ⌈/⌉ CHUNKS_PER_SHARD)).map (regionOf k n))[(shardAddress i).1]? =
      some (regionOf k n (i / CHUNKS_PER_SHARD)) := by
  have hs : i / CHUNKS_PER_SHARD < n ⌈/⌉ CHUNKS_PER_SHARD := by
    rw [LeanTree.lt_ceilDiv_iff CHUNKS_PER_SHARD_pos]
    have := Nat.div_mul_le_self i CHUNKS_PER_SHARD
    omega
  rw [List.getElem?_map, show (shardAddress i).1 = i / CHUNKS_PER_SHARD from rfl,
    List.getElem?_range hs, Option.map_some]

/-- A mapped chunk lies in the valid part of its region. -/
theorem regionOf_fits {i : ℕ} (hi : i < n) : (shardAddress i).2 + CHUNK_BYTE_SIZE ≤
    (regionOf k n (i / CHUNKS_PER_SHARD)).validLen := by
  unfold shardAddress regionOf CHUNK_BYTE_SIZE CHUNKS_PER_SHARD CHUNK_SIZE
  dsimp only
  omega

/-- A mapped chunk is a window at home. -/
theorem Chunk.mapAt_spec {i : ℕ} (hi : i < n) :
    (Chunk.mapAt ((List.range (n ⌈/⌉ CHUNKS_PER_SHARD)).map (regionOf k n)) i :
      Outcome StorageError (Chunk Hash)) =
      .ok (Chunk.home k (regionOf k n (i / CHUNKS_PER_SHARD)).validLen i) := by
  unfold Chunk.mapAt Chunk.newMapped
  rw [getElem?_regions hi, Outcome.expect_some, Outcome.ok_bind,
    Outcome.require_pos (regionOf_fits hi), Outcome.ok_bind]
  rfl

theorem mapM_mapAt :
    ((List.range n).mapM (Chunk.mapAt ((List.range (n ⌈/⌉ CHUNKS_PER_SHARD)).map (regionOf k n))) :
      Outcome StorageError (List (Chunk Hash))) =
      .ok ((List.range n).map fun i =>
        Chunk.home k (regionOf k n (i / CHUNKS_PER_SHARD)).validLen i) := by
  apply Outcome.mapM_ok
  intro i hi
  rw [List.mem_range] at hi
  exact Chunk.mapAt_spec hi

end Mappings

/-! ### Levels made of windows -/

namespace ChunkedLevel

theorem chunks_fromParts (cs : List (Chunk Hash)) (len : ℕ) : (fromParts cs len).chunks = cs := by
  have hpos := CHUNKS_PER_SEGMENT_pos
  have hle := Nat.div_mul_le_self cs.length CHUNKS_PER_SEGMENT
  have hblocks : (fromParts cs len).segments.flatMap List.ofFn =
      cs.take (cs.length / CHUNKS_PER_SEGMENT * CHUNKS_PER_SEGMENT) := by
    apply List.ext_getElem?
    intro i
    rw [FixedArray.getElem?_blocks hpos]
    rcases Nat.lt_or_ge i (cs.length / CHUNKS_PER_SEGMENT * CHUNKS_PER_SEGMENT) with hi | hi
    · have hs : i / CHUNKS_PER_SEGMENT < cs.length / CHUNKS_PER_SEGMENT :=
        (Nat.div_lt_iff_lt_mul hpos).mpr hi
      rw [List.getElem?_take_of_lt hi, fromParts]
      dsimp only
      rw [List.getElem?_ofFn, dif_pos hs, Option.map_some, List.getElem?_eq_getElem (by omega)]
      simp only [List.get_eq_getElem, Nat.div_add_mod' i CHUNKS_PER_SEGMENT]
    · have hs : cs.length / CHUNKS_PER_SEGMENT ≤ i / CHUNKS_PER_SEGMENT :=
        (Nat.le_div_iff_mul_le hpos).mpr hi
      rw [fromParts]
      dsimp only
      rw [List.getElem?_eq_none (by simpa using hs), List.getElem?_eq_none (by simp; omega)]
      rfl
  rw [chunks, hblocks]
  exact List.take_append_drop _ _

theorem pending_fromParts (cs : List (Chunk Hash)) (len : ℕ) :
    (fromParts cs len).pending.length < CHUNKS_PER_SEGMENT := by
  rw [fromParts]
  dsimp only
  rw [List.length_drop]
  have h1 := Nat.div_add_mod' cs.length CHUNKS_PER_SEGMENT
  have h2 := Nat.mod_lt cs.length CHUNKS_PER_SEGMENT_pos
  omega

theorem chunksSince_eq (lvl : ChunkedLevel Hash) (already : ℕ) :
    lvl.chunksSince already = .ok (lvl.chunks.drop already) := by
  unfold chunksSince
  rw [← length_chunks]
  generalize hl : lvl.chunks.drop already = rest
  have hlen : lvl.chunks.length - already = rest.length := by rw [← hl, List.length_drop]
  rw [hlen]
  cases rest with
  | nil => rfl
  | cons d ds =>
      rw [Outcome.mapM_ok (g := fun i => ((d :: ds)[i]?).getD d)]
      · congr 1
        apply List.ext_getElem?
        intro i
        rcases Nat.lt_or_ge i (d :: ds).length with hi | hi
        · rw [List.getElem?_map, List.getElem?_range hi, Option.map_some,
            List.getElem?_eq_getElem hi, Option.getD_some]
        · rw [List.getElem?_eq_none (by simpa using hi), List.getElem?_eq_none hi]
      · intro i hi
        rw [List.mem_range] at hi
        rw [chunk_eq, ← hl, List.getElem?_drop, List.getElem?_eq_getElem (by omega)]
        rfl

variable {fs : ShardFs Hash} {lvl lvl' : ChunkedLevel Hash} {l : List Hash} {k n : ℕ}

/-- The first `n` chunks are windows at home, the others those of `lvl`. -/
structure Remapped (k n : ℕ) (lvl lvl' : ChunkedLevel Hash) : Prop where
  home : ∀ i < n, ∃ v, lvl'.chunks[i]? = some (Chunk.home k v i)
  rest : ∀ i, n ≤ i → lvl'.chunks[i]? = lvl.chunks[i]?
  pending : lvl'.pending.length < CHUNKS_PER_SEGMENT
  len : lvl'.len = lvl.len

theorem remapChunks_spec (hn : 0 < n) (hle : n ≤ lvl.chunkCount) :
    ∃ lvl', lvl.remapChunks n ((List.range (n ⌈/⌉ CHUNKS_PER_SHARD)).map (regionOf k n)) = .ok lvl' ∧
      Remapped k n lvl lvl' := by
  have hne : 0 < n ⌈/⌉ CHUNKS_PER_SHARD :=
    (LeanTree.lt_ceilDiv_iff CHUNKS_PER_SHARD_pos).mpr (by omega)
  unfold remapChunks
  dsimp only
  rw [Nat.min_eq_left hle, if_neg (by simp; omega), chunksSince_eq, Outcome.mapErr_ok,
    Outcome.ok_bind, mapM_mapAt, Outcome.ok_bind]
  refine ⟨_, rfl, ?_⟩
  have hchunks := chunks_foldl_pushChunk ((List.range n).map (fun i =>
    Chunk.home k (regionOf k n (i / CHUNKS_PER_SHARD)).validLen i) ++ lvl.chunks.drop n)
    ⟨[], [], lvl.len⟩
  refine ⟨?_, ?_, pending_foldl_pushChunk _ CHUNKS_PER_SEGMENT_pos, ?_⟩
  · intro i hi
    refine ⟨(regionOf k n (i / CHUNKS_PER_SHARD)).validLen, ?_⟩
    rw [hchunks, show (⟨[], [], lvl.len⟩ : ChunkedLevel Hash).chunks = [] from rfl, List.nil_append,
      List.getElem?_append_left (by simpa using hi), List.getElem?_map, List.getElem?_range hi,
      Option.map_some]
  · intro i hi
    rw [hchunks, show (⟨[], [], lvl.len⟩ : ChunkedLevel Hash).chunks = [] from rfl,
      List.nil_append, List.getElem?_append_right (by simpa using hi), List.getElem?_drop]
    congr 1
    simp
    omega
  · exact len_foldl_pushChunk _ _

/-- Remapped chunks whose files hold the nodes. -/
theorem Holds.remapped (hl : Holds fs lvl l) (h : Remapped k n lvl lvl')
    (hle : n ≤ lvl.chunks.length) (hnodes : ∀ p < n * CHUNK_SIZE, l[p]? = some (nodeAt fs k p)) :
    Holds fs lvl' l where
  len := h.len.trans hl.len
  pending := h.pending
  count := by
    rw [← hl.count]
    apply le_antisymm
    · by_contra hlt
      have hrest := h.rest lvl.chunks.length hle
      rw [List.getElem?_eq_getElem (by omega), List.getElem?_eq_none le_rfl] at hrest
      cases hrest
    · by_contra hlt
      rcases Nat.lt_or_ge lvl'.chunks.length n with h1 | h1
      · obtain ⟨v, hv⟩ := h.home _ h1
        rw [List.getElem?_eq_none le_rfl] at hv
        cases hv
      · have hrest := h.rest lvl'.chunks.length h1
        rw [List.getElem?_eq_none le_rfl, List.getElem?_eq_getElem (by omega)] at hrest
        cases hrest
  cells := by
    intro p hp
    rcases Nat.lt_or_ge (p / CHUNK_SIZE) n with h1 | h1
    · obtain ⟨v, hv⟩ := h.home _ h1
      rw [cell_home hv, hnodes p ((Nat.div_lt_iff_lt_mul CHUNK_SIZE_pos).mp h1)]
    · rw [← hl.cells p hp, cell, cell, h.rest _ h1]

theorem AtHome.remapped (hl : AtHome k lvl) (h : Remapped k n lvl lvl') : AtHome k lvl' := by
  intro i c hc hm
  rcases Nat.lt_or_ge i n with h1 | h1
  · obtain ⟨v, hv⟩ := h.home i h1
    rw [hv, Option.some.injEq] at hc
    exact ⟨v, hc.symm⟩
  · rw [h.rest i h1] at hc
    exact hl i c hc hm

theorem AtHome.derived (hl : AtHome k lvl) (h : Derived lvl lvl') : AtHome k lvl' :=
  fun i c hc hm => hl i c (h i c hc hm) hm

/-- A level reads the same when the files it maps do. -/
theorem Holds.of_fs {fs' : ShardFs Hash} (hl : Holds fs lvl l) (hh : AtHome k lvl)
    (hfs : ∀ p < l.length, (∀ c, lvl.chunks[p / CHUNK_SIZE]? = some c → c.IsMapped) →
      nodeAt fs' k p = nodeAt fs k p) : Holds fs' lvl l where
  len := hl.len
  pending := hl.pending
  count := hl.count
  cells := by
    intro p hp
    rw [← hl.cells p hp]
    obtain ⟨c, hc⟩ := hl.exists_chunk hp
    cases c with
    | memory data => rw [cell, cell, hc]; rfl
    | mapped region offset =>
        obtain ⟨v, hv⟩ := hh _ _ hc trivial
        rw [hv] at hc
        rw [cell_home hc, cell_home hc, hfs p hp]
        intro c' hc'
        rw [hc, Option.some.injEq] at hc'
        rw [← hc']
        trivial

end ChunkedLevel

/-! ### The writes of a checkpoint -/

/-- Consecutive pieces of a list, put together again. -/
theorem flatMap_pieces {α : Type} (l : List α) (cut : ℕ → ℕ) (hcut : ∀ s, cut s ≤ cut (s + 1))
    (first n : ℕ) (h0 : cut first = 0) :
    (List.range' first n).flatMap (fun s => (l.take (cut (s + 1))).drop (cut s)) =
      l.take (cut (first + n)) := by
  induction n with
  | zero => simp [h0]
  | succ n ih =>
      rw [List.range'_concat, List.flatMap_append, ih, List.flatMap_cons, List.flatMap_nil,
        List.append_nil, Nat.one_mul, ← Nat.add_assoc]
      have h := hcut (first + n)
      have e : l.take (cut (first + n)) = (l.take (cut (first + n + 1))).take (cut (first + n)) := by
        rw [List.take_take, Nat.min_eq_left h]
      rw [e, List.take_append_drop]

/-- The place of a chunk, counted from the first chunk of its shard. -/
theorem home_place {fromChunk s i : ℕ}
    (h : s * CHUNKS_PER_SHARD - fromChunk + i < (s + 1) * CHUNKS_PER_SHARD - fromChunk) :
    (fromChunk + (s * CHUNKS_PER_SHARD - fromChunk + i)) / CHUNKS_PER_SHARD = s ∧
    (fromChunk + (s * CHUNKS_PER_SHARD - fromChunk + i)) % CHUNKS_PER_SHARD * CHUNK_SIZE =
      (shardAddress (fromChunk + (s * CHUNKS_PER_SHARD - fromChunk))).2 / 32 + i * CHUNK_SIZE := by
  unfold shardAddress CHUNK_BYTE_SIZE CHUNK_SIZE
  unfold CHUNKS_PER_SHARD at h ⊢
  dsimp only
  omega

/-- `append_chunks_to_level` writes every chunk to its home. -/
theorem appendChunksToLevel_eq (level fromChunk : ℕ) (chunks : List (Chunk Hash)) :
    appendChunksToLevel level fromChunk chunks =
      chunks.mapIdx fun i c => ShardWrite.home level (fromChunk + i) c := by
  unfold appendChunksToLevel
  split_ifs with hne
  · rw [List.isEmpty_iff] at hne
    simp [hne]
  · have hpos : 0 < chunks.length := by
      rw [List.isEmpty_iff] at hne
      exact List.length_pos_iff.mpr hne
    set l := chunks.mapIdx fun i c => ShardWrite.home level (fromChunk + i) c with hl
    have hpiece : ∀ s, (((chunks.take (min ((s + 1) * CHUNKS_PER_SHARD - fromChunk)
          chunks.length)).drop (s * CHUNKS_PER_SHARD - fromChunk)).mapIdx fun i c =>
          (⟨level, s, (shardAddress (fromChunk + (s * CHUNKS_PER_SHARD - fromChunk))).2 / 32 +
            i * CHUNK_SIZE, c⟩ : ShardWrite Hash)) =
        (l.take ((s + 1) * CHUNKS_PER_SHARD - fromChunk)).drop (s * CHUNKS_PER_SHARD - fromChunk) := by
      intro s
      apply List.ext_getElem?
      intro i
      rw [List.getElem?_mapIdx, List.getElem?_drop, List.getElem?_drop, List.getElem?_take,
        List.getElem?_take, hl, List.getElem?_mapIdx]
      rcases Nat.lt_or_ge (s * CHUNKS_PER_SHARD - fromChunk + i) chunks.length with h1 | h1
      · by_cases h2 : s * CHUNKS_PER_SHARD - fromChunk + i < (s + 1) * CHUNKS_PER_SHARD - fromChunk
        · obtain ⟨h3, h4⟩ := home_place h2
          rw [if_pos (lt_min h2 h1), if_pos h2, List.getElem?_eq_getElem h1, Option.map_some,
            Option.map_some, ShardWrite.home, h3, h4]
        · rw [if_neg (by omega), if_neg h2]
          rfl
      · rw [List.getElem?_eq_none h1, ite_self, Option.map_none, Option.map_none, ite_self]
    have hlast : chunks.length ≤
        (fromChunk / CHUNKS_PER_SHARD + ((fromChunk + chunks.length - 1) / CHUNKS_PER_SHARD + 1 -
          fromChunk / CHUNKS_PER_SHARD)) * CHUNKS_PER_SHARD - fromChunk := by
      have h1 : fromChunk / CHUNKS_PER_SHARD ≤ (fromChunk + chunks.length - 1) / CHUNKS_PER_SHARD :=
        Nat.div_le_div_right (by omega)
      have h2 := Nat.lt_div_mul_add (a := fromChunk + chunks.length - 1) CHUNKS_PER_SHARD_pos
      rw [Nat.add_sub_cancel' (by omega), Nat.add_mul, Nat.one_mul]
      omega
    dsimp only
    rw [List.flatMap_congr fun s _ => hpiece s, shardRange,
      flatMap_pieces l (fun s => s * CHUNKS_PER_SHARD - fromChunk)
        (fun s => Nat.sub_le_sub_right (Nat.mul_le_mul_right _ (Nat.le_add_right s 1)) _) _ _
        (Nat.sub_eq_zero_of_le (Nat.div_mul_le_self _ _)),
      List.take_of_length_le (by rw [hl, List.length_mapIdx]; exact hlast)]

end Works.Rotortree
