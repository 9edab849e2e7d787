import Works.Rotortree.Storage.ShardSpec

/-! # The shard files of a level are one array of chunks

Over any sequence of calls of `append_chunks_to_level` that leave no gap, the files of a level
hold the chunks last written, and what is mapped reads them back (`shards_read_back`). -/

namespace Works.Rotortree

open Works.Lib FixedArray

variable {Hash : Type} [Zero Hash] {files : ShardFiles Hash} {k : ℕ}
  {written : List (Fin CHUNK_SIZE → Hash)}

/-- The writes of one call of `append_chunks_to_level`, done. -/
def ShardFiles.append (files : ShardFiles Hash) (k fromChunk : ℕ)
    (chunks : List (Fin CHUNK_SIZE → Hash)) : ShardFiles Hash :=
  (appendChunksToLevel k fromChunk (chunks.map Chunk.memory)).foldl ShardFiles.write files

/-- The files of level `k` after a sequence of calls, from any files on, and the chunks last
written for each index. -/
inductive ShardRun (k : ℕ) : ShardFiles Hash → List (Fin CHUNK_SIZE → Hash) → Prop
  | start (files : ShardFiles Hash) : ShardRun k files []
  | append {files : ShardFiles Hash} {written : List (Fin CHUNK_SIZE → Hash)}
      (run : ShardRun k files written) (fromChunk : ℕ) (chunks : List (Fin CHUNK_SIZE → Hash))
      (noGap : fromChunk ≤ written.length) :
      ShardRun k (files.append k fromChunk chunks) (splice written fromChunk chunks)

/-- The files hold these chunks. -/
def HoldsChunks (files : ShardFiles Hash) (k : ℕ) (written : List (Fin CHUNK_SIZE → Hash)) : Prop :=
  ∀ (i : ℕ) (c : Fin CHUNK_SIZE → Hash), written[i]? = some c →
    ∀ j : Fin CHUNK_SIZE, NowSat files k (i * CHUNK_SIZE + j) (· = c j)

theorem HoldsChunks.write (h : HoldsChunks files k written) {i : ℕ} (hi : i ≤ written.length)
    (c : Fin CHUNK_SIZE → Hash) :
    HoldsChunks (files.write (.home k i (.memory c))) k (splice written i [c]) := by
  intro i' c' hc' j
  obtain ⟨hdiv, hmod⟩ := chunk_div_mod i' j
  rw [getElem?_splice_of_le hi, List.length_singleton] at hc'
  split_ifs at hc' with hnew
  · obtain rfl : i' = i := by omega
    rw [Nat.sub_self, List.getElem?_cons_zero, Option.some.injEq] at hc'
    apply nowSat_write hdiv
    simp only [hmod, ← hc']
    rfl
  · apply (h i' c' hc' j).write
    intro _ hin
    omega

theorem HoldsChunks.append : ∀ {files : ShardFiles Hash} {written : List (Fin CHUNK_SIZE → Hash)}
    (_ : HoldsChunks files k written) {fromChunk : ℕ} (_ : fromChunk ≤ written.length)
    (chunks : List (Fin CHUNK_SIZE → Hash)),
    HoldsChunks (files.append k fromChunk chunks) k (splice written fromChunk chunks)
  | files, written, h, fromChunk, _, [] => by
      rw [splice_nil]
      exact h
  | files, written, h, fromChunk, hfrom, c :: chunks => by
      have hlen : fromChunk + 1 ≤ (splice written fromChunk [c]).length := by
        simp only [splice, List.length_append, List.length_take, List.length_singleton]
        omega
      have hrest := HoldsChunks.append (h.write hfrom c) hlen chunks
      have hwrites : files.append k fromChunk (c :: chunks) =
          (files.write (.home k fromChunk (.memory c))).append k (fromChunk + 1) chunks := by
        simp only [ShardFiles.append, appendChunksToLevel_eq, List.map_cons, List.mapIdx_cons,
          List.foldl_cons, Nat.add_zero, Nat.add_assoc, Nat.add_comm 1]
      rw [splice_cons hfrom, hwrites]
      exact hrest

theorem ShardRun.holdsChunks (h : ShardRun k files written) : HoldsChunks files k written := by
  induction h with
  | start files =>
      intro i c hc
      simp at hc
  | append _ fromChunk chunks noGap ih => exact ih.append noGap chunks

/-- **What is mapped are the chunks last written**, each in the valid part of its region. -/
theorem shards_read_back (h : ShardRun k files written) {validChunks : ℕ}
    (hvalid : validChunks ≤ written.length) :
    ∃ regions, mmapLevelShards files k validChunks = .ok regions ∧
      ∀ (i : ℕ) (c : Fin CHUNK_SIZE → Hash), i < validChunks → written[i]? = some c →
        ∃ region, regions[(shardAddress i).1]? = some region ∧
          (shardAddress i).2 + CHUNK_BYTE_SIZE ≤ region.validLen ∧
          Chunk.asSlice files.fs (.mapped region (shardAddress i).2) = c := by
  have hholds := h.holdsChunks
  have hnodes : ∀ p < validChunks * CHUNK_SIZE, NowSat files k p fun _ => True := by
    intro p hp
    have hchunk : p / CHUNK_SIZE < written.length :=
      (Nat.div_lt_of_lt_mul (by rwa [Nat.mul_comm])).trans_le hvalid
    have hnode := hholds _ _ (List.getElem?_eq_getElem hchunk)
      ⟨p % CHUNK_SIZE, Nat.mod_lt p CHUNK_SIZE_pos⟩
    rw [Nat.div_add_mod'] at hnode
    exact hnode.imp fun _ _ => trivial
  refine ⟨_, mmapLevelShards_spec hnodes, fun i c hi hc => ?_⟩
  refine ⟨_, getElem?_regions hi, regionOf_fits hi, ?_⟩
  funext j
  exact (Chunk.asSlice_home files.fs k _ i j).trans (hholds i c hc j).nodeAt

/-- A chunk of one value. -/
def constChunk (x : ℕ) : Fin CHUNK_SIZE → ℕ := fun _ => x

/-- Three chunks, of which the last two were written again. -/
def rewrittenFiles : ShardFiles ℕ :=
  (ShardFiles.append (fun _ _ => none) 0 0 [constChunk 1, constChunk 2, constChunk 3]).append 0 1
    [constChunk 4, constChunk 5]

theorem rewrittenFiles_read_back : ∃ regions, mmapLevelShards rewrittenFiles 0 3 = .ok regions ∧
    ∃ region, regions[0]? = some region ∧
      Chunk.asSlice rewrittenFiles.fs (.mapped region (2 * CHUNK_BYTE_SIZE)) = constChunk 5 := by
  have run : ShardRun 0 rewrittenFiles [constChunk 1, constChunk 4, constChunk 5] :=
    ((ShardRun.start _).append 0 [constChunk 1, constChunk 2, constChunk 3] le_rfl).append 1
      [constChunk 4, constChunk 5] (by decide)
  obtain ⟨regions, hregions, hread⟩ := shards_read_back run (Nat.le_refl 3)
  obtain ⟨region, hregion, -, hchunk⟩ := hread 2 (constChunk 5) (by decide) rfl
  exact ⟨regions, hregions, region, hregion, hchunk⟩

end Works.Rotortree
