import Works.Rotortree.Storage.LevelFiles
import Works.Rotortree.Storage.Recovery

/-! # Loading a checkpoint

Whatever the level files hold, as long as they are large enough, a tree is made of windows onto
them: each level is the list of hashes that the file has at its places (`loadCheckpoint_spec`),
and `recompute_root` computes the tree over the first of these lists (`recomputeRoot_spec`).
When the files hold the levels over the leaves `L`, the loaded tree refines `L`. -/

namespace Works.Rotortree

open Works.Lib ChunkedLevel

variable {Hash : Type} {N MAX_DEPTH : ℕ}

/-- The first `n` nodes of level `k` as the files have them. -/
def storedNodes (fs : ShardFs Hash) (k n : ℕ) : List Hash := (List.range n).map (nodeAt fs k)

@[simp] theorem length_storedNodes (fs : ShardFs Hash) (k n : ℕ) :
    (storedNodes fs k n).length = n := by simp [storedNodes]

theorem getElem?_storedNodes {fs : ShardFs Hash} {k n p : ℕ} (hp : p < n) :
    (storedNodes fs k n)[p]? = some (nodeAt fs k p) := by
  rw [storedNodes, List.getElem?_map, List.getElem?_range hp, Option.map_some]

theorem levelLen_eq (hN : 2 ≤ N) (n k : ℕ) : levelLen N n k = n ⌈/⌉ N ^ k := by
  induction k with
  | zero => simp [levelLen]
  | succ k ih =>
      rw [levelLen, ih, LeanTree.ceilDiv_ceilDiv (Nat.pow_pos (by omega)) (by omega),
        Nat.pow_succ]

/-- The files of the levels that metadata with `n` leaves and depth `depth` names are large
enough. -/
def LargeEnough (files : ShardFiles Hash) (N MAX_DEPTH n depth : ℕ) : Prop :=
  ∀ k ≤ min depth (MAX_DEPTH - 1), ∀ p < levelLen N n k ⌈/⌉ CHUNK_SIZE * CHUNK_SIZE,
    NowSat files k p fun _ => True

section Level

variable [Zero Hash] {files : ShardFiles Hash}

/-- A level of a checkpoint is made of windows onto its files. -/
theorem recoverLevel_spec {n k : ℕ}
    (h : ∀ p < levelLen N n k ⌈/⌉ CHUNK_SIZE * CHUNK_SIZE, NowSat files k p fun _ => True) :
    ∃ lvl, recoverLevel files N n k = .ok lvl ∧ AtHome k lvl ∧
      Holds files.fs lvl (storedNodes files.fs k (levelLen N n k)) := by
  unfold recoverLevel
  dsimp only
  by_cases h0 : levelLen N n k = 0
  · refine ⟨ChunkedLevel.new, by rw [if_pos h0]; rfl, ?_, ?_⟩
    · intro i c hc
      simp [ChunkedLevel.new, ChunkedLevel.chunks] at hc
    · rw [h0]
      exact new_holds _
  · have hpos : 0 < levelLen N n k ⌈/⌉ CHUNK_SIZE :=
      (LeanTree.lt_ceilDiv_iff CHUNK_SIZE_pos).mpr (by omega)
    have hpos' : 0 < (levelLen N n k ⌈/⌉ CHUNK_SIZE) ⌈/⌉ CHUNKS_PER_SHARD :=
      (LeanTree.lt_ceilDiv_iff CHUNKS_PER_SHARD_pos).mpr (by omega)
    rw [if_neg h0, mmapLevelShards_spec h, Outcome.ok_bind, if_neg (by simp; omega), mapM_mapAt,
      Outcome.ok_bind]
    refine ⟨_, rfl, ?_, ?_⟩
    · intro i c hc _
      rw [chunks_fromParts, List.getElem?_map, Option.map_eq_some_iff] at hc
      obtain ⟨j, hj, rfl⟩ := hc
      obtain ⟨hlt, rfl⟩ := List.getElem?_eq_some_iff.mp hj
      rw [List.getElem_range]
      exact ⟨_, rfl⟩
    · refine ⟨⟨?_, pending_fromParts _ _, ?_⟩, by rw [length_storedNodes]; rfl⟩
      · rw [chunks_fromParts, List.length_map, List.length_range, length_storedNodes]
      · intro p hp
        rw [length_storedNodes] at hp
        have hi : p / CHUNK_SIZE < levelLen N n k ⌈/⌉ CHUNK_SIZE := by
          rw [LeanTree.lt_ceilDiv_iff CHUNK_SIZE_pos]
          exact (Nat.div_mul_le_self _ _).trans_lt hp
        rw [getElem?_storedNodes hp]
        apply cell_home (v := (regionOf k (levelLen N n k ⌈/⌉ CHUNK_SIZE)
          (p / CHUNK_SIZE / CHUNKS_PER_SHARD)).validLen)
        rw [chunks_fromParts, List.getElem?_map, List.getElem?_range hi, Option.map_some]

/-- **Loading.**  The tree of a checkpoint holds what the files have. -/
theorem loadCheckpoint_spec {m : MetaFrame Hash}
    (h : LargeEnough files N MAX_DEPTH m.leafCount m.depth) :
    ∃ inner : TreeInner Hash N MAX_DEPTH, loadCheckpoint files m = .ok inner ∧
      inner.size = m.leafCount ∧ inner.depth = m.depth ∧
      inner.root = (if 0 < m.leafCount then some m.rootHash else none) ∧
      ∀ k : Fin MAX_DEPTH, AtHome k (inner.levels k) ∧
        Holds files.fs (inner.levels k) (if k.val ≤ m.depth then
          storedNodes files.fs k (levelLen N m.leafCount k) else []) := by
  unfold loadCheckpoint
  have hspec : ∀ k, ∃ lvl, k ≤ min m.depth (MAX_DEPTH - 1) →
      recoverLevel files N m.leafCount k = .ok lvl ∧ AtHome k lvl ∧
        Holds files.fs lvl (storedNodes files.fs k (levelLen N m.leafCount k)) := by
    intro k
    by_cases hk : k ≤ min m.depth (MAX_DEPTH - 1)
    · obtain ⟨lvl, hlvl⟩ := recoverLevel_spec (h k hk)
      exact ⟨lvl, fun _ => hlvl⟩
    · exact ⟨ChunkedLevel.new, fun hk' => absurd hk' hk⟩
  choose lvl hlvl using hspec
  dsimp only
  rw [Outcome.mapM_ok (g := lvl) _ fun k hk => (hlvl k (by rw [List.mem_range] at hk; omega)).1,
    Outcome.ok_bind]
  refine ⟨_, rfl, rfl, rfl, rfl, ?_⟩
  intro k
  have hk := k.isLt
  by_cases hd : k.val ≤ m.depth
  · have hget : ((List.range (min m.depth (MAX_DEPTH - 1) + 1)).map lvl).getD k
        ChunkedLevel.new = lvl k := by
      rw [List.getD_eq_getElem?_getD, List.getElem?_map, List.getElem?_range (by omega)]
      rfl
    dsimp only
    rw [hget, if_pos hd]
    exact (hlvl k (by omega)).2
  · have hget : ((List.range (min m.depth (MAX_DEPTH - 1) + 1)).map lvl).getD k
        ChunkedLevel.new = ChunkedLevel.new := by
      rw [List.getD_eq_getElem?_getD, List.getElem?_eq_none (by simp; omega)]
      rfl
    dsimp only
    rw [hget, if_neg hd]
    refine ⟨?_, new_holds _⟩
    intro i c hc
    simp [ChunkedLevel.new, ChunkedLevel.chunks] at hc

end Level

/-! ### `recompute_root` -/

section Recompute

variable {H : Hasher Hash}

theorem hashGroup_spec (hN : 2 ≤ N) {l : List Hash} {j : ℕ} (hj : j * N < l.length) :
    hashGroup H N l j l.length = .ok (LeanTree.combine H.hashChildren (LeanTree.group N l j)) := by
  have hgroup : (l.take (min (j * N + N) l.length)).drop (j * N) = LeanTree.group N l j := by
    rw [LeanTree.group, List.drop_take, List.take_eq_take_iff, List.length_drop]
    omega
  have hlen := LeanTree.length_group (N := N) l j
  unfold hashGroup
  dsimp only
  split_ifs with htally
  · have hone : (LeanTree.group N l j).length = 1 := by omega
    obtain ⟨x, hx⟩ := List.length_eq_one_iff.mp hone
    have hget : l[j * N]? = some x := by
      have := LeanTree.getElem?_group (N := N) l (j := j) (i := 0) (by omega)
      rw [hx] at this
      exact this.symm
    rw [hget, hx]
    rfl
  · rw [hgroup, LeanTree.combine_of_two_le (by omega)]
    rfl

theorem level_parents (l : List Hash) (k : ℕ) :
    LeanTree.level N H.hashChildren (LeanTree.parents N H.hashChildren l) k =
      LeanTree.level N H.hashChildren l (k + 1) := by
  induction k with
  | zero => rfl
  | succ k ih =>
      rw [LeanTree.level_succ, ih]
      rfl

theorem recomputeLevels_spec (hN : 2 ≤ N) (depth : ℕ) (l : List Hash) :
    recomputeLevels H N depth l = .ok (LeanTree.level N H.hashChildren l depth) := by
  induction depth generalizing l with
  | zero => rfl
  | succ depth ih =>
      rw [recomputeLevels, Outcome.mapM_ok (g := fun j =>
        LeanTree.combine H.hashChildren (LeanTree.group N l j)), Outcome.ok_bind]
      · rw [← level_parents]
        exact ih _
      · intro j hj
        rw [List.mem_range, LeanTree.lt_ceilDiv_iff (by omega)] at hj
        exact hashGroup_spec hN hj

theorem level_singleton (hN : 2 ≤ N) (x : Hash) (k : ℕ) :
    LeanTree.level N H.hashChildren [x] k = [x] := by
  induction k with
  | zero => rfl
  | succ k ih =>
      have hone : 1 ⌈/⌉ N = 1 := by
        apply le_antisymm
        · rw [ceilDiv_le_iff_le_mul (by omega)]
          omega
        · exact (LeanTree.lt_ceilDiv_iff (by omega)).mpr (by omega)
      rw [LeanTree.level_succ, ih, LeanTree.parents, List.length_singleton, hone]
      simp [LeanTree.group, List.take_of_length_le (show [x].length ≤ N by simp; omega)]

/-- The recomputed root is the first node that the stored depth leads to from the leaves. -/
theorem recomputeRoot_spec (hN : 2 ≤ N) (hD : 1 ≤ MAX_DEPTH) {fs : ShardFs Hash}
    {t : TreeInner Hash N MAX_DEPTH} {l : List Hash} (hsize : t.size = l.length)
    (hl : Holds fs (t.levels ⟨0, hD⟩) l) :
    recomputeRoot fs H t = .ok (LeanTree.level N H.hashChildren l t.depth).head? := by
  unfold recomputeRoot
  match l, hsize, hl with
  | [], hsize, _ =>
      rw [if_pos (show t.size = 0 from hsize), LeanTree.level_nil (by omega)]
      rfl
  | [x], hsize, hl =>
      rw [if_neg (by rw [hsize]; simp), level_singleton hN]
      rw [TreeInner.level, FixedArray.index_of_lt _ hD, Outcome.mapErr_ok, Outcome.ok_bind,
        if_pos (show t.size = 1 from hsize), hl.get (by simp)]
      rfl
  | x :: y :: l, hsize, hl =>
      rw [if_neg (by rw [hsize]; simp)]
      rw [TreeInner.level, FixedArray.index_of_lt _ hD, Outcome.mapErr_ok, Outcome.ok_bind,
        if_neg (by rw [hsize]; simp), hl.len,
        Outcome.mapM_ok (g := fun i => ((x :: y :: l)[i]?).getD x)]
      · have hmap : (List.range (x :: y :: l).length).map
            (fun i => ((x :: y :: l)[i]?).getD x) = x :: y :: l := by
          apply List.ext_getElem
          · simp
          · intro i hi _
            simp at hi
            simp [hi]
        rw [hmap]
        show (do
          let top ← recomputeLevels H N t.depth (x :: y :: l)
          pure top.head? : Outcome StorageError (Option Hash)) = _
        rw [recomputeLevels_spec hN]
        rfl
      · intro i hi
        rw [List.mem_range] at hi
        rw [hl.get hi, List.getElem?_eq_getElem hi, Option.getD_some]

end Recompute

end Works.Rotortree
