import Works.Rotortree.Storage.CheckpointSpec

/-! # Chunks become windows

The last stages of a checkpoint: the metadata is switched, and the chunks that are counted as
done become windows onto their files.  A counted chunk that was written by an earlier checkpoint
is not written again, so that the window shows what the level held then.  When the leaf counts of
the checkpoints are fresh, nothing of it has changed since, and the tree stays what it was
(`TreeInv.remap`). -/

namespace Works.Rotortree

open Works.Lib ChunkedLevel

variable {Hash : Type} {N MAX_DEPTH : ℕ}

/-- The windows of the tree onto files are among the first chunks of their levels. -/
def TreeInner.Windows (t : TreeInner Hash N MAX_DEPTH) (bound : ℕ → ℕ) : Prop :=
  ∀ (k : Fin MAX_DEPTH) (i : ℕ) (c : Chunk Hash), (t.levels k).chunks[i]? = some c → c.IsMapped →
    i < bound k

/-! ### Levels -/

section Remap

variable {H : Hasher Hash} {L : List Hash} {m n : ℕ} {files : ShardFiles Hash}
variable {h : Shared Hash N MAX_DEPTH}

/-- Whatever the files are, a level outside the tiers stays. -/
theorem Shared.remapLevel_of_pinned {k : ℕ} {ld : LevelCheckpointData Hash}
    (hk : ¬ (0 < ld.totalChunks ∧ k < h.pinAboveLevel)) :
    Shared.remapLevel files k ld h =
      (.ok (), { h with checkpointedChunks := h.checkpointedChunks.set k ld.totalChunks }) := by
  unfold Shared.remapLevel
  rw [Exec.bind_of_ok (Exec.get_apply h), if_neg hk]
  rfl

variable [Zero Hash]

/-- **One level.**  The tree stays what it is when the files hold the nodes of the counted
chunks. -/
theorem Shared.remapLevel_spec (ld : LevelCheckpointData Hash)
    (href : Refines files.fs H h.inner L) (hhome : ∀ k : Fin MAX_DEPTH, AtHome k (h.inner.levels k))
    {k : ℕ} (hk : k < MAX_DEPTH) (hcount : ld.totalChunks ≤ (h.inner.levels ⟨k, hk⟩).chunks.length)
    (hnodes : k < h.pinAboveLevel → ∀ p < ld.totalChunks * CHUNK_SIZE,
      NowSat files k p fun x => (storedLevel N H.hashChildren L k)[p]? = some x) :
    ∃ inner', Shared.remapLevel files k ld h =
        (.ok (), { h with
          inner := inner'
          checkpointedChunks := h.checkpointedChunks.set k ld.totalChunks }) ∧
      Refines files.fs H inner' L ∧ (∀ k : Fin MAX_DEPTH, AtHome k (inner'.levels k)) ∧
      ∀ bound, h.inner.Windows bound → ld.totalChunks ≤ bound k → inner'.Windows bound := by
  by_cases hpin : 0 < ld.totalChunks ∧ k < h.pinAboveLevel
  · obtain ⟨hpos, hlt⟩ := hpin
    have hlvl : h.inner.level k = .ok (h.inner.levels ⟨k, hk⟩) := FixedArray.index_of_lt _ hk
    have hmap := mmapLevelShards_spec fun p hp =>
      (hnodes hlt p hp).imp (Q := fun _ => True) fun _ _ => trivial
    have hne : ((List.range (ld.totalChunks ⌈/⌉ CHUNKS_PER_SHARD)).map
        (regionOf k ld.totalChunks)).isEmpty = false := by
      have : 0 < ld.totalChunks ⌈/⌉ CHUNKS_PER_SHARD :=
        (LeanTree.lt_ceilDiv_iff CHUNKS_PER_SHARD_pos).mpr (by omega)
      simp
      omega
    obtain ⟨lvl', hremap, hlvl'⟩ := remapChunks_spec (k := k) hpos
      (by rw [← length_chunks]; exact hcount)
    refine ⟨h.inner.setLevel k lvl', ?_, ⟨href.size, href.depth, href.root, ?_⟩, ?_, ?_⟩
    · unfold Shared.remapLevel
      rw [Exec.bind_of_ok (Exec.get_apply h), if_pos ⟨hpos, hlt⟩,
        Exec.bind_of_ok (by rw [Exec.lift_apply, hmap]),
        Exec.bind_of_ok (by rw [Exec.lift_apply, hlvl, Outcome.mapErr_ok]),
        Exec.bind_of_ok (by rw [Exec.lift_apply, hne, if_neg Bool.false_ne_true, hremap])]
      rfl
    · intro i
      by_cases hi : i.val = k
      · subst hi
        rw [show (h.inner.setLevel i lvl').levels i = lvl' from if_pos rfl]
        exact (href.levels i).remapped hlvl' hcount fun p hp => (hnodes hlt p hp).nodeAt
      · rw [show (h.inner.setLevel k lvl').levels i = h.inner.levels i from if_neg hi]
        exact href.levels i
    · intro i
      by_cases hi : i.val = k
      · subst hi
        rw [show (h.inner.setLevel i lvl').levels i = lvl' from if_pos rfl]
        exact (hhome i).remapped hlvl'
      · rw [show (h.inner.setLevel k lvl').levels i = h.inner.levels i from if_neg hi]
        exact hhome i
    · intro bound hw hle i j c hc hm
      by_cases hi : i.val = k
      · subst hi
        rw [show (h.inner.setLevel i lvl').levels i = lvl' from if_pos rfl] at hc
        rcases Nat.lt_or_ge j ld.totalChunks with hj | hj
        · exact hj.trans_le hle
        · rw [hlvl'.rest j hj] at hc
          exact hw i j c hc hm
      · rw [show (h.inner.setLevel k lvl').levels i = h.inner.levels i from if_neg hi] at hc
        exact hw i j c hc hm
  · exact ⟨h.inner, Shared.remapLevel_of_pinned hpin, href, hhome, fun _ hw _ => hw⟩

/-- The levels from `k` on, one after the other. -/
theorem Shared.remapLevels_spec (lds : List (LevelCheckpointData Hash)) :
    ∀ (k : ℕ) (h : Shared Hash N MAX_DEPTH), Refines files.fs H h.inner L →
      (∀ k : Fin MAX_DEPTH, AtHome k (h.inner.levels k)) →
      h.checkpointedChunks.length = k + lds.length → k + lds.length ≤ MAX_DEPTH →
      (∀ i ld, lds[i]? = some ld →
        ld.totalChunks ≤ (storedLevel N H.hashChildren L (k + i)).length ⌈/⌉ CHUNK_SIZE ∧
        (k + i < h.pinAboveLevel → ∀ p < ld.totalChunks * CHUNK_SIZE,
          NowSat files (k + i) p fun x =>
            (storedLevel N H.hashChildren L (k + i))[p]? = some x)) →
      ∃ inner', Shared.remapLevels files k lds h =
          (.ok (), { h with
            inner := inner'
            checkpointedChunks := h.checkpointedChunks.take k ++ lds.map (·.totalChunks) }) ∧
        Refines files.fs H inner' L ∧ (∀ k : Fin MAX_DEPTH, AtHome k (inner'.levels k)) ∧
        ∀ bound, h.inner.Windows bound →
          (∀ i ld, lds[i]? = some ld → ld.totalChunks ≤ bound (k + i)) → inner'.Windows bound := by
  induction lds with
  | nil =>
      intro k h href hhome hlen _ _
      refine ⟨h.inner, ?_, href, hhome, fun _ hw _ => hw⟩
      rw [List.map_nil, List.append_nil, List.take_of_length_le (by rw [hlen]; exact le_rfl)]
      rfl
  | cons ld lds ih =>
      intro k h href hhome hlen hD hlds
      rw [List.length_cons] at hlen hD
      obtain ⟨hcount, hnodes⟩ := hlds 0 ld rfl
      obtain ⟨inner₁, h₁, href₁, hhome₁, hw₁⟩ := Shared.remapLevel_spec ld href hhome
        (show k < MAX_DEPTH by omega) (by rw [(href.levels _).count]; exact hcount) hnodes
      obtain ⟨inner₂, h₂, href₂, hhome₂, hw₂⟩ := ih (k + 1)
        { h with
          inner := inner₁
          checkpointedChunks := h.checkpointedChunks.set k ld.totalChunks } href₁ hhome₁
        (by rw [List.length_set]; omega) (by omega) fun i ld' hi => by
          have := hlds (i + 1) ld' hi
          rwa [show k + (i + 1) = k + 1 + i by omega] at this
      refine ⟨inner₂, ?_, href₂, hhome₂, fun bound hw hle =>
        hw₂ bound (hw₁ bound hw (hle 0 ld rfl)) fun i ld' hi => by
          have := hle (i + 1) ld' hi
          rwa [show k + (i + 1) = k + 1 + i by omega] at this⟩
      rw [Shared.remapLevels, Exec.bind_of_ok h₁, h₂]
      have htake : (h.checkpointedChunks.set k ld.totalChunks).take (k + 1) =
          h.checkpointedChunks.take k ++ [ld.totalChunks] := by
        rw [List.take_add_one, List.take_set_of_le le_rfl, List.getElem?_set_self (by omega)]
        rfl
      rw [htake, List.append_assoc, List.map_cons]
      rfl

end Remap

/-! ### The metadata -/

section Meta

variable {W : Wire Hash}

/-- The metadata that a checkpoint writes reads back. -/
theorem readMeta_writeMeta (hW : W.Lawful) {lastSeq leafCount : ℕ} (depth : ℕ) (rootHash : Hash)
    (hseq : lastSeq < U64_SIZE) (hcount : leafCount < U64_SIZE) :
    ∃ file, writeMeta W N MAX_DEPTH lastSeq leafCount depth rootHash = .ok file ∧
      readMeta W (some file) = .ok (some ⟨META_MAGIC, N % U32_SIZE, MAX_DEPTH % U32_SIZE, lastSeq,
        leafCount, depth % U32_SIZE, rootHash⟩) := by
  obtain ⟨hrt, hlen⟩ := hW.metaFrame ⟨META_MAGIC, N % U32_SIZE, MAX_DEPTH % U32_SIZE, lastSeq,
    leafCount, depth % U32_SIZE, rootHash⟩ ⟨rfl, Nat.mod_lt _ (by decide),
      Nat.mod_lt _ (by decide), hseq, hcount, Nat.mod_lt _ (by decide)⟩
  refine ⟨_, (writeFrame_eq hlen []).trans (by rw [List.nil_append]), ?_⟩
  unfold readMeta
  rw [readFrameFile_frameOf hlen hrt]
  rfl

/-- So does the header. -/
theorem readHeader_writeHeader (hW : W.Lawful) (N MAX_DEPTH : ℕ) :
    ∃ file, writeHeader W N MAX_DEPTH = .ok file ∧
      readHeader W (some file) = .ok (some ⟨HEADER_MAGIC, N % U32_SIZE, MAX_DEPTH % U32_SIZE,
        CHUNK_SIZE % U32_SIZE⟩) := by
  obtain ⟨hrt, hlen⟩ := hW.headerFrame ⟨HEADER_MAGIC, N % U32_SIZE, MAX_DEPTH % U32_SIZE,
    CHUNK_SIZE % U32_SIZE⟩ ⟨rfl, Nat.mod_lt _ (by decide), Nat.mod_lt _ (by decide),
      Nat.mod_lt _ (by decide)⟩
  refine ⟨_, (writeFrame_eq hlen []).trans (by rw [List.nil_append]), ?_⟩
  unfold readHeader
  rw [readFrameFile_frameOf hlen hrt]
  rfl

end Meta

/-! ### The stages of a checkpoint -/

section Stages

variable [Zero Hash] {W : Wire Hash} {H : Hasher Hash} {tiers : ℕ} {disk : Disk Hash}
variable {h : Shared Hash N MAX_DEPTH} {L : List Hash} {m : ℕ} {snap : CheckpointSnap Hash}
variable {background : Bool}

/-- Behind the top level there is no whole chunk. -/
theorem wholeChunks_eq_zero (hN : 2 ≤ N) {n k : ℕ} (hk : Nat.clog N n ≤ k) :
    wholeChunks N n k = 0 := by
  have hle : n ⌈/⌉ N ^ k ≤ 1 := by
    rw [ceilDiv_le_iff_le_mul (Nat.pow_pos (by omega)), Nat.mul_one]
    exact (Nat.le_pow_clog (by omega) _).trans (Nat.pow_le_pow_right (by omega) hk)
  exact Nat.div_eq_of_lt (lt_of_le_of_lt hle (by decide))

/-- **The levels are taken.** -/
theorem TreeInv.captured (hN : 2 ≤ N) (hD : 1 ≤ MAX_DEPTH) (background : Bool)
    (hi : TreeInv W H tiers disk h L m)
    (hm : metaCount m h.holder = m) (hne : L ≠ []) (wal : CrashFile UInt8)
    (flushed : Option ℕ) (buffer : List UInt8) :
    ∃ snap, { h with flushed := flushed, buffer := buffer }.capture = .ok snap ∧
      snap.leafCount = L.length ∧ snap.lastSeq = h.nextSeq - 1 ∧
      TreeInv W H tiers { disk with wal := wal }
        { h with
          flushed := flushed
          buffer := buffer
          holder := .checkpoint background (.header snap) } L m := by
  obtain ⟨snap, hcap, hc⟩ := Shared.exists_captured
    (h := { h with flushed := flushed, buffer := buffer }) hN hD hi.refines hi.counts
  exact ⟨snap, hcap, hc.leafCount, hc.lastSeq, hi.keep rfl rfl rfl rfl hm.symm
    ⟨hc.snapOk hN hD hi.refines hi.base hne, hc.writing hD hi.refines hi.home tiers⟩⟩

/-- `header.bin` is there. -/
theorem TreeInv.header (hi : TreeInv W H tiers disk h L m)
    (hst : h.holder = .checkpoint background (.header snap)) (file : List UInt8) :
    TreeInv W H tiers { disk with dataDir := true, headerFile := some file }
      { h with holder := .checkpoint background (.write snap snap.writes) } L m := by
  have hstage := hi.stage
  rw [hst] at hstage
  exact hi.keep rfl rfl rfl rfl (by rw [hst]; rfl) hstage

/-- **The metadata is switched.** -/
theorem TreeInv.switch (hW : W.Lawful) (hi : TreeInv W H tiers disk h L m)
    (hst : h.holder = .checkpoint background (.sync snap [])) (hsize : L.length < U64_SIZE)
    (hseq : snap.lastSeq < U64_SIZE) :
    ∃ file, writeMeta W N MAX_DEPTH snap.lastSeq snap.leafCount snap.depth snap.rootHash =
        .ok file ∧
      readMeta W (some file) = .ok (some ⟨META_MAGIC, N % U32_SIZE, MAX_DEPTH % U32_SIZE,
        snap.lastSeq, snap.leafCount, snap.depth % U32_SIZE, snap.rootHash⟩) ∧
      TreeInv W H tiers { disk with metaFile := some file }
        { h with holder := .checkpoint background (.remap snap) } L m := by
  have hstage := hi.stage
  rw [hst] at hstage
  obtain ⟨hs, hsync⟩ := hstage
  obtain ⟨file, hwrite, hread⟩ := (@readMeta_writeMeta _ N MAX_DEPTH _) hW snap.depth
    snap.rootHash hseq (hs.size.trans_lt hsize)
  refine ⟨file, hwrite, hread, hi.refines, hi.home, hi.base, hi.counts, hi.counted, ?_, hs, ?_⟩
  · unfold lastCheckpoint
    dsimp only
    rw [hread]
    rfl
  · intro k hk hkD p hp
    unfold Expected
    split_ifs with hlt
    · exact (hi.counted k hk hkD p hlt).imp fun x hx _ => hx
    · rcases (hsync k p ⟨hk, hkD, by omega, hp⟩).2 with hmem | hfile
      · cases hmem
      · exact hfile

omit [Zero Hash] in
/-- The node that a counted chunk has on disk is that of the tree that the checkpoint took. -/
theorem Synced.nodes (hN : 2 ≤ N) {files : ShardFiles Hash} {n : ℕ}
    (hsync : Synced H N MAX_DEPTH tiers files L m n) (hmn : m ≤ n) (hn : n ≤ L.length)
    (hfresh : Fresh N tiers m n) {k p : ℕ} (hk : k < tiers) (hkD : k < MAX_DEPTH)
    (hp : p < wholeChunks N n k * CHUNK_SIZE) :
    FileSat files k p fun x => (storedLevel N H.hashChildren (L.take n) k)[p]? = some x := by
  have hlen : (L.take n).length = n := by rw [List.length_take, Nat.min_eq_left hn]
  have hlt : p < (storedLevel N H.hashChildren (L.take n) k).length :=
    lt_length_of_whole hN (by rw [hlen]; exact hp)
  refine (hsync k hk hkD p (lt_chunks_of_lt hlt)).imp fun x hx => ?_
  unfold Expected at hx
  split_ifs at hx with hpm
  · have hlenm : (L.take m).length = m := by rw [List.length_take, Nat.min_eq_left (hmn.trans hn)]
    have hxm := hx (lt_length_of_whole hN (by rw [hlenm]; exact hpm))
    have hsame := (show Fresh N tiers m (L.take n).length by rw [hlen]; exact hfresh).node
      (h := H.hashChildren) hN (by rw [hlen]; exact hmn) hk hpm
    rw [List.take_take, Nat.min_eq_left hmn] at hsame
    rwa [hsame] at hxm
  · exact hx hlt

/-- **The chunks become windows.**  With fresh leaf counts the tree stays what it is. -/
theorem TreeInv.remap (hN : 2 ≤ N) (hD : 1 ≤ MAX_DEPTH) (hi : TreeInv W H tiers disk h L m)
    (hst : h.holder = .checkpoint background (.remap snap)) (hpin : min MAX_DEPTH h.pinAboveLevel ≤ tiers)
    (hfreshm : Fresh N tiers m snap.leafCount)
    (hfreshn : Fresh N (min MAX_DEPTH h.pinAboveLevel) snap.leafCount h.inner.size) :
    ∃ inner' chunks', Shared.remapLevels disk.shards 0 snap.levelData { h with
        checkpointedChunks := resize h.checkpointedChunks snap.levelData.length } =
        (.ok (), { h with inner := inner', checkpointedChunks := chunks' }) ∧
      TreeInv W H tiers disk
        { h with inner := inner', checkpointedChunks := chunks', holder := .free } L
        snap.leafCount ∧
      (h.inner.Windows (wholeChunks N m) → inner'.Windows (wholeChunks N snap.leafCount)) := by
  have hstage := hi.stage
  have hdisk := hi.onDisk
  rw [hst] at hstage hdisk
  obtain ⟨hs, hsync⟩ := hstage
  rw [hi.refines.size] at hfreshn
  have hactive : snap.levelData.length ≤ MAX_DEPTH := by
    have := hs.active
    omega
  have hlevel : ∀ i ld, snap.levelData[i]? = some ld → i < MAX_DEPTH ∧
      ld.totalChunks = wholeChunks N snap.leafCount i := fun i ld hld =>
    ⟨(List.getElem?_eq_some_iff.mp hld).1.trans_le hactive, (hs.levels i ld hld).2.1⟩
  obtain ⟨inner', hremap, href, hhome, hwindows⟩ := Shared.remapLevels_spec snap.levelData 0
    { h with checkpointedChunks := resize h.checkpointedChunks snap.levelData.length }
    hi.refines hi.home (by
      rw [resize, List.length_append, List.length_take, List.length_replicate]
      omega) (by omega) (by
      intro i ld hld
      obtain ⟨hiD, htotal⟩ := hlevel i ld hld
      rw [Nat.zero_add, htotal]
      constructor
      · refine (wholeChunks_mono hN hs.size i).trans ?_
        rw [← length_storedLevel_div (h := H.hashChildren) hN]
        exact floorDiv_le_ceilDiv (a := CHUNK_SIZE)
      · intro hpinned p hp
        refine (hsync.nodes hN hs.base hs.size hfreshm ((lt_min hiD hpinned).trans_le hpin) hiD
          hp).now.imp fun x hx => ?_
        rwa [hfreshn.node hN hs.size (lt_min hiD hpinned) hp] at hx)
  refine ⟨inner', _, hremap, ⟨href, hhome, hs.size, ?_, ?_, hdisk, trivial⟩, fun hw =>
    hwindows _ (fun k i c hc hm => (hw k i c hc hm).trans_le (wholeChunks_mono hN hs.base k)) ?_⟩
  · intro k hk
    dsimp only
    rw [List.take_zero, List.nil_append, List.getD_eq_getElem?_getD, List.getElem?_map]
    rcases Nat.lt_or_ge k snap.levelData.length with hlt | hge
    · have hld := List.getElem?_eq_getElem hlt
      rw [hld, Option.map_some, Option.getD_some]
      exact (hlevel k _ hld).2
    · rw [List.getElem?_eq_none hge]
      refine (wholeChunks_eq_zero hN ?_).symm
      have := hs.active
      have := hs.depth
      omega
  · intro k hk hkD p hp
    exact hsync.nodes hN hs.base hs.size hfreshm hk hkD hp
  · intro i ld hld
    rw [Nat.zero_add]
    exact (hlevel i ld hld).2.le

end Stages

end Works.Rotortree
