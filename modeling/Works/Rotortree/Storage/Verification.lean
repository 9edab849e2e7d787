import Works.Rotortree.Storage.Resume

/-! # What the verification of a checkpoint accepts

With `verify_checkpoint` recovery computes the root over the stored leaves and compares it with
the root in the metadata (`RootMatches`).  The nodes between them are not looked at: they are
read again when later leaves are inserted.  So the verification accepts exactly the
checkpoints that hold the tree over their leaves (`StoredTree`) when none of them has right
leaves and a right root with wrong nodes in between, or with a wrong depth
(`verification_exact_iff`). -/

namespace Works.Rotortree

open Works.Lib ChunkedLevel

variable {Hash : Type} {N MAX_DEPTH : ℕ}

/-! ### Further calls -/

/-- The tree after more calls. -/
def runCalls [Zero Hash] (fs : ShardFs Hash) (H : Hasher Hash) (cs : List (Call Hash))
    (t : TreeInner Hash N MAX_DEPTH) : TreeInner Hash N MAX_DEPTH :=
  cs.foldl (fun t c => (c.run fs H t).2) t

/-- The leaves after more calls. -/
def acceptedOn (N MAX_DEPTH : ℕ) (L : List Hash) (cs : List (Call Hash)) : List Hash :=
  cs.foldl (fun L c => if c.TurnedDown N MAX_DEPTH L.length then L else L ++ c.leaves) L

theorem runCalls_refines [Zero Hash] {fs : ShardFs Hash} {H : Hasher Hash} (hH : H.Lawful)
    (hN : 2 ≤ N) (hD : 1 ≤ MAX_DEPTH) (cs : List (Call Hash)) :
    ∀ {t : TreeInner Hash N MAX_DEPTH} {L : List Hash}, Refines fs H t L →
      Refines fs H (runCalls fs H cs t) (acceptedOn N MAX_DEPTH L cs) := by
  induction cs with
  | nil => exact fun h => h
  | cons c cs ih =>
      intro t L h
      unfold runCalls acceptedOn at ih ⊢
      rw [List.foldl_cons, List.foldl_cons]
      apply ih
      split_ifs with hc
      · obtain ⟨e, he⟩ := (@Call.run_of_turnedDown _ _ _ _ fs H) hN (h.size ▸ hc)
        rw [he]
        exact h
      · obtain ⟨r, t', he, -, href, -⟩ := Call.run_spec hH hN hD (h.near hN) hc
        rw [he]
        exact href

/-! ### What is compared -/

/-- The leaves as the files have them. -/
def storedLeaves [Zero Hash] (files : ShardFiles Hash) (m : MetaFrame Hash) : List Hash :=
  storedNodes files.fs 0 m.leafCount

/-- The root over the stored leaves, taken up the depth of the metadata, is that of the
metadata. -/
def RootMatches [Zero Hash] (H : Hasher Hash) (N : ℕ) (files : ShardFiles Hash)
    (m : MetaFrame Hash) : Prop :=
  0 < m.leafCount →
    (LeanTree.level N H.hashChildren (storedLeaves files m) m.depth).head? = some m.rootHash

/-- The files and the metadata hold the tree over the stored leaves. -/
structure StoredTree [Zero Hash] (H : Hasher Hash) (N MAX_DEPTH : ℕ) (files : ShardFiles Hash)
    (m : MetaFrame Hash) : Prop where
  depth : m.depth = Nat.clog N m.leafCount
  root : 0 < m.leafCount →
    LeanTree.root N H.hashChildren (storedLeaves files m) = some m.rootHash
  nodes : ∀ k < MAX_DEPTH, k ≤ m.depth →
    storedNodes files.fs k (levelLen N m.leafCount k) =
      LeanTree.level N H.hashChildren (storedLeaves files m) k

/-- Metadata that recovery uses. -/
structure MetaValid (W : Wire Hash) (N MAX_DEPTH : ℕ) (disk : Disk Hash) (m : MetaFrame Hash) :
    Prop where
  metaFile : readMeta W disk.metaFile = .ok (some m)
  n : m.n = N % U32_SIZE
  maxDepth : m.maxDepth = MAX_DEPTH % U32_SIZE
  header : HeaderValid W N MAX_DEPTH disk
  lastWalSeq : m.lastWalSeq + 1 < U64_SIZE

section Verify

variable [Zero Hash] [DecidableEq Hash] {W : Wire Hash} {H : Hasher Hash} {par : ℕ → ℕ → Bool}
variable {disk : Disk Hash} {m : MetaFrame Hash}

omit [DecidableEq Hash] in
@[simp] theorem length_storedLeaves (files : ShardFiles Hash) (m : MetaFrame Hash) :
    (storedLeaves files m).length = m.leafCount := length_storedNodes _ _ _

omit [DecidableEq Hash] in
theorem StoredTree.rootMatches (h : StoredTree H N MAX_DEPTH disk.shards m) :
    RootMatches H N disk.shards m := by
  intro hpos
  have hroot := h.root hpos
  rwa [LeanTree.root, length_storedLeaves, ← h.depth] at hroot

omit [DecidableEq Hash] in
/-- A log with only a header leaves the tree as it is. -/
theorem replayDelta_header {fs : ShardFs Hash} {wal : CrashFile UInt8}
    (hwal : IsHeader W N MAX_DEPTH wal.now) (inner : TreeInner Hash N MAX_DEPTH) {s : ℕ}
    (hs : s + 1 < U64_SIZE) :
    replayDelta W H par fs wal inner s = .ok ⟨inner, s + 1, wal, wal.now.length⟩ := by
  have hne := hwal.ne_nil
  obtain ⟨p, hp, hlog, hd⟩ := hwal
  have hheader : deserializeHeader W wal.now =
      .ok (N % U32_SIZE, MAX_DEPTH % U32_SIZE, wal.now.length) :=
    deserializeHeader_eq_ok.mpr ⟨p, [], hp, by rw [List.append_nil, hlog], hd, by rw [hlog]⟩
  have hend : deserializeEntry W ([] : List UInt8) 0 none = .ok none :=
    deserializeEntry_torn (torn_nil _) [] none
  have hfile : replayFile W H par fs wal inner (some s) = .ok (inner, none, wal, wal.now.length) := by
    unfold replayFile replayWalEntries
    rw [hheader, Outcome.ok_bind]
    dsimp only
    rw [if_neg (by simp), List.drop_length, List.length_nil, replayLoop, hend, Outcome.ok_bind]
    dsimp only
    rw [flushPending, if_pos List.isEmpty_nil]
    show Except.ok (inner, none, if wal.now.length + 0 < wal.now.length then _ else wal,
      wal.now.length + 0) = _
    rw [if_neg (by omega), Nat.add_zero]
  unfold replayDelta
  rw [if_neg (by simpa using hne), hfile, Outcome.ok_bind]
  dsimp only
  rw [Option.getD_none, nextAfter_of_lt hs]
  rfl

/-- **What recovery with verification does**: the loaded tree is taken when the root matches, and
refused otherwise. -/
theorem recover_verified (hN : 2 ≤ N) (hD : 1 ≤ MAX_DEPTH)
    (hm : MetaValid W N MAX_DEPTH disk m)
    (hlarge : LargeEnough disk.shards N MAX_DEPTH m.leafCount m.depth)
    (hwal : IsHeader W N MAX_DEPTH disk.wal.now) :
    (∃ r : RecoveryResult Hash N MAX_DEPTH, RootMatches H N disk.shards m ∧
      recoverWithCheckpoint W H par disk true = .ok r ∧
      r.inner.size = m.leafCount ∧ r.inner.depth = m.depth ∧
      r.inner.root = (if 0 < m.leafCount then some m.rootHash else none) ∧
      ∀ k : Fin MAX_DEPTH, Holds disk.shards.fs (r.inner.levels k) (if k.val ≤ m.depth then
        storedNodes disk.shards.fs k (levelLen N m.leafCount k) else [])) ∨
    (¬ RootMatches H N disk.shards m ∧ (recoverWithCheckpoint W H par disk true :
      Outcome StorageError (RecoveryResult Hash N MAX_DEPTH)) = .fail .dataCorruption) := by
  obtain ⟨hd, hread, hheader⟩ := hm.header
  obtain ⟨inner, hload, hsize, hdepth, hroot, hlevels⟩ := (@loadCheckpoint_spec _ _ MAX_DEPTH) hlarge
  have hzero : Holds disk.shards.fs (inner.levels ⟨0, hD⟩) (storedLeaves disk.shards m) := by
    have h := (hlevels ⟨0, hD⟩).2
    dsimp only at h
    rwa [if_pos (Nat.zero_le _)] at h
  have hcomputed := recomputeRoot_spec (H := H) hN hD
    (hsize.trans (length_storedLeaves disk.shards m).symm) hzero
  rw [hdepth] at hcomputed
  have hdelta := (@replayDelta_header _ _ _ _ _ H par disk.shards.fs) hwal inner
    hm.lastWalSeq
  have hrec : (recoverWithCheckpoint W H par disk true :
      Outcome StorageError (RecoveryResult Hash N MAX_DEPTH)) =
      if 0 < m.leafCount ∧ (LeanTree.level N H.hashChildren (storedLeaves disk.shards m)
        m.depth).head? ≠ inner.root then .fail .dataCorruption
      else .ok ⟨inner, m.lastWalSeq + 1, disk.wal, disk.wal.now.length⟩ := by
    unfold recoverWithCheckpoint
    rw [hm.metaFile, Outcome.ok_bind]
    dsimp only
    rw [if_neg (by simp [hm.n, hm.maxDepth]), hread, Outcome.ok_bind]
    dsimp only
    rw [if_pos hheader, hload, Outcome.ok_bind, hcomputed, Outcome.ok_bind, hdelta]
    by_cases hpos : 0 < m.leafCount
    · rw [if_pos ⟨rfl, hpos⟩]
      simp only [hpos, true_and]
    · rw [if_neg fun h => hpos h.2, if_neg fun h => hpos h.1]
  by_cases hmatch : RootMatches H N disk.shards m
  · left
    refine ⟨⟨inner, m.lastWalSeq + 1, disk.wal, disk.wal.now.length⟩, hmatch, ?_, hsize, hdepth,
      hroot, fun k => (hlevels k).2⟩
    rw [hrec, if_neg]
    rintro ⟨hpos, hne⟩
    rw [hroot, if_pos hpos] at hne
    exact hne (hmatch hpos)
  · right
    refine ⟨hmatch, ?_⟩
    rw [hrec, if_pos]
    unfold RootMatches at hmatch
    push Not at hmatch
    rw [hroot, if_pos hmatch.1]
    exact hmatch

omit [DecidableEq Hash] in
/-- What is read from files that hold the tree is the tree. -/
theorem StoredTree.refines (hN : 2 ≤ N) (h : StoredTree H N MAX_DEPTH disk.shards m)
    {t : TreeInner Hash N MAX_DEPTH} (hsize : t.size = m.leafCount) (hdepth : t.depth = m.depth)
    (hroot : t.root = if 0 < m.leafCount then some m.rootHash else none)
    (hlevels : ∀ k : Fin MAX_DEPTH, Holds disk.shards.fs (t.levels k) (if k.val ≤ m.depth then
      storedNodes disk.shards.fs k (levelLen N m.leafCount k) else [])) :
    Refines disk.shards.fs H t (storedLeaves disk.shards m) where
  size := hsize.trans (length_storedLeaves _ _).symm
  depth := by rw [hdepth, h.depth, length_storedLeaves]
  root := by
    rw [hroot]
    split_ifs with hpos
    · exact (h.root hpos).symm
    · have hnil : storedLeaves disk.shards m = [] := by
        apply List.length_eq_zero_iff.mp
        rw [length_storedLeaves]
        omega
      rw [hnil, LeanTree.root_nil (by omega)]
  levels := by
    intro k
    have hk := hlevels k
    rw [storedLevel, length_storedLeaves, ← h.depth]
    split_ifs at hk ⊢ with hle
    · rw [← h.nodes k k.isLt hle]
      exact hk
    · exact hk

/-- **The verification of a checkpoint** returns exactly when the root matches.  It tells the
checkpoints that hold the tree over their leaves from the others, and only right roots are
returned afterwards, exactly when a matching root comes with the tree. -/
theorem verification_exact_iff (hH : H.Lawful) (hN : 2 ≤ N) (hD : 1 ≤ MAX_DEPTH)
    (hm : MetaValid W N MAX_DEPTH disk m)
    (hlarge : LargeEnough disk.shards N MAX_DEPTH m.leafCount m.depth)
    (hwal : IsHeader W N MAX_DEPTH disk.wal.now) :
    ((∃ r : RecoveryResult Hash N MAX_DEPTH, recoverWithCheckpoint W H par disk true = .ok r) ↔
      RootMatches H N disk.shards m) ∧
    ((((∃ r : RecoveryResult Hash N MAX_DEPTH, recoverWithCheckpoint W H par disk true = .ok r) ↔
        StoredTree H N MAX_DEPTH disk.shards m) ∧
      ∀ r : RecoveryResult Hash N MAX_DEPTH, recoverWithCheckpoint W H par disk true = .ok r →
        ∀ (cs : List (Call Hash)) (c : Call Hash),
          ¬ c.TurnedDown N MAX_DEPTH
            (acceptedOn N MAX_DEPTH (storedLeaves disk.shards m) cs).length →
          ∃ root t', c.run disk.shards.fs H (runCalls disk.shards.fs H cs r.inner) =
              (.ok root, t') ∧
            LeanTree.root N H.hashChildren
              (acceptedOn N MAX_DEPTH (storedLeaves disk.shards m) cs ++ c.leaves) = some root) ↔
      (RootMatches H N disk.shards m → StoredTree H N MAX_DEPTH disk.shards m)) := by
  have hiff : (∃ r : RecoveryResult Hash N MAX_DEPTH,
      recoverWithCheckpoint W H par disk true = .ok r) ↔ RootMatches H N disk.shards m := by
    rcases (@recover_verified _ _ _ _ _ _ _ par) hN hD hm hlarge hwal with
      ⟨r, hmatch, hrec, -⟩ | ⟨hmatch, hrec⟩
    · exact iff_of_true ⟨r, hrec⟩ hmatch
    · refine iff_of_false ?_ hmatch
      rintro ⟨r, hr⟩
      rw [hrec] at hr
      cases hr
  refine ⟨hiff, ?_, ?_⟩
  · rintro ⟨hexact, -⟩ hmatch
    exact hexact.mp (hiff.mpr hmatch)
  · intro hstored
    refine ⟨hiff.trans ⟨hstored, StoredTree.rootMatches⟩, ?_⟩
    intro r hr cs c hc
    rcases (@recover_verified _ _ _ _ _ _ _ par) hN hD hm hlarge hwal with
      ⟨r', hmatch, hrec, hsize, hdepth, hroot, hlevels⟩ | ⟨-, hrec⟩
    · rw [hrec, Except.ok.injEq] at hr
      subst hr
      have href := runCalls_refines hH hN hD cs
        ((hstored hmatch).refines hN hsize hdepth hroot hlevels)
      obtain ⟨root, t', hrun, hroot', -⟩ := Call.run_spec hH hN hD (href.near hN) hc
      exact ⟨root, t', hrun, hroot'⟩
    · rw [hrec] at hr
      cases hr

end Verify

/-- A hasher that keeps the first byte of each child behind a mark. -/
def markHasher : Hasher Hash32 := Hasher.scalar fun children =>
  Vector.ofFn fun i => ((128 :: children.map fun h => h.toList.headD 0)[i.val]?).getD (0 : UInt8)

/-- The node over the two leaves. -/
def twoLeavesNode : Hash32 := markHasher.hashChildren [testLeaf 1, testLeaf 2]

/-- The hashes of the checkpoint and of its damage. -/
def involved : List Hash32 := [testLeaf 1, testLeaf 2, testLeaf 9, twoLeavesNode]

/-- The hasher is injective on the groups of two of them. -/
theorem markHasher_injective : ∀ g ∈ involved.product involved, ∀ g' ∈ involved.product involved,
    markHasher.hashChildren [g.1, g.2] = markHasher.hashChildren [g'.1, g'.2] → g = g' := by
  decide +kernel

/-- A checkpoint over two leaves, behind which nothing was logged. -/
def twoLeaves : Disk Hash32 :=
  checkpointDisk 2 10 markHasher [testLeaf 1, testLeaf 2] 1 (headerBytes wincode 2 10)

/-- Its metadata. -/
def twoLeavesMeta : MetaFrame Hash32 :=
  metaOf 2 10 [testLeaf 1, testLeaf 2] 1
    ((LeanTree.root 2 markHasher.hashChildren [testLeaf 1, testLeaf 2]).getD 0)

theorem twoLeaves_metaValid : MetaValid wincode 2 10 twoLeaves twoLeavesMeta where
  metaFile := checkpointDisk_readMeta (by decide) (by decide) (by decide) (by decide) _
  n := rfl
  maxDepth := rfl
  header := checkpointDisk_headerValid ..
  lastWalSeq := by decide

/-- The checkpoint is accepted. -/
theorem two_leaves_accepted :
    ∃ r : RecoveryResult Hash32 2 10, recoverWithCheckpoint wincode markHasher (fun _ _ => false)
      twoLeaves true = .ok r := by
  have hholds : HoldsCheckpoint wincode markHasher 2 10 twoLeaves [testLeaf 1, testLeaf 2] 1 :=
    checkpointDisk_holds (by decide) (by decide) (by decide) (by decide) (by decide) _
  have hmatch : RootMatches markHasher 2 twoLeaves.shards twoLeavesMeta :=
    fun _ => by decide +kernel
  exact (verification_exact_iff (Hasher.scalar_lawful _) (by decide) (by decide)
    twoLeaves_metaValid (hholds.largeEnough (by decide) (by decide))
    (isHeader_headerBytes wincode_lawful)).1.mpr hmatch

/-- The checkpoint with another hash in the place of the node over the two leaves. -/
def damagedNode : Disk Hash32 :=
  { twoLeaves with shards := fun k shard =>
      if k = 1 then checkpointShards 2 markHasher [testLeaf 9] 0 shard
      else twoLeaves.shards k shard }

theorem damagedNode_largeEnough :
    LargeEnough damagedNode.shards 2 10 twoLeavesMeta.leafCount twoLeavesMeta.depth := by
  intro k hk p hp
  have hp' : p < CHUNK_SIZE := by
    have hk1 : k ≤ 1 := hk.trans (by decide)
    interval_cases k <;> exact hp
  by_cases h1 : k = 1
  · have h := nowSat_checkpointShards (N := 2) (k := 0) (p := p) (H := markHasher)
      (L := [testLeaf 9]) (by decide) (by decide) hp'
    obtain ⟨f, hf, x, hx, -⟩ := h
    exact ⟨f, (if_pos h1).trans hf, x, hx, trivial⟩
  · obtain rfl : k = 0 := by
      have hk1 : k ≤ 1 := hk.trans (by decide)
      omega
    have h := nowSat_checkpointShards (N := 2) (k := 0) (p := p) (H := markHasher)
      (L := [testLeaf 1, testLeaf 2]) (by decide) (by decide) hp'
    obtain ⟨f, hf, x, hx, -⟩ := h
    exact ⟨f, hf, x, hx, trivial⟩

theorem damagedNode_metaValid : MetaValid wincode 2 10 damagedNode twoLeavesMeta :=
  ⟨twoLeaves_metaValid.metaFile, rfl, rfl, twoLeaves_metaValid.header,
    twoLeaves_metaValid.lastWalSeq⟩

theorem damagedNode_matches : RootMatches markHasher 2 damagedNode.shards twoLeavesMeta :=
  fun _ => by decide +kernel

/-- The checkpoint with the other hash is accepted, under a hasher that is injective on the hashes
involved. -/
theorem damaged_node_accepted :
    (∀ g ∈ involved.product involved, ∀ g' ∈ involved.product involved,
      markHasher.hashChildren [g.1, g.2] = markHasher.hashChildren [g'.1, g'.2] → g = g') ∧
    (∃ r : RecoveryResult Hash32 2 10, recoverWithCheckpoint wincode markHasher (fun _ _ => false)
      damagedNode true = .ok r) ∧
    ¬ StoredTree markHasher 2 10 damagedNode.shards twoLeavesMeta := by
  refine ⟨markHasher_injective, ?_, ?_⟩
  · rcases (@recover_verified _ _ _ _ _ _ markHasher (fun _ _ => false)) (by decide) (by decide)
      damagedNode_metaValid damagedNode_largeEnough (isHeader_headerBytes wincode_lawful) with
      ⟨r, -, hrec, -⟩ | ⟨hmatch, -⟩
    · exact ⟨r, hrec⟩
    · exact absurd damagedNode_matches hmatch
  · intro h
    have hlen : levelLen 2 twoLeavesMeta.leafCount 1 = 1 := by decide
    have hlevel : (LeanTree.level 2 markHasher.hashChildren
        (storedLeaves damagedNode.shards twoLeavesMeta) 1).head? = some twoLeavesNode := by
      decide +kernel
    have hnode : nodeAt damagedNode.shards.fs 1 0 = twoLeavesNode := by
      have h := congrArg List.head? (h.nodes 1 (by decide) (by decide))
      rw [hlen, hlevel] at h
      exact Option.some.inj h
    revert hnode
    decide +kernel

end Works.Rotortree
