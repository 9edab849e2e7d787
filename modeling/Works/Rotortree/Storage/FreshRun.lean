import Works.Rotortree.Storage.DurableRun

/-! # Checkpoints over partial nodes

The last node of a chunk that a checkpoint counts may be over fewer than all of its leaves.  A
later checkpoint does not write that chunk again, so that the file keeps the node as it was.
`Shared.FreshAt` says that this does no harm: wherever a checkpoint takes the levels or maps its
chunks, all nodes of the chunks counted before are complete, or no leaf came in since.

In such runs the checkpoints do not change the tree (`Session.tree_of_calls`), and `open` recovers
it after every crash (`CrashRun.recovers_prefix`).  A checkpoint over 255 leaves, one leaf and another
checkpoint are a run of the other kind (`stale_chunk_mapped`, `stale_chunk_recovered`). -/

namespace Works.Rotortree

open Works.Lib ChunkedLevel

variable {Hash : Type} {N MAX_DEPTH : ℕ}

/-- The leaf count of the checkpoint on disk is fresh where the next one takes the levels, on those
below `tiers`, and where it maps its chunks. -/
def Shared.FreshAt (W : Wire Hash) (tiers : ℕ) (disk : Disk Hash) (h : Shared Hash N MAX_DEPTH) :
    Action Hash → Prop
  | .checkpointCapture _ => Fresh N tiers (lastCheckpoint W disk) h.inner.size
  | .checkpointRemap _ =>
      Fresh N (min MAX_DEPTH h.pinAboveLevel) (lastCheckpoint W disk) h.inner.size
  | _ => True

namespace World

/-- There is no crash, and the leaf count of the checkpoint on disk is fresh on the levels that are
mapped. -/
def KeepsFresh (W : Wire Hash) (w : World Hash N MAX_DEPTH) (a : Action Hash) : Prop :=
  (∀ wal shards, a ≠ .crash wal shards) ∧
    ∀ h, w.handle = some h → h.FreshAt W h.pinAboveLevel w.disk a

/-- The operations succeed, and the leaf count of the checkpoint on disk is fresh on all levels. -/
def SucceedsFresh (W : Wire Hash) [Zero Hash] (w : World Hash N MAX_DEPTH) (a : Action Hash) : Prop :=
  w.SucceedsAll W a ∧ ∀ h, w.handle = some h → h.FreshAt W MAX_DEPTH w.disk a

end World

/-- The checkpoint on disk is the last one, or the running one. -/
theorem Steady.finds_fresh [Zero Hash] {W : Wire Hash} {H : Hasher Hash} {tiers : ℕ}
    {disk : Disk Hash} {h : Shared Hash N MAX_DEPTH} {L : List Hash} {m : ℕ}
    (hi : Steady (fun _ => True) W H tiers disk h L m) {a : Action Hash}
    (hfresh : h.FreshAt W tiers disk a) : h.Finds (fun _ => True) tiers m a := by
  unfold Shared.FreshAt at hfresh
  rw [hi.tree.onDisk] at hfresh
  cases a with
  | checkpointCapture ok =>
      intro hidle
      rw [Holder.metaCount_of_idle hidle] at hfresh
      exact ⟨trivial, hfresh⟩
  | checkpointRemap res =>
      intro background snap hst
      rw [hst] at hfresh
      exact hfresh
  | _ => trivial

/-! ### Calls and checkpoints -/

section Calls

variable [Zero Hash] [DecidableEq Hash] {W : Wire Hash} {H : Hasher Hash}

/-- Where every checkpoint finds the last one fresh. -/
theorem Session.steady_fresh (hW : W.Lawful) (hH : H.Lawful) (hN : 2 ≤ N) (hD : 1 ≤ MAX_DEPTH)
    {cs : List (Call Hash)} {w : World Hash N MAX_DEPTH}
    (hs : Session W H (fun w a => w.KeepsFresh W a) cs w) :
    w = World.empty ∧ cs = [] ∨ ∃ h m, w.handle = some h ∧
      Steady (fun _ => True) W H h.pinAboveLevel w.disk h (accepted N MAX_DEPTH cs) m := by
  refine hs.steady hW hH hN hD (P := fun _ _ => True) (fun _ _ _ hno => hno.1 _ _ rfl)
    (fun _ => trivial) ?_
  intro disk h L m a hi ha
  exact hi.finds_fresh (ha.2 h rfl)

/-- **The tree of the calls.**  Checkpoints do not change the tree as long as none of them takes the
levels, or maps its chunks, after leaves came in since the last one that change a node of a chunk
which that one counts. -/
theorem Session.tree_of_calls (hW : W.Lawful) (hH : H.Lawful) (hN : 2 ≤ N) (hD : 1 ≤ MAX_DEPTH)
    {cs : List (Call Hash)} {w : World Hash N MAX_DEPTH}
    (hs : Session W H (fun w a => w.KeepsFresh W a) cs w) {h : Shared Hash N MAX_DEPTH}
    (hh : w.handle = some h) :
    SameTree w.disk.shards.fs h.inner (after w.disk.shards.fs H cs) := by
  rcases hs.steady_fresh hW hH hN hD with ⟨rfl, -⟩ | ⟨h', m, hh', hi⟩
  · cases hh
  · rw [hh, Option.some.injEq] at hh'
    subst hh'
    exact hi.tree.refines.sameTree (after_refines hH hN hD cs)

end Calls

/-! ### A checkpoint over a partial node -/

theorem Fresh.mono {tiers tiers' c n : ℕ} (h : Fresh N tiers' c n) (hle : tiers ≤ tiers') :
    Fresh N tiers c n :=
  h.imp_left fun hs k hk => hs k (hk.trans_le hle)

instance (N tiers c n : ℕ) : Decidable (Fresh N tiers c n) :=
  inferInstanceAs (Decidable (Settled N tiers c ∨ c = n))

namespace World

/-- A step without a crash in which the operations succeed. -/
def succeedsNow (w : World Hash32 N MAX_DEPTH) : Action Hash32 → Bool
  | .call c _ => w.handle.all fun h => decide (c.TurnedDown N MAX_DEPTH h.inner.size ∨
      c.payload.Fits wincode h.nextSeq ∧ h.nextSeq + 1 < U64_SIZE)
  | .flushWrite res => decide (res = .writes)
  | .flushSync ok => ok
  | .checkpoint _ _ res => decide (res = .writes)
  | .checkpointCapture ok => ok
  | .checkpointRemap res => decide (res = .cuts)
  | .checkpointTruncated ok res => ok && decide (res = .writes)
  | .checkpointFinish ok => ok
  | .crash _ _ => false
  | _ => true

theorem succeeds_of_now {w : World Hash32 N MAX_DEPTH} {a : Action Hash32}
    (h : w.succeedsNow a = true) :
    w.SucceedsAll wincode a ∧ ∀ wal shards, a ≠ .crash wal shards := by
  refine ⟨?_, by rintro wal shards rfl; cases h⟩
  cases a with
  | call c admitted =>
      intro s hs
      simpa [succeedsNow, hs] using h
  | flushWrite res => exact (of_decide_eq_true h : res = .writes)
  | checkpoint background admitted res => exact (of_decide_eq_true h : res = .writes)
  | checkpointRemap res => exact (of_decide_eq_true h : res = .cuts)
  | checkpointTruncated ok res =>
      simp only [succeedsNow, Bool.and_eq_true, decide_eq_true_eq] at h
      exact h
  | flushSync ok => exact h
  | checkpointCapture ok => exact h
  | checkpointFinish ok => exact h
  | crash wal shards => cases h
  | _ => trivial

/-- The checkpoint on disk is fresh on all levels. -/
def freshNow (w : World Hash32 N MAX_DEPTH) : Action Hash32 → Bool
  | .checkpointCapture _ => w.handle.all fun h => decide
      (Fresh N (max MAX_DEPTH h.pinAboveLevel) (lastCheckpoint wincode w.disk) h.inner.size)
  | .checkpointRemap _ => w.handle.all fun h => decide
      (Fresh N (max MAX_DEPTH h.pinAboveLevel) (lastCheckpoint wincode w.disk) h.inner.size)
  | _ => true

theorem fresh_of_now {w : World Hash32 N MAX_DEPTH} {a : Action Hash32} (ha : w.freshNow a = true)
    {h : Shared Hash32 N MAX_DEPTH} (hh : w.handle = some h) {tiers : ℕ}
    (htiers : tiers ≤ max MAX_DEPTH h.pinAboveLevel) : h.FreshAt wincode tiers w.disk a := by
  cases a with
  | checkpointCapture ok =>
      simp only [freshNow, hh, Option.all_some, decide_eq_true_eq] at ha
      exact ha.mono htiers
  | checkpointRemap res =>
      simp only [freshNow, hh, Option.all_some, decide_eq_true_eq] at ha
      exact ha.mono ((min_le_left _ _).trans (le_max_left _ _))
  | _ => trivial

end World

/-- A checkpoint that writes chunks and syncs files. -/
def checkpointSteps (chunks files : ℕ) : List (Action Hash32) :=
  [.checkpoint false false .writes, .checkpointCapture true, .checkpointHeader] ++
  List.replicate chunks .checkpointWrite ++ List.replicate (files + 2) .checkpointSync ++
  [.checkpointRemap .cuts, .checkpointTruncated true .writes]

/-- A new tree gets its first leaves. -/
def firstLeaves (n : ℕ) : List (Action Hash32) :=
  [.reopen 64 true (fun _ _ => false),
    .call (.insertMany (fun _ _ => false) ((List.range n).map byteHash)) false]

/-- A checkpoint over 255 leaves: node 127 of level 1, the last one of its chunk, has one child. -/
def partialCheckpoint : List (Action Hash32) := firstLeaves 255 ++ checkpointSteps 10 9

/-- Its other child comes in, and is flushed. -/
def secondChild : List (Action Hash32) :=
  [.call (.insert (byteHash 255)) false, .flush false, .flushWrite .writes, .flushSync true]

/-- The next checkpoint does not write the chunk again. -/
def staleCheckpoint : List (Action Hash32) := checkpointSteps 8 8

set_option maxRecDepth 20000 in
theorem secondChild_run : (World.session wincode byteHasher
    (fun w a => w.succeedsNow a && w.freshNow a) (partialCheckpoint ++ secondChild) :
    Option (List (Call Hash32) × World Hash32 2 10)).any (fun s =>
      s.2.handle.any fun h => decide (h.inner.size = 256 ∧ h.checkpointedChunks.getD 1 0 = 1)) =
        true := by
  decide +kernel

/-- The checkpoint counts a chunk with a partial node, and the tree is right when the node gets
its other child. -/
theorem secondChild_sameTree : ∃ (cs : List (Call Hash32)) (w : World Hash32 2 10)
    (h : Shared Hash32 2 10), w.handle = some h ∧ h.inner.size = 256 ∧
      h.checkpointedChunks.getD 1 0 = 1 ∧ ¬ Settled 2 64 255 ∧
      SameTree w.disk.shards.fs h.inner (after w.disk.shards.fs byteHasher cs) := by
  obtain ⟨⟨cs, w⟩, hrun, hend⟩ := (Option.any_eq_true _ _).mp secondChild_run
  obtain ⟨h, hh, hsize⟩ := (Option.any_eq_true _ _).mp hend
  obtain ⟨hsize, hcounts⟩ := of_decide_eq_true hsize
  have hs : Session wincode byteHasher (fun w a => w.KeepsFresh wincode a) cs w := by
    refine Session.of_checked (fun w a ha => ?_) hrun
    obtain ⟨hnow, hfresh⟩ := Bool.and_eq_true_iff.mp ha
    exact ⟨(World.succeeds_of_now hnow).2,
      fun h hh => World.fresh_of_now hfresh hh (le_max_right _ _)⟩
  exact ⟨cs, w, h, hh, hsize, hcounts, by decide,
    hs.tree_of_calls wincode_lawful (Hasher.scalar_lawful _) (by decide) (by decide) hh⟩

/-- No flush and no checkpoint is running. -/
def Holder.isFree : Holder Hash → Bool
  | .free => true
  | _ => false

theorem Holder.eq_free_of_isFree {holder : Holder Hash} (h : holder.isFree = true) :
    holder = .free := by
  cases holder with
  | free => rfl
  | _ => cases h

set_option maxRecDepth 20000 in
theorem staleCheckpoint_run : (World.session wincode byteHasher World.succeedsNow
    (partialCheckpoint ++ (secondChild ++ staleCheckpoint)) :
    Option (List (Call Hash32) × World Hash32 2 10)).any (fun s => s.2.handle.any fun h =>
      h.holder.isFree && decide (s.1.map (fun c => c.leaves.length) = [255, 1] ∧
        ((h.inner.levels 1).get s.2.disk.shards.fs 127).toOption ≠
          (((after s.2.disk.shards.fs byteHasher s.1 : TreeInner Hash32 2 10).levels 1).get
            s.2.disk.shards.fs 127).toOption)) = true := by
  decide +kernel

/-- After the second checkpoint the tree has the partial node again. -/
theorem stale_chunk_mapped : ∃ (cs : List (Call Hash32)) (w : World Hash32 2 10)
    (h : Shared Hash32 2 10),
    Session wincode byteHasher
      (fun w a => w.SucceedsAll wincode a ∧ ∀ wal shards, a ≠ .crash wal shards) cs w ∧
      cs.map (fun c => c.leaves.length) = [255, 1] ∧ w.handle = some h ∧ h.holder = .free ∧
      ¬ SameTree w.disk.shards.fs h.inner (after w.disk.shards.fs byteHasher cs) := by
  obtain ⟨⟨cs, w⟩, hrun, hend⟩ := (Option.any_eq_true _ _).mp staleCheckpoint_run
  obtain ⟨h, hh, hend⟩ := (Option.any_eq_true _ _).mp hend
  obtain ⟨hfree, hends⟩ := Bool.and_eq_true_iff.mp hend
  obtain ⟨hcs, hnode⟩ := of_decide_eq_true hends
  refine ⟨cs, w, h, Session.of_checked (fun w a => World.succeeds_of_now) hrun, hcs, hh,
    Holder.eq_free_of_isFree hfree, ?_⟩
  intro hsame
  exact hnode (congrArg Except.toOption (hsame.nodes 1 127))

/-! ### Crashes -/

section Crashes

variable [Zero Hash] [DecidableEq Hash] {W : Wire Hash} {H : Hasher Hash}
variable {ps : List (WalPayload Hash)} {k : ℕ} {w : World Hash N MAX_DEPTH}

theorem CrashRun.sound_fresh (hW : W.Lawful) (hH : H.Lawful) (hN : 2 ≤ N) (hD : 1 ≤ MAX_DEPTH)
    (hr : CrashRun W H (fun w a => w.SucceedsFresh W a) ps k w) :
    Sound (fun _ => True) Calm W H ps k w := by
  refine hr.sound hW hH hN hD trivial (safeSteps_of_succeeds (fun ha => ha.1) ?_)
  intro disk h ps m a hs ha
  exact hs.finds_fresh (ha.2 h rfl)

/-- The directory after a crash that loses nothing. -/
def Disk.stopped (disk : Disk Hash) : Disk Hash :=
  { disk with
    wal := .synced disk.wal.now
    shards := fun k s => ((disk.shards k s).map (·.now)).map .synced }

/-- That crash. -/
def Disk.stop (disk : Disk Hash) : Action Hash :=
  .crash disk.wal.now fun k s => (disk.shards k s).map (·.now)

omit [DecidableEq Hash] in
theorem World.succeeds_stop (disk : Disk Hash) (handle : Option (Shared Hash N MAX_DEPTH)) :
    World.SucceedsAll W ⟨disk, handle⟩ disk.stop := by
  refine ⟨disk.wal.survives_now, ?_, ShardFiles.survive_now _⟩
  have h := tearsShow_take W.crc disk.wal.now disk.wal.now.length
  rwa [List.take_length] at h

theorem CrashRun.stop {Q : World Hash N MAX_DEPTH → Action Hash → Prop} {disk : Disk Hash}
    {h : Shared Hash N MAX_DEPTH} (hr : CrashRun W H Q ps k ⟨disk, some h⟩)
    (hQ : Q ⟨disk, some h⟩ disk.stop) :
    CrashRun W H Q ps k (⟨disk.stopped, none⟩ : World Hash N MAX_DEPTH) := by
  have hcrash := hr.step (a := disk.stop) hQ rfl
  have hk : max k 0 = k := Nat.max_zero k
  simp only [Disk.stop, World.entriesAfter, World.logged, List.append_nil, World.durable] at hcrash
  rwa [hk] at hcrash

end Crashes

/-- A run whose steps are checked, with its entries. -/
def World.crashRun (check : World Hash32 N MAX_DEPTH → Action Hash32 → Bool)
    (as : List (Action Hash32)) :
    Option (List (WalPayload Hash32) × ℕ × World Hash32 N MAX_DEPTH) :=
  as.foldlM (fun s a =>
    if check s.2.2 a then
      (World.step wincode byteHasher s.2.2 a).map fun w =>
        (World.entriesAfter wincode byteHasher s.1 s.2.2 w a, max s.2.1 w.durable, w)
    else none) ([], 0, World.empty)

theorem CrashRun.of_checked {Q : World Hash32 N MAX_DEPTH → Action Hash32 → Prop}
    {check : World Hash32 N MAX_DEPTH → Action Hash32 → Bool} (hQ : ∀ w a, check w a = true → Q w a)
    {as : List (Action Hash32)} {s : List (WalPayload Hash32) × ℕ × World Hash32 N MAX_DEPTH}
    (h : World.crashRun check as = some s) : CrashRun wincode byteHasher Q s.1 s.2.1 s.2.2 := by
  refine foldlM_invariant (P := fun s => CrashRun wincode byteHasher Q s.1 s.2.1 s.2.2) ?_ .start h
  rintro ⟨ps, k, w⟩ a ⟨ps', k', w'⟩ hs hstep
  split_ifs at hstep with hcheck
  obtain ⟨w'', hw, hr⟩ := Option.map_eq_some_iff.mp hstep
  cases hr
  exact hs.step (hQ w a hcheck) hw

end Works.Rotortree
