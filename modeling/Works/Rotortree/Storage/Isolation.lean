import Works.Rotortree.Inclusion
import Works.Rotortree.Storage.CheckpointRun

/-! # Snapshots across checkpoints

A snapshot shares its chunks with the live tree, so that some of them are windows onto files
which later checkpoints write to.  In a run from an empty directory these are chunks that some
checkpoint counted as done, and no later checkpoint writes to a counted chunk again
(`Forward.files`).  What a snapshot shows therefore never changes
(`Session.snapshot_isolated`). -/

namespace Works.Rotortree

open Works.Lib ChunkedLevel

variable {Hash : Type} {N MAX_DEPTH : ℕ}

/-- The chunks of level `k` that the checkpoints have counted. -/
def Shared.counted (h : Shared Hash N MAX_DEPTH) (k : ℕ) : ℕ := h.checkpointedChunks.getD k 0

/-- The writes that a checkpoint has captured and not done. -/
def Holder.pending : Holder Hash → List (ShardWrite Hash)
  | .checkpoint _ (.header snap) => snap.writes
  | .checkpoint _ (.write _ ws) => ws
  | _ => []

/-! ### What a step does -/

section Steps

variable [Zero Hash]

/-- What a step of an open tree does to the level files, to the tree and to the writes that are
pending. -/
inductive Moved (W : Wire Hash) (H : Hasher Hash) (disk : Disk Hash) (h : Shared Hash N MAX_DEPTH)
    (L : List Hash) (m : ℕ) (disk' : Disk Hash) (h' : Shared Hash N MAX_DEPTH) :
    Action Hash → Prop where
  | idle {a : Action Hash} (hfiles : disk'.shards.fs = disk.shards.fs) (hinner : h'.inner = h.inner)
      (hcounts : h'.checkpointedChunks = h.checkpointedChunks)
      (hsnap : h'.snapshot = h.snapshot ∨ h'.snapshot = h.inner.snapshot)
      (hpending : h'.holder.pending = [] ∨ h'.holder.pending = h.holder.pending) :
      Moved W H disk h L m disk' h' a
  | call {c : Call Hash} {admitted : Bool} (hdisk : disk' = disk)
      (hcall : h' = (h.insertCall W H disk.shards.fs c).2) :
      Moved W H disk h L m disk' h' (.call c admitted)
  | capture {ok : Bool} {snap : CheckpointSnap Hash} (hcap : Captured h L m snap)
      (hfiles : disk'.shards = disk.shards) (hinner : h'.inner = h.inner)
      (hcounts : h'.checkpointedChunks = h.checkpointedChunks) (hsnap : h'.snapshot = h.snapshot)
      (hpending : h'.holder.pending = snap.writes) :
      Moved W H disk h L m disk' h' (.checkpointCapture ok)
  | write {a : Action Hash} {w : ShardWrite Hash} (hpending : h.holder.pending = w :: h'.holder.pending)
      (hfiles : disk'.shards = disk.shards.write w) (hinner : h'.inner = h.inner)
      (hcounts : h'.checkpointedChunks = h.checkpointedChunks) (hsnap : h'.snapshot = h.snapshot) :
      Moved W H disk h L m disk' h' a
  | remap {a : Action Hash} {n : ℕ} (hmn : m ≤ n) (hfiles : disk'.shards = disk.shards)
      (hcounts : ∀ k : Fin MAX_DEPTH, h'.counted k = wholeChunks N n k)
      (hwindows : h.inner.Windows (wholeChunks N m) → h'.inner.Windows (wholeChunks N n))
      (hsnap : h'.snapshot = h.snapshot) (hpending : h'.holder.pending = []) :
      Moved W H disk h L m disk' h' a

variable {P : ℕ → Prop} {W : Wire Hash} {H : Hasher Hash} {tiers : ℕ} {disk disk' : Disk Hash}
variable {h h' : Shared Hash N MAX_DEPTH} {L : List Hash} {m : ℕ}

/-- The write of `flush_buffer_locked`. -/
theorem moved_lockedWrite (background : Bool) {stage : CheckpointStage Hash}
    (hstage : (Holder.checkpoint background stage).pending = [])
    (res : WriteResult) (wal : CrashFile UInt8) (a : Action Hash) :
    Moved W H disk h L m { disk with wal := (h.lockedWrite background stage res wal).1 }
      (h.lockedWrite background stage res wal).2 a := by
  unfold Shared.lockedWrite
  split_ifs
  · exact .idle rfl rfl rfl (.inl rfl) (.inl hstage)
  · cases res with
    | writes => exact .idle rfl rfl rfl (.inl rfl) (.inl hstage)
    | fails n => exact .idle rfl rfl rfl (.inl rfl) (.inl rfl)

/-- A checkpoint goes on. -/
theorem Steady.moved_checkpoint (hW : W.Lawful) (hN : 2 ≤ N) (hD : 1 ≤ MAX_DEPTH)
    (hs : Steady P W H tiers disk h L m) {background : Bool} {stage : CheckpointStage Hash}
    (hst : h.holder = .checkpoint background stage) {a : Action Hash}
    (hfinds : h.Finds P tiers m a) {w' : World Hash N MAX_DEPTH}
    (hstep : World.checkpointStep W ⟨disk, some h⟩ h background stage a = some w')
    (hh' : w'.handle = some h') : Moved W H disk h L m w'.disk h' a := by
  cases stage with
  | flush =>
      cases a with
      | checkpointCapture ok =>
          simp only [World.checkpointStep] at hstep
          cases hsync : h.lockedSync ok disk.wal with
          | none =>
              rw [hsync] at hstep
              cases hstep
              cases hh'
              exact .idle rfl rfl rfl (.inl rfl) (.inl rfl)
          | some r =>
              obtain ⟨wal, h₁⟩ := r
              obtain ⟨flushed, buffer, rfl⟩ := Shared.lockedSync_eq hsync
              rw [hsync] at hstep
              dsimp only at hstep
              split_ifs at hstep with hsize
              · cases hstep
                cases hh'
                exact .idle rfl rfl rfl (.inl rfl) (.inl rfl)
              · obtain ⟨snap, hcap, hc⟩ := Shared.exists_captured
                  (h := { h with flushed := flushed, buffer := buffer }) hN hD hs.tree.refines
                  hs.tree.counts
                rw [hcap] at hstep
                cases hstep
                cases hh'
                exact .capture ⟨hc.leafCount, hc.depth, hc.lastSeq, hc.rootHash, hc.active, hc.level⟩
                  rfl rfl rfl rfl rfl
      | _ => cases hstep
  | header snap =>
      cases a with
      | checkpointHeader =>
          obtain ⟨file, hfile, -⟩ := readHeader_writeHeader hW N MAX_DEPTH
          simp only [World.checkpointStep] at hstep
          rw [hfile] at hstep
          cases hstep
          cases hh'
          exact .idle rfl rfl rfl (.inl rfl) (.inr (by rw [hst]; rfl))
      | _ => cases hstep
  | write snap ws =>
      cases ws with
      | nil =>
          cases a with
          | checkpointSync =>
              cases hstep
              cases hh'
              exact .idle rfl rfl rfl (.inl rfl) (.inl rfl)
          | _ => cases hstep
      | cons c ws =>
          cases a with
          | checkpointWrite =>
              cases hstep
              cases hh'
              exact .write (by rw [hst]; rfl) rfl rfl rfl rfl
          | _ => cases hstep
  | sync snap fl =>
      cases fl with
      | nil =>
          cases a with
          | checkpointSync =>
              obtain ⟨file, hfile, -⟩ := hs.tree.switch hW hst hs.size
                (hs.snap snap (by rw [hst]; rfl)).2.2
              simp only [World.checkpointStep] at hstep
              rw [hfile] at hstep
              cases hstep
              cases hh'
              exact .idle rfl rfl rfl (.inl rfl) (.inl rfl)
          | _ => cases hstep
      | cons f fl =>
          cases a with
          | checkpointSync =>
              cases hstep
              cases hh'
              exact .idle (ShardFiles.fs_sync _ _) rfl rfl (.inl rfl) (.inl rfl)
          | _ => cases hstep
  | remap snap =>
      cases a with
      | checkpointRemap res =>
          have hbase : m ≤ snap.leafCount := by
            have hstage := hs.tree.stage
            rw [hst] at hstage
            exact hstage.1.base
          obtain ⟨inner', chunks', hremap, htree, hwindows⟩ :=
            hs.tree.remap hN hD hst hs.pin (hs.snap snap (by rw [hst]; rfl)).2.1
              (hfinds background snap hst)
          have hcounts : ∀ k : Fin MAX_DEPTH, chunks'.getD k 0 = wholeChunks N snap.leafCount k :=
            fun k => htree.counts k k.isLt
          simp only [World.checkpointStep] at hstep
          rw [hremap] at hstep
          dsimp only at hstep
          rw [serializeHeader_eq hW] at hstep
          cases hstep
          cases res with
          | cuts =>
              cases hh'
              exact .remap hbase rfl hcounts hwindows rfl rfl
          | seekFails =>
              cases hh'
              exact .remap hbase rfl hcounts hwindows rfl rfl
          | headerFails n =>
              cases hh'
              exact .remap hbase rfl hcounts hwindows rfl rfl
          | setLenFails =>
              cases hh'
              exact .remap hbase rfl hcounts hwindows rfl rfl
      | _ => cases hstep
  | truncate =>
      cases a with
      | checkpointTruncated ok res =>
          simp only [World.checkpointStep] at hstep
          split_ifs at hstep
          · cases hstep
            cases hh'
            exact .idle rfl rfl rfl (.inr rfl) (.inl rfl)
          · cases hstep
            cases hh'
            exact moved_lockedWrite background rfl res _ _
          · cases hstep
            cases hh'
            exact .idle rfl rfl rfl (.inl rfl) (.inl rfl)
      | _ => cases hstep
  | tail =>
      cases a with
      | checkpointFinish ok =>
          simp only [World.checkpointStep] at hstep
          cases hsync : h.lockedSync ok disk.wal with
          | none =>
              rw [hsync] at hstep
              cases hstep
              cases hh'
              exact .idle rfl rfl rfl (.inl rfl) (.inl rfl)
          | some r =>
              obtain ⟨wal, h₁⟩ := r
              obtain ⟨flushed, buffer, rfl⟩ := Shared.lockedSync_eq hsync
              rw [hsync] at hstep
              cases hstep
              cases hh'
              exact .idle rfl rfl rfl (.inr rfl) (.inl rfl)
      | _ => cases hstep

/-- **One step** of an open tree. -/
theorem Steady.moved (hW : W.Lawful) (hN : 2 ≤ N) (hD : 1 ≤ MAX_DEPTH)
    (hs : Steady P W H tiers disk h L m) {a : Action Hash} {w' : World Hash N MAX_DEPTH}
    (hcrash : ∀ wal shards, a ≠ .crash wal shards) (hfinds : h.Finds P tiers m a)
    (hstep : World.handleStep W H ⟨disk, some h⟩ h a = some w') (hh' : w'.handle = some h') :
    Moved W H disk h L m w'.disk h' a := by
  have hstay : ∀ {w'}, some (⟨disk, some h⟩ : World Hash N MAX_DEPTH) = some w' →
      w'.handle = some h' → Moved W H disk h L m w'.disk h' a := by
    intro w' hw hh
    cases hw
    cases hh
    exact .idle rfl rfl rfl (.inl rfl) (.inr rfl)
  have hcheckpoint : a.Advances → Moved W H disk h L m w'.disk h' a := by
    intro ha
    obtain ⟨background, stage, hst, hgo⟩ := ha.step hstep
    exact hs.moved_checkpoint hW hN hD hst hfinds hgo hh'
  cases a with
  | call c admitted =>
      simp only [World.handleStep] at hstep
      split_ifs at hstep
      · cases hstep
        cases hh'
        exact .call rfl rfl
      · exact hstay hstep hh'
  | flush admitted =>
      simp only [World.handleStep] at hstep
      split at hstep
      · split_ifs at hstep
        · cases hstep
          cases hh'
          unfold Shared.flushTake
          split_ifs
          · exact .idle rfl rfl rfl (.inl rfl) (.inr rfl)
          · exact .idle rfl rfl rfl (.inl rfl) (.inl rfl)
        · exact hstay hstep hh'
      · cases hstep
  | flushWrite res =>
      simp only [World.handleStep] at hstep
      split at hstep
      · cases hstep
        cases hh'
        cases res with
        | positionFails => exact .idle rfl rfl rfl (.inl rfl) (.inl rfl)
        | writes => exact .idle rfl rfl rfl (.inl rfl) (.inl rfl)
        | fails n seekOk setLenOk => exact .idle rfl rfl rfl (.inl rfl) (.inl rfl)
      · cases hstep
  | flushSync ok =>
      simp only [World.handleStep] at hstep
      split at hstep
      · cases hstep
        cases hh'
        cases ok with
        | true => exact .idle rfl rfl rfl (.inl rfl) (.inl rfl)
        | false => exact .idle rfl rfl rfl (.inl rfl) (.inl rfl)
      · cases hstep
  | checkpoint background admitted res =>
      simp only [World.handleStep] at hstep
      split at hstep
      · split_ifs at hstep
        · cases hstep
          cases hh'
          exact moved_lockedWrite background rfl res _ _
        · exact hstay hstep hh'
      · cases hstep
  | close =>
      cases hstep
      cases hh'
      exact .idle rfl rfl rfl (.inl rfl) (.inr rfl)
  | crash wal shards => exact absurd rfl (hcrash wal shards)
  | reopen _ _ _ => cases hstep
  | checkpointCapture ok => exact hcheckpoint (.capture ok)
  | checkpointHeader => exact hcheckpoint .header
  | checkpointWrite => exact hcheckpoint .write
  | checkpointSync => exact hcheckpoint .sync
  | checkpointRemap res => exact hcheckpoint (.remap res)
  | checkpointTruncated ok res => exact hcheckpoint (.truncated ok res)
  | checkpointFinish ok => exact hcheckpoint (.finish ok)

/-- The pending writes are behind the counted chunks, and change nothing that the tree reads. -/
theorem Steady.writeOk (hs : Steady P W H tiers disk h L m) {w : ShardWrite Hash}
    (hw : w ∈ h.holder.pending) : ∃ n, WriteOk H disk.shards h.inner (L.take n) m w := by
  have hstage := hs.tree.stage
  cases hst : h.holder with
  | checkpoint background stage =>
      rw [hst] at hw hstage
      cases stage with
      | header snap => exact ⟨_, hstage.2.ok w hw⟩
      | write snap ws => exact ⟨_, hstage.2.ok w hw⟩
      | _ => cases hw
  | _ =>
      rw [hst] at hw
      cases hw

end Steps

/-! ### Counted chunks -/

section Forward

variable [Zero Hash]

/-- What a step does to the files and to the windows onto them: counted chunks stay what they
are, and windows lead to counted chunks only. -/
structure Forward (disk : Disk Hash) (h : Shared Hash N MAX_DEPTH) (disk' : Disk Hash)
    (h' : Shared Hash N MAX_DEPTH) : Prop where
  files : ∀ (k : Fin MAX_DEPTH) (p : ℕ), p / CHUNK_SIZE < h.counted k →
    nodeAt disk'.shards.fs k p = nodeAt disk.shards.fs k p
  counted : ∀ k : Fin MAX_DEPTH, h.counted k ≤ h'.counted k
  windows : h.inner.Windows h.counted → h'.inner.Windows h'.counted
  snapshot : h'.snapshot = h.snapshot ∨ h'.snapshot = h'.inner.snapshot

variable {P : ℕ → Prop} {W : Wire Hash} {H : Hasher Hash} {tiers : ℕ} {disk disk' : Disk Hash}
variable {h h' : Shared Hash N MAX_DEPTH} {L : List Hash} {m : ℕ}

/-- A step that changes neither the tree nor the counts. -/
theorem Forward.of_files (hfiles : ∀ (k : Fin MAX_DEPTH) (p : ℕ), p / CHUNK_SIZE < h.counted k →
      nodeAt disk'.shards.fs k p = nodeAt disk.shards.fs k p)
    (hinner : h'.inner = h.inner) (hcounts : h'.checkpointedChunks = h.checkpointedChunks)
    (hsnap : h'.snapshot = h.snapshot ∨ h'.snapshot = h.inner.snapshot) :
    Forward disk h disk' h' where
  files := hfiles
  counted := fun k => by rw [Shared.counted, Shared.counted, hcounts]
  windows := by
    intro hw
    rw [hinner, show h'.counted = h.counted by unfold Shared.counted; rw [hcounts]]
    exact hw
  snapshot := by rw [hinner]; exact hsnap

/-- A call. -/
theorem Steady.forward_call (hH : H.Lawful) (hN : 2 ≤ N) (hD : 1 ≤ MAX_DEPTH)
    (hs : Steady P W H tiers disk h L m) (c : Call Hash) :
    Forward disk h disk (h.insertCall W H disk.shards.fs c).2 := by
  obtain ⟨hinner, hcounts, -⟩ := Shared.insertCall_frame W H disk.shards.fs c h
  refine ⟨fun _ _ _ => rfl, fun k => by rw [Shared.counted, Shared.counted, hcounts], ?_, ?_⟩
  · intro hw
    rw [show (h.insertCall W H disk.shards.fs c).2.counted = h.counted by
      unfold Shared.counted; rw [hcounts], hinner]
    by_cases hc : c.TurnedDown N MAX_DEPTH L.length
    · obtain ⟨e, he⟩ := (@Call.run_of_turnedDown _ _ _ _ disk.shards.fs H h.inner) hN
        (hs.tree.refines.size ▸ hc)
      rw [he]
      exact hw
    · obtain ⟨r, t', he, -, -, hd⟩ := Call.run_spec hH hN hD (hs.tree.refines.near hN) hc
      rw [he]
      exact fun k i c hc hm => hw k i c (hd k i c hc hm) hm
  · unfold Shared.insertCall
    split
    · exact .inl rfl
    · exact .inl rfl
    · split
      · exact .inl rfl
      · split_ifs
        · exact .inr rfl
        · exact .inl rfl

theorem Steady.forward (hH : H.Lawful) (hN : 2 ≤ N) (hD : 1 ≤ MAX_DEPTH)
    (hs : Steady P W H tiers disk h L m) {a : Action Hash} (hm : Moved W H disk h L m disk' h' a) :
    Forward disk h disk' h' := by
  have hold : ∀ k : Fin MAX_DEPTH, h.counted k = wholeChunks N m k := fun k =>
    hs.tree.counts k k.isLt
  cases hm with
  | idle hfiles hinner hcounts hsnap hpending =>
      exact .of_files (fun k p _ => by rw [hfiles]) hinner hcounts hsnap
  | call hdisk hcall =>
      rw [hdisk, hcall]
      exact hs.forward_call hH hN hD _
  | capture hcap hfiles hinner hcounts hsnap hpending =>
      exact .of_files (fun k p _ => by rw [hfiles]) hinner hcounts (.inl hsnap)
  | write hpending hfiles hinner hcounts hsnap =>
      -- a chunk is written behind the counted ones
      obtain ⟨n, kw, i, c, rfl, hi, -⟩ := hs.writeOk (by rw [hpending]; exact List.mem_cons_self)
      refine .of_files (fun k p hp => ?_) hinner hcounts (.inl hsnap)
      rw [hold] at hp
      rw [hfiles, nodeAt_write, if_neg]
      rintro ⟨hk, hpi⟩
      rw [hk, hpi] at hp
      omega
  | remap hmn hfiles hcounts hwindows hsnap hpending =>
      -- the chunks that become windows are counted now
      refine ⟨fun k p _ => by rw [hfiles], ?_, ?_, .inl hsnap⟩
      · intro k
        rw [hold, hcounts]
        exact wholeChunks_mono hN hmn k
      · intro hw k i c hc hm
        rw [hcounts]
        exact hwindows (fun k i c hc hm => (hw k i c hc hm).trans_eq (hold k)) k i c hc hm

/-! ### Snapshots -/

/-- The snapshot shows the tree over `L`, and its windows lead to counted chunks. -/
structure Isolated (H : Hasher Hash) (disk : Disk Hash) (h : Shared Hash N MAX_DEPTH)
    (s : TreeSnapshot Hash N MAX_DEPTH) (L : List Hash) : Prop where
  shown : s.Refines disk.shards.fs H L
  home : ∀ k : Fin MAX_DEPTH, AtHome k (s.levels k)
  kept : ∀ (k : Fin MAX_DEPTH) (i : ℕ) (c : Chunk Hash), (s.levels k).chunks[i]? = some c →
    c.IsMapped → i < h.counted k

theorem Isolated.step {s : TreeSnapshot Hash N MAX_DEPTH} (hi : Isolated H disk h s L)
    (hf : Forward disk h disk' h') : Isolated H disk' h' s L where
  shown := by
    refine ⟨hi.shown.size, hi.shown.depth, hi.shown.root, fun k => ?_⟩
    refine (hi.shown.levels k).of_fs (hi.home k) fun p hp hmapped => ?_
    obtain ⟨c, hc⟩ := (hi.shown.levels k).exists_chunk hp
    exact hf.files k p (hi.kept k _ c hc (hmapped c hc))
  home := hi.home
  kept := fun k i c hc hm => (hi.kept k i c hc hm).trans_le (hf.counted k)

omit [Zero Hash] in
/-- The chunks of a snapshot are those of the tree. -/
theorem TreeInner.chunk_of_snapshot {t : TreeInner Hash N MAX_DEPTH} {k : Fin MAX_DEPTH} {i : ℕ}
    {c : Chunk Hash} (hc : (t.snapshot.levels k).chunks[i]? = some c) :
    (t.levels k).chunks[i]? = some c := by
  change (if k.val < min (t.depth + 1) MAX_DEPTH then t.levels k
    else ChunkedLevel.new).chunks[i]? = some c at hc
  split_ifs at hc
  · exact hc
  · simp [ChunkedLevel.new, ChunkedLevel.chunks] at hc

/-- A new snapshot. -/
theorem Steady.isolated (hs : Steady P W H tiers disk h L m) (hw : h.inner.Windows h.counted) :
    Isolated H disk h h.inner.snapshot L where
  shown := hs.tree.refines.snapshot
  home := fun k i c hc => hs.tree.home k i c (TreeInner.chunk_of_snapshot hc)
  kept := fun k i c hc => hw k i c (TreeInner.chunk_of_snapshot hc)

end Forward

/-! ### Every run -/

theorem acceptedOn_extends (cs : List (Call Hash)) (L : List Hash) :
    L <+: acceptedOn N MAX_DEPTH L cs := by
  induction cs generalizing L with
  | nil => exact List.prefix_rfl
  | cons c cs ih =>
      refine List.IsPrefix.trans ?_ (ih _)
      show L <+: if c.TurnedDown N MAX_DEPTH L.length then L else L ++ c.leaves
      split_ifs
      · exact List.prefix_rfl
      · exact List.prefix_append _ _

section Run

variable [Zero Hash] [DecidableEq Hash] {W : Wire Hash} {H : Hasher Hash}
variable {cs : List (Call Hash)} {w w' : World Hash N MAX_DEPTH}

/-- An open tree whose published snapshot is isolated. -/
structure Published (W : Wire Hash) (H : Hasher Hash) (w : World Hash N MAX_DEPTH)
    (h : Shared Hash N MAX_DEPTH) (L : List Hash) : Prop where
  isOpen : w.handle = some h
  steady : ∃ m, Steady (Settled N h.pinAboveLevel) W H h.pinAboveLevel w.disk h L m
  windows : h.inner.Windows h.counted
  snapshot : ∃ L₀, L₀ <+: L ∧ Isolated H w.disk h h.snapshot L₀

theorem Published.step (hW : W.Lawful) (hH : H.Lawful) (hN : 2 ≤ N) (hD : 1 ≤ MAX_DEPTH)
    {h : Shared Hash N MAX_DEPTH} {L : List Hash} (hp : Published W H w h L) {a : Action Hash}
    (ha : w.Settles a) (hw : World.step W H w a = some w') :
    ∃ h', Published W H w' h' (acceptedOn N MAX_DEPTH L (w.entered a)) ∧
      ∀ {s : TreeSnapshot Hash N MAX_DEPTH} {L₀}, Isolated H w.disk h s L₀ →
        Isolated H w'.disk h' s L₀ := by
  obtain ⟨disk, handle⟩ := w
  cases hp.isOpen
  obtain ⟨m, hs⟩ := hp.steady
  have hcrash : ∀ wal shards, a ≠ .crash wal shards := by
    rintro wal shards rfl
    exact ha
  have hfinds : h.Finds (Settled N h.pinAboveLevel) h.pinAboveLevel m a :=
    hs.finds (by rintro ok rfl; exact ha h rfl)
  obtain ⟨h', m', hh', hpin, hs'⟩ := hs.step hW hH hN hD hcrash hfinds hw
  have hf := hs.forward hH hN hD (hs.moved hW hN hD hcrash hfinds hw hh')
  have hwindows := hf.windows hp.windows
  refine ⟨h', ⟨hh', ⟨m', by rw [hpin]; exact hs'⟩, hwindows, ?_⟩, fun hi => hi.step hf⟩
  rcases hf.snapshot with hsame | hnew
  · obtain ⟨L₀, hL, hi⟩ := hp.snapshot
    rw [hsame]
    exact ⟨L₀, hL.trans (acceptedOn_extends _ _), hi.step hf⟩
  · rw [hnew]
    exact ⟨_, List.prefix_rfl, hs'.isolated hwindows⟩

theorem Session.published (hW : W.Lawful) (hH : H.Lawful) (hN : 2 ≤ N) (hD : 1 ≤ MAX_DEPTH)
    (hs : Session W H (fun w a => w.Settles a) cs w) :
    w = World.empty ∧ cs = [] ∨ ∃ h, Published W H w h (accepted N MAX_DEPTH cs) := by
  induction hs with
  | start => exact .inl ⟨rfl, rfl⟩
  | @step cs w w' a _ ha hw ih =>
      right
      rcases ih with ⟨rfl, rfl⟩ | ⟨h, hp⟩
      · cases a with
        | reopen pinAboveLevel verify par =>
            unfold World.step at hw
            rw [show (World.empty : World Hash N MAX_DEPTH).handle = none from rfl] at hw
            dsimp only at hw
            rw [openTree_new hW H pinAboveLevel verify par] at hw
            cases hw
            have hs : Steady (Settled N pinAboveLevel) W H pinAboveLevel
                { (World.empty : World Hash N MAX_DEPTH).disk with
                  wal := ((CrashFile.synced []).write 0 (headerBytes W N MAX_DEPTH)).sync }
                (opened W N MAX_DEPTH pinAboveLevel) [] 0 :=
              opened_steady (settled_of_lt hN (by decide) _) hN pinAboveLevel rfl (min_le_right _ _)
            have hwindows : (opened W N MAX_DEPTH pinAboveLevel).inner.Windows
                (opened W N MAX_DEPTH pinAboveLevel).counted := by
              intro k i c hc
              simp [opened, TreeInner.new, ChunkedLevel.new, ChunkedLevel.chunks] at hc
            exact ⟨_, rfl, ⟨0, hs⟩, hwindows, [], List.prefix_rfl, hs.isolated hwindows⟩
        | _ => cases hw
      · obtain ⟨h', hp', -⟩ := hp.step hW hH hN hD ha hw
        refine ⟨h', ?_⟩
        rw [accepted, List.foldl_append]
        exact hp'

/-- A run goes on. -/
def World.Onward (W : Wire Hash) (H : Hasher Hash) :
    World Hash N MAX_DEPTH → World Hash N MAX_DEPTH → Prop :=
  Relation.ReflTransGen fun w w' => ∃ a, w.Settles a ∧ World.step W H w a = some w'

/-- **A snapshot never changes.**  Whatever snapshot is handed out in a run, it shows the
reference tree over the leaves of some moment, and shows the same tree after any calls, flushes
and checkpoints that follow. -/
theorem Session.snapshot_isolated (hW : W.Lawful) (hH : H.Lawful) (hN : 2 ≤ N) (hD : 1 ≤ MAX_DEPTH)
    (hs : Session W H (fun w a => w.Settles a) cs w) {h : Shared Hash N MAX_DEPTH}
    (hh : w.handle = some h) :
    ∃ L, L <+: accepted N MAX_DEPTH cs ∧ ∀ w', World.Onward W H w w' →
      h.snapshot.Refines w'.disk.shards.fs H L := by
  rcases hs.published hW hH hN hD with ⟨rfl, -⟩ | ⟨h', hp⟩
  · cases hh
  · obtain rfl : h = h' := by
      rw [hp.isOpen, Option.some.injEq] at hh
      exact hh.symm
    obtain ⟨L₀, hL, hi⟩ := hp.snapshot
    refine ⟨L₀, hL, ?_⟩
    intro w' hon
    have hlater : ∃ h' L', Published W H w' h' L' ∧ Isolated H w'.disk h' h.snapshot L₀ := by
      induction hon with
      | refl => exact ⟨h, _, hp, hi⟩
      | tail _ hstep ih =>
          obtain ⟨h₁, L₁, hp₁, hi₁⟩ := ih
          obtain ⟨a, ha, hw⟩ := hstep
          obtain ⟨h₂, hp₂, hkeep⟩ := hp₁.step hW hH hN hD ha hw
          exact ⟨h₂, _, hp₂, hkeep hi₁⟩
    obtain ⟨h', L', -, hi'⟩ := hlater
    exact hi'.shown

/-- A checked run from `w` on. -/
theorem World.onward_of_checked {check : World Hash N MAX_DEPTH → Action Hash → Bool}
    (hP : ∀ w a, check w a = true → w.Settles a) {as : List (Action Hash)}
    {s s' : List (Call Hash) × World Hash N MAX_DEPTH}
    (h : as.foldlM (World.sessionStep W H check) s = some s') : World.Onward W H s.2 s'.2 := by
  let P : List (Call Hash) × World Hash N MAX_DEPTH → Prop := fun s' => World.Onward W H s.2 s'.2
  refine foldlM_invariant (P := P) ?_ .refl h
  intro s₁ a s₂ hon hstep
  unfold World.sessionStep at hstep
  split_ifs at hstep with hcheck
  obtain ⟨w, hw, hs⟩ := Option.map_eq_some_iff.mp hstep
  cases hs
  exact hon.tail ⟨a, hP s₁.2 a hcheck, hw⟩

end Run

/-- The snapshot after the first checkpoint, whose leaves are in a mapped chunk, after the second
one. -/
theorem twoCheckpoints_isolated : ∃ (w w' : World Hash32 2 10) (h : Shared Hash32 2 10)
    (L : List Hash32), w.handle = some h ∧ h.checkpointedChunks.getD 0 0 = 1 ∧
      h.snapshot.size = CHUNK_SIZE + 1 ∧ World.Onward wincode xorHasher w w' ∧
      h.snapshot.Refines w'.disk.shards.fs xorHasher L := by
  obtain ⟨⟨cs, w⟩, hfirst, hend⟩ := (Option.any_eq_true _ _).mp twoCheckpoints_run
  obtain ⟨hsize, hend⟩ := Bool.and_eq_true_iff.mp hend
  obtain ⟨⟨cs', w'⟩, hsecond, -⟩ := (Option.any_eq_true _ _).mp hend
  obtain ⟨h, hh, hsize⟩ := (Option.any_eq_true _ _).mp hsize
  obtain ⟨hmapped, hsize⟩ := of_decide_eq_true hsize
  have hon := World.onward_of_checked World.settles_of_now hsecond
  obtain ⟨L, -, hshows⟩ := (Session.of_checked World.settles_of_now hfirst).snapshot_isolated
    wincode_lawful (Hasher.scalar_lawful _) (by decide) (by decide) hh
  exact ⟨w, w', h, L, hh, hmapped, hsize, hon, hshows w' hon⟩

end Works.Rotortree
