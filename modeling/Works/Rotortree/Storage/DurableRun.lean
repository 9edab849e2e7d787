import Works.Rotortree.Storage.LogRun

/-! # Crashes in a run

Runs of any length in which a crash may come between any two steps, also in the middle of a
checkpoint, and leave of the files whatever was not synced.  `CrashRun Q ps k w` collects the
entries `ps` of the tree in `w` and the number `k` of entries that were ever reported durable,
while the steps have `Q`.  Where these are `SafeSteps`, the directory stays that of the tree
(`CrashRun.sound`): operations on the log may fail as far as `World.Tolerates` allows it, and
checkpoints find whole chunks in the files.

In a `DurableRun` no operation fails, and every checkpoint takes the levels at a settled leaf
count.  There an open tree is always the tree over its entries (`DurableRun.tree_of_entries`), and
`open` always succeeds after a crash, on a beginning of the entries that has all durable ones
(`DurableRun.reopens`). -/

namespace Works.Rotortree

open Works.Lib ChunkedLevel

variable {Hash : Type} {N MAX_DEPTH : ℕ}

/-! ### Runs -/

/-- The number of entries whose tokens are durable. -/
def Shared.durable (h : Shared Hash N MAX_DEPTH) : ℕ :=
  match h.flushed with
  | some f => f + 1
  | none => 0

theorem Shared.isDurable_iff (h : Shared Hash N MAX_DEPTH) (seq : ℕ) :
    h.isDurable seq = true ↔ seq < h.durable := by
  unfold Shared.isDurable Shared.durable
  cases h.flushed with
  | none => simp
  | some f => simp

namespace World

/-- The number of entries whose tokens are durable now. -/
def durable (w : World Hash N MAX_DEPTH) : ℕ :=
  match w.handle with
  | some h => h.durable
  | none => 0

/-- The operations of the file system succeed, a call does not panic, and a checkpoint takes the
levels at a settled leaf count.  A crash leaves what the files allow. -/
def Smooth (W : Wire Hash) [Zero Hash] (w : World Hash N MAX_DEPTH) : Action Hash → Prop
  | .call c _ => ∀ h, w.handle = some h → c.TurnedDown N MAX_DEPTH h.inner.size ∨
      c.payload.Fits W h.nextSeq ∧ h.nextSeq + 1 < U64_SIZE
  | .flushWrite res => res = .writes
  | .flushSync ok => ok = true
  | .checkpoint _ _ res => res = .writes
  | .checkpointCapture ok =>
      ok = true ∧ ∀ h, w.handle = some h → Settled N MAX_DEPTH h.inner.size
  | .checkpointRemap res => res = .cuts
  | .checkpointTruncated ok res => ok = true ∧ res = .writes
  | .checkpointFinish ok => ok = true
  | .crash wal shards => w.disk.wal.Survives wal ∧ TearsShow W.crc w.disk.wal.now wal ∧
      w.disk.shards.Survive shards
  | _ => True

theorem Smooth.succeeds {W : Wire Hash} [Zero Hash] {w : World Hash N MAX_DEPTH} {a : Action Hash}
    (h : w.Smooth W a) : w.SucceedsAll W a := by
  cases a with
  | checkpointCapture ok => exact h.1
  | _ => exact h

variable [Zero Hash] (W : Wire Hash) (H : Hasher Hash)

/-- The entry that a call adds to the tree. -/
def logged (w : World Hash N MAX_DEPTH) : Action Hash → List (WalPayload Hash)
  | .call c admitted => match w.handle with
      | some h =>
          if h.holder.locksState then []
          else if h.admits admitted then
            match (h.insertCall W H w.disk.shards.fs c).1 with
            | .ok _ => [c.payload]
            | .error _ => []
          else []
      | none => []
  | _ => []

/-- The entries after a step to `w'`.  A tree that is opened goes on with those before its next
number. -/
def entriesAfter (ps : List (WalPayload Hash)) (w w' : World Hash N MAX_DEPTH) :
    Action Hash → List (WalPayload Hash)
  | .reopen _ _ _ => match w'.handle with
      | some t => ps.take t.nextSeq
      | none => ps
  | a => ps ++ w.logged W H a

end World

/-- The runs from an empty directory. -/
inductive DurableRun [Zero Hash] [DecidableEq Hash] (W : Wire Hash) (H : Hasher Hash) :
    List (WalPayload Hash) → ℕ → World Hash N MAX_DEPTH → Prop where
  | start : DurableRun W H [] 0 World.empty
  | step {ps : List (WalPayload Hash)} {k : ℕ} {w w' : World Hash N MAX_DEPTH} {a : Action Hash}
      (h : DurableRun W H ps k w) (ha : w.Smooth W a) (hw : World.step W H w a = some w') :
      DurableRun W H (World.entriesAfter W H ps w w' a) (max k w'.durable) w'

/-- The runs from an empty directory whose steps have `Q`. -/
inductive CrashRun [Zero Hash] [DecidableEq Hash] (W : Wire Hash) (H : Hasher Hash)
    (Q : World Hash N MAX_DEPTH → Action Hash → Prop) :
    List (WalPayload Hash) → ℕ → World Hash N MAX_DEPTH → Prop where
  | start : CrashRun W H Q [] 0 World.empty
  | step {ps : List (WalPayload Hash)} {k : ℕ} {w w' : World Hash N MAX_DEPTH} {a : Action Hash}
      (h : CrashRun W H Q ps k w) (ha : Q w a) (hw : World.step W H w a = some w') :
      CrashRun W H Q (World.entriesAfter W H ps w w' a) (max k w'.durable) w'

theorem DurableRun.crashRun [Zero Hash] [DecidableEq Hash] {W : Wire Hash} {H : Hasher Hash}
    {ps : List (WalPayload Hash)} {k : ℕ} {w : World Hash N MAX_DEPTH} (h : DurableRun W H ps k w) :
    CrashRun W H (fun w a => w.Smooth W a) ps k w := by
  induction h with
  | start => exact .start
  | step _ ha hw ih => exact ih.step ha hw

/-! ### The entries of an open tree -/

/-- A checkpoint over the entries `pn`. -/
def CheckpointSnap.Over (snap : CheckpointSnap Hash) (pn : List (WalPayload Hash)) : Prop :=
  snap.leafCount = (leavesOf pn).length ∧ snap.lastSeq + 1 = pn.length

/-- What the stages of a checkpoint rely on: `pn` are the entries that are safe in the log, `pc`
those of the checkpoint on disk. -/
def SnapFor (W : Wire Hash) (N MAX_DEPTH : ℕ) (disk : Disk Hash) (pc pn : List (WalPayload Hash)) :
    Holder Hash → Prop
  | .checkpoint _ (.header snap) => snap.Over pn
  | .checkpoint _ (.write snap _) =>
      snap.Over pn ∧ HeaderValid W N MAX_DEPTH disk ∧ disk.dataDir = true
  | .checkpoint _ (.sync snap _) =>
      snap.Over pn ∧ HeaderValid W N MAX_DEPTH disk ∧ disk.dataDir = true
  | .checkpoint _ (.remap _) => pc = pn
  | _ => True

/-- The log, the metadata and the level files have the entries `ps` of the open tree: the
checkpoint those in `pc`, the synced part of the log those up to `pn`. -/
structure Backed (W : Wire Hash) (H : Hasher Hash) (disk : Disk Hash) (h : Shared Hash N MAX_DEPTH)
    (ps pc pn : List (WalPayload Hash)) : Prop where
  entries : EntriesOk W N MAX_DEPTH ps
  next : h.nextSeq = ps.length
  log : ∃ p0 pd pu pf pb, pn = p0 ++ pd ∧ LogPart W disk.wal h pc ps p0 pd pu pf pb
  checkpoint : CheckpointFor W H N MAX_DEPTH disk pc
  files : FilesBetween H N MAX_DEPTH disk.shards pc pn
  stage : SnapFor W N MAX_DEPTH disk pc pn h.holder

section Steps

variable {W : Wire Hash} {H : Hasher Hash} {disk disk' : Disk Hash}
variable {h h' : Shared Hash N MAX_DEPTH} {ps pc pn : List (WalPayload Hash)} {P : ℕ → Prop} {m : ℕ}

theorem EntriesOk.concat (h : EntriesOk W N MAX_DEPTH ps) {p : WalPayload Hash}
    (hfit : p.Fits W ps.length) (hne : p.leaves ≠ []) (hseq : ps.length + 1 < U64_SIZE)
    (hroom : CanAdd N MAX_DEPTH (leavesOf ps).length p.leaves) :
    EntriesOk W N MAX_DEPTH (ps ++ [p]) where
  fit := allFit_append.mpr ⟨h.fit, by rw [Nat.zero_add]; exact ⟨hfit, trivial⟩⟩
  brings := by
    intro q hq
    cases List.mem_append.mp hq with
    | inl hq => exact h.brings q hq
    | inr hq => rw [List.mem_singleton.mp hq]; exact hne
  seqs := by
    rw [List.length_append, List.length_singleton]
    exact hseq
  room := by
    rw [leavesOf_append, canAdd_append, Nat.zero_add]
    refine ⟨h.room, ?_⟩
    rwa [leavesOf_singleton]

theorem Backed.reach (hb : Backed W H disk h ps pc pn) : pc <+: pn := by
  obtain ⟨p0, pd, pu, pf, pb, rfl, hlog⟩ := hb.log
  exact hlog.reach

theorem Backed.safe (hb : Backed W H disk h ps pc pn) : pn <+: ps := by
  obtain ⟨p0, pd, pu, pf, pb, rfl, hlog⟩ := hb.log
  rw [hlog.parts, List.append_assoc, List.append_assoc (p0 ++ pd)]
  exact List.prefix_append _ _

theorem Backed.durable_le (hb : Backed W H disk h ps pc pn) : h.durable ≤ pn.length := by
  obtain ⟨p0, pd, pu, pf, pb, rfl, hlog⟩ := hb.log
  unfold Shared.durable
  cases hf : h.flushed with
  | none => exact Nat.zero_le _
  | some f => exact hlog.flushed f hf

/-- A step that leaves the files of the checkpoint alone. -/
theorem Backed.keep {pn' : List (WalPayload Hash)} (hb : Backed W H disk h ps pc pn)
    (hshards : disk'.shards = disk.shards) (hmeta : disk'.metaFile = disk.metaFile) (hdir : disk'.dataDir = disk.dataDir)
    (hheader : disk'.headerFile = disk.headerFile) (hnext : h'.nextSeq = h.nextSeq)
    (hpn : pn <+: pn')
    (hlog : ∃ p0 pd pu pf pb, pn' = p0 ++ pd ∧ LogPart W disk'.wal h' pc ps p0 pd pu pf pb)
    (hstage : SnapFor W N MAX_DEPTH disk' pc pn' h'.holder) : Backed W H disk' h' ps pc pn' where
  entries := hb.entries
  next := hnext.trans hb.next
  log := hlog
  checkpoint := hb.checkpoint.of_eq hmeta hdir hheader
  files := by rw [hshards]; exact hb.files.mono hpn
  stage := hstage

variable [Zero Hash]

/-- **A call.**  Its entry goes into the buffer. -/
theorem Backed.call (hH : H.Lawful) (hN : 2 ≤ N) (hD : 1 ≤ MAX_DEPTH)
    (hs : Steady P W H MAX_DEPTH disk h (leavesOf ps) m) (hb : Backed W H disk h ps pc pn)
    (hlock : h.holder.locksState = false) {c : Call Hash}
    (hc : c.TurnedDown N MAX_DEPTH h.inner.size ∨
      c.payload.Fits W h.nextSeq ∧ h.nextSeq + 1 < U64_SIZE) :
    Backed W H disk (h.insertCall W H disk.shards.fs c).2
      (ps ++ match (h.insertCall W H disk.shards.fs c).1 with
        | .ok _ => [c.payload]
        | .error _ => []) pc pn := by
  rw [hs.tree.refines.size] at hc
  rcases insertCall_cases (W := W) hH hN hD hs.tree.refines c with
    ⟨-, e, he⟩ | ⟨hup, root, inner, -, ⟨hfit, hseq, he⟩ | ⟨hno, -⟩⟩
  · rw [he]
    dsimp only
    rw [List.append_nil]
    exact hb
  · rw [he]
    dsimp only
    have hne : c.leaves ≠ [] := fun h0 => hup (.inl h0)
    have hroom : CanAdd N MAX_DEPTH (leavesOf ps).length c.payload.leaves := by
      simp only [Call.TurnedDown, not_or, not_le, not_lt] at hup
      rw [Call.leaves_payload]
      exact .inr ⟨hup.2.1, hup.2.2⟩
    rw [hb.next] at hfit hseq
    refine ⟨hb.entries.concat hfit (by rw [Call.leaves_payload]; exact hne) hseq hroom, ?_, ?_,
      hb.checkpoint, hb.files, hb.stage⟩
    · rw [List.length_append, List.length_singleton, hb.next]
    · obtain ⟨p0, pd, pu, pf, pb, rfl, hlog⟩ := hb.log
      exact ⟨p0, pd, pu, pf, pb ++ [c.payload], rfl,
        hlog.append hlock hb.next c.payload rfl rfl rfl rfl⟩
  · exact absurd (hc.resolve_left hup) hno

/-! ### Flushes and checkpoints -/

omit [Zero Hash] in
/-- `flush_inner`. -/
theorem Backed.flushTake (hb : Backed W H disk h ps pc pn) (hst : h.holder = .free) :
    Backed W H disk h.flushTake ps pc pn := by
  obtain ⟨p0, pd, pu, pf, pb, rfl, hlog⟩ := hb.log
  obtain ⟨pf', pb', hlog'⟩ := hlog.flushTake hst hb.next
  refine hb.keep rfl rfl rfl rfl ?_ List.prefix_rfl ⟨p0, pd, pu, pf', pb', rfl, hlog'⟩ ?_
  · unfold Shared.flushTake
    split_ifs <;> rfl
  · unfold Shared.flushTake
    split_ifs
    · rw [hst]
      trivial
    · trivial

omit [Zero Hash] in
theorem Backed.flushWrite {buf : List UInt8} {lastSeq : ℕ} (hb : Backed W H disk h ps pc pn)
    (hst : h.holder = .flush buf lastSeq false) {res : FlushResult} (hres : res.Restores) :
    Backed W H { disk with wal := (h.flushWrite buf lastSeq res disk.wal).1 }
      (h.flushWrite buf lastSeq res disk.wal).2 ps pc pn := by
  obtain ⟨p0, pd, pu, pf, pb, rfl, hlog⟩ := hb.log
  obtain ⟨pu', pf', pb', hlog'⟩ := hlog.flushWrite hst hres
  refine hb.keep rfl rfl rfl rfl ?_ List.prefix_rfl ⟨p0, pd, pu', pf', pb', rfl, hlog'⟩ ?_
  · cases res <;> rfl
  · cases res <;> trivial

omit [Zero Hash] in
theorem Backed.flushSync {buf : List UInt8} {lastSeq : ℕ} (hb : Backed W H disk h ps pc pn)
    (hst : h.holder = .flush buf lastSeq true) (ok : Bool) :
    ∃ pn', pn <+: pn' ∧ Backed W H { disk with wal := (h.flushSync lastSeq ok disk.wal).1 }
      (h.flushSync lastSeq ok disk.wal).2 ps pc pn' := by
  obtain ⟨p0, pd, pu, pf, pb, rfl, hlog⟩ := hb.log
  cases ok with
  | true =>
      have hpn : p0 ++ pd <+: p0 ++ (pd ++ pu) := by
        rw [← List.append_assoc]
        exact List.prefix_append _ _
      exact ⟨_, hpn, hb.keep rfl rfl rfl rfl rfl hpn
        ⟨p0, pd ++ pu, [], [], pb, rfl, hlog.flushSync hst⟩ trivial⟩
  | false =>
      exact ⟨_, List.prefix_rfl, hb.keep rfl rfl rfl rfl rfl List.prefix_rfl
        ⟨p0, pd, pu, [], pb, rfl, hlog.flushUnsynced hst⟩ trivial⟩

omit [Zero Hash] in
/-- The write of `flush_buffer_locked`. -/
theorem Backed.lockedWrite {p0 pd pu pb : List (WalPayload Hash)} {background : Bool}
    {stage : CheckpointStage Hash} (hb : Backed W H disk h ps pc pn) (hpn : pn = p0 ++ pd)
    {wal : CrashFile UInt8} (h₀ : Shared Hash N MAX_DEPTH) (hnext : h₀.nextSeq = h.nextSeq)
    (hlog : LogPart W wal h₀ pc ps p0 pd pu [] pb) (hcut : h₀.holder.cuts = false)
    (hbuffer : h₀.buffer = framesFrom W ((p0 ++ pd).length + pu.length) pb)
    (hstage : stage = .flush ∨ stage = .tail ∧ h₀.buffer ≠ []) {res : WriteResult}
    (hres : h₀.buffer = [] ∨ res.Whole) :
    Backed W H { disk with wal := (h₀.lockedWrite background stage res wal).1 }
      (h₀.lockedWrite background stage res wal).2 ps pc pn := by
  obtain ⟨pu', pb', hlog'⟩ : ∃ pu' pb', LogPart W (h₀.lockedWrite background stage res wal).1
      (h₀.lockedWrite background stage res wal).2 pc ps p0 pd pu' [] pb' :=
    hlog.lockedWrite hcut hbuffer hstage hres
  refine hb.keep rfl rfl rfl rfl ?_ List.prefix_rfl ⟨p0, pd, pu', [], pb', hpn, hlog'⟩ ?_
  · rw [← hnext]
    unfold Shared.lockedWrite
    split_ifs
    · rfl
    · cases res <;> rfl
  · have hfree : SnapFor W N MAX_DEPTH { disk with wal := (h₀.lockedWrite background stage res wal).1 }
        pc pn (.checkpoint background stage) := by
      rcases hstage with rfl | ⟨rfl, -⟩ <;> trivial
    unfold Shared.lockedWrite
    split_ifs
    · exact hfree
    · cases res with
      | writes => exact hfree
      | fails written => trivial

omit [Zero Hash] in
/-- Its sync: now all entries are safe. -/
theorem Backed.lockedSync {background : Bool} {stage : CheckpointStage Hash}
    (hb : Backed W H disk h ps pc pn) (hst : h.holder = .checkpoint background stage)
    (hstage : stage = .flush ∨ stage = .tail ∧ h.buffer ≠ []) {ok : Bool}
    (hsynced : h.buffer = [] → disk.wal.past = []) (hok : h.buffer ≠ [] → ok = true) :
    ∃ flushed, h.lockedSync ok disk.wal =
        some (disk.wal.sync, { h with flushed := flushed, buffer := [] }) ∧
      Backed W H { disk with wal := disk.wal.sync }
        { h with flushed := flushed, buffer := [], holder := .free } ps pc ps := by
  obtain ⟨p0, pd, pu, pf, pb, rfl, hlog⟩ := hb.log
  obtain ⟨flushed, hsync, hlog'⟩ := hlog.lockedSync hst hstage hb.next hsynced hok
  have hps : ps = p0 ++ (pd ++ pu) := by
    have := hlog'.parts
    rwa [List.append_nil, List.append_nil, List.append_nil] at this
  exact ⟨flushed, hsync, hb.keep rfl rfl rfl rfl rfl hb.safe
    ⟨p0, pd ++ pu, [], [], [], hps, hlog'⟩ trivial⟩

omit [Zero Hash] in
/-- The capture: the log has all entries, and is synced. -/
theorem Backed.captured {background : Bool} {snap : CheckpointSnap Hash}
    (hb : Backed W H disk h ps pc ps) (hpast : disk.wal.past = []) (hst : h.holder = .free)
    (hbuffer : h.buffer = []) (hover : snap.Over ps) :
    Backed W H disk { h with holder := .checkpoint background (.header snap) } ps pc ps := by
  obtain ⟨p0, pd, pu, pf, pb, hpn, hlog⟩ := hb.log
  -- all entries are in the synced part
  have hlen := congrArg List.length hlog.parts
  rw [hpn] at hlen
  simp only [List.length_append] at hlen
  obtain rfl : pu = [] := List.length_eq_zero_iff.mp (by omega)
  obtain rfl : pf = [] := List.length_eq_zero_iff.mp (by omega)
  obtain rfl : pb = [] := List.length_eq_zero_iff.mp (by omega)
  have hcut : h.holder.cuts = false := by
    rw [hst]
    rfl
  have hnow := hlog.now.eq_of_length_le (by
    have := hlog.now_le.length_le
    rwa [List.append_nil (pd ++ []), List.append_nil (pd ++ [])] at this)
  refine hb.keep rfl rfl rfl rfl rfl List.prefix_rfl
    ⟨p0, pd, [], [], [], hpn, hlog.keep hcut rfl rfl rfl rfl ⟨⟨hpast, ?_⟩, rfl, rfl, ?_⟩⟩ hover
  · rw [← hnow]
    exact hlog.cursor.symm
  · exact hbuffer

omit [Zero Hash] in
/-- A step of a checkpoint from the header to the metadata: the log stays. -/
theorem Backed.quiet {snap : CheckpointSnap Hash} (hb : Backed W H disk h ps pc pn)
    (hsnap : h.holder.snap = some snap) (holder : Holder Hash) (hsnap' : holder.snap = some snap) :
    ∃ p0 pd pu pf pb, pn = p0 ++ pd ∧
      LogPart W disk.wal { h with holder := holder } pc ps p0 pd pu pf pb := by
  have hshape : ∀ {holder : Holder Hash}, holder.snap = some snap → holder.cuts = false ∧
      ∀ {buffer k pu pf pb}, Pending W disk.wal h.cursor buffer k pu pf pb holder ↔
        ((disk.wal.past = [] ∧ disk.wal.now.length = h.cursor) ∧ pu = [] ∧ pf = [] ∧
          buffer = framesFrom W k pb) := by
    intro holder hh
    cases holder with
    | checkpoint background stage =>
        cases stage with
        | flush => cases hh
        | truncate => cases hh
        | tail => cases hh
        | _ => exact ⟨rfl, Iff.rfl⟩
    | _ => cases hh
  obtain ⟨p0, pd, pu, pf, pb, hpn, hlog⟩ := hb.log
  exact ⟨p0, pd, pu, pf, pb, hpn, hlog.keep (hshape hsnap).1 rfl (hshape hsnap').1 rfl rfl
    ((hshape hsnap').2.mpr ((hshape hsnap).2.mp hlog.pending))⟩

omit [Zero Hash] in
/-- The header is there before the first chunk is written. -/
theorem Backed.header (hW : W.Lawful) {background : Bool} {snap : CheckpointSnap Hash}
    (hb : Backed W H disk h ps pc pn) (hst : h.holder = .checkpoint background (.header snap))
    (ws : List (ShardWrite Hash)) :
    ∃ file, writeHeader W N MAX_DEPTH = .ok file ∧
      Backed W H { disk with dataDir := true, headerFile := some file }
        { h with holder := .checkpoint background (.write snap ws) } ps pc pn := by
  obtain ⟨file, hfile, hread⟩ := readHeader_writeHeader hW N MAX_DEPTH
  have hvalid : HeaderValid W N MAX_DEPTH
      { disk with dataDir := true, headerFile := some file } := ⟨_, hread, rfl, rfl, rfl⟩
  have hstage := hb.stage
  rw [hst] at hstage
  refine ⟨file, hfile, hb.entries, hb.next, hb.quiet (by rw [hst]; rfl) _ rfl, ?_, hb.files, hstage,
    hvalid, rfl⟩
  cases hb.checkpoint with
  | none h => exact .none h
  | some hne hd hh rootHash hm hroot => exact .some hne rfl hvalid rootHash hm hroot

/-- **A chunk is written.** -/
theorem Backed.write {background : Bool} {snap : CheckpointSnap Hash} {w : ShardWrite Hash}
    {ws : List (ShardWrite Hash)} (hs : Steady P W H MAX_DEPTH disk h (leavesOf ps) m)
    (hb : Backed W H disk h ps pc pn)
    (hst : h.holder = .checkpoint background (.write snap (w :: ws))) :
    Backed W H { disk with shards := disk.shards.write w }
      { h with holder := .checkpoint background (.write snap ws) } ps pc pn := by
  have hstage := hb.stage
  have htree := hs.tree.stage
  rw [hst] at hstage htree
  obtain ⟨hover, hheader, hdir⟩ := hstage
  have hw := htree.2.ok w (by simp)
  rw [hover.1, leavesOf_take hb.safe] at hw
  exact ⟨hb.entries, hb.next, hb.quiet (by rw [hst]; rfl) _ rfl,
    hb.checkpoint.of_eq rfl rfl rfl, hb.files.write hb.reach List.prefix_rfl hw, hover, hheader, hdir⟩

omit [Zero Hash] in
/-- A file is synced. -/
theorem Backed.sync {background : Bool} {snap : CheckpointSnap Hash} {f : ℕ × ℕ}
    {fl : List (ℕ × ℕ)} (hb : Backed W H disk h ps pc pn)
    (hst : h.holder = .checkpoint background (.sync snap (f :: fl))) :
    Backed W H { disk with shards := disk.shards.sync f }
      { h with holder := .checkpoint background (.sync snap fl) } ps pc pn := by
  have hstage := hb.stage
  rw [hst] at hstage
  exact ⟨hb.entries, hb.next, hb.quiet (by rw [hst]; rfl) _ rfl, hb.checkpoint.of_eq rfl rfl rfl,
    hb.files.sync f, hstage⟩

/-- **The metadata is switched.**  All files are synced, and hold the tree over `pn`. -/
theorem Backed.switch (hW : W.Lawful) (hN : 2 ≤ N) {background : Bool} {snap : CheckpointSnap Hash}
    (hs : Steady P W H MAX_DEPTH disk h (leavesOf ps) m) (hb : Backed W H disk h ps pc pn)
    (hst : h.holder = .checkpoint background (.sync snap [])) :
    ∃ file, writeMeta W N MAX_DEPTH snap.lastSeq snap.leafCount snap.depth snap.rootHash =
        .ok file ∧
      Backed W H { disk with metaFile := some file }
        { h with holder := .checkpoint background (.remap snap) } ps pn pn := by
  have hstage := hb.stage
  rw [hst] at hstage
  obtain ⟨⟨hcount, hlast⟩, hheader, hdir⟩ := hstage
  obtain ⟨file, hfile, hread, htree⟩ := hs.tree.switch hW hst hs.size
    (hs.snap snap (by rw [hst]; rfl)).2.2
  obtain ⟨hsnap, hsync⟩ := htree.stage
  rw [hcount] at hsync
  have hsafe := hb.safe
  have hne : pn ≠ [] := by
    rintro rfl
    have := hsnap.pos
    rw [hcount] at this
    simp [leavesOf] at this
  have hdepth : snap.depth % U32_SIZE = snap.depth := by
    apply Nat.mod_eq_of_lt
    have hle : snap.leafCount ≤ 2 ^ 64 := (hsnap.size.trans_lt hs.size).le
    calc snap.depth = Nat.clog N snap.leafCount := hsnap.depth
      _ ≤ Nat.clog 2 snap.leafCount := Nat.clog_anti_left (by omega) hN
      _ ≤ 64 := (Nat.clog_le_iff_le_pow (by omega)).mpr hle
      _ < U32_SIZE := by decide
  have hroot := hsnap.root
  rw [hcount, leavesOf_take hsafe] at hroot
  refine ⟨file, hfile, hb.entries, hb.next, ?_, ?_, ?_, rfl⟩
  · obtain ⟨p0, pd, pu, pf, pb, hpn, hlog⟩ :=
      hb.quiet (by rw [hst]; rfl) (.checkpoint background (.remap snap)) rfl
    refine ⟨p0, pd, pu, pf, pb, hpn, hlog.parts, ?_, hpn ▸ List.prefix_rfl, hlog.now, hlog.cursor,
      hlog.flushed, hlog.pending, hlog.between, by rintro ⟨⟩⟩
    rw [hpn]
    exact List.prefix_append _ _
  · refine .some hne hdir hheader snap.rootHash ?_ hroot
    dsimp only
    rw [hread, hdepth, metaOf, hsnap.depth, hcount, ← hlast, Nat.add_sub_cancel]
  · refine hsync.between hN (hsnap.base.trans_eq hcount) hsafe ?_
    rw [← hcount]
    exact (hs.snap snap (by rw [hst]; rfl)).2.1

omit [Zero Hash] in
/-- The log is cut. -/
theorem Backed.cut {background : Bool} {snap : CheckpointSnap Hash}
    (hb : Backed W H disk h ps pc pn) (hst : h.holder = .checkpoint background (.remap snap))
    (hbuffer : h'.buffer = h.buffer) (hflushed : h'.flushed = h.flushed)
    (hnext : h'.nextSeq = h.nextSeq) (hcursor : h'.cursor = (headerBytes W N MAX_DEPTH).length)
    (hholder : h'.holder = .checkpoint background .truncate) :
    Backed W H { disk with wal :=
      (disk.wal.write 0 (headerBytes W N MAX_DEPTH)).setLen (headerBytes W N MAX_DEPTH).length }
      h' ps pc pn := by
  have hstage := hb.stage
  rw [hst] at hstage
  obtain ⟨p0, pd, pu, pf, pb, rfl, hlog⟩ := hb.log
  refine hb.keep rfl rfl rfl rfl hnext List.prefix_rfl ⟨p0 ++ pd, [], [], [], pb, by simp,
    hlog.truncate hst hstage hbuffer hflushed hcursor hholder⟩ ?_
  rw [hholder]
  trivial

omit [Zero Hash] in
/-- The log is not cut. -/
theorem Backed.uncut {background : Bool} {snap : CheckpointSnap Hash}
    (hb : Backed W H disk h ps pc pn) (hst : h.holder = .checkpoint background (.remap snap))
    (hbuffer : h'.buffer = h.buffer) (hflushed : h'.flushed = h.flushed)
    (hnext : h'.nextSeq = h.nextSeq) (hcursor : h'.cursor = h.cursor)
    (hholder : h'.holder = .free) : Backed W H disk h' ps pc pn := by
  obtain ⟨p0, pd, pu, pf, pb, hpn, hlog⟩ := hb.log
  have hpending := hlog.pending
  rw [hst] at hpending
  obtain ⟨-, rfl, rfl, hb'⟩ := hpending
  refine hb.keep rfl rfl rfl rfl hnext List.prefix_rfl ⟨p0, pd, [], [], pb, hpn,
    hlog.keep (by rw [hst]; rfl) rfl (by rw [hholder]; rfl) hcursor hflushed ?_⟩ ?_
  · rw [hholder, hbuffer]
    exact ⟨rfl, hb'⟩
  · rw [hholder]
    trivial

omit [Zero Hash] in
/-- The cut log is synced. -/
theorem Backed.truncated {background : Bool} (hb : Backed W H disk h ps pc pn)
    (hst : h.holder = .checkpoint background .truncate) :
    ∃ p0 pd pb, pn = p0 ++ pd ∧ h.buffer = framesFrom W (p0 ++ pd).length pb ∧
      LogPart W disk.wal.sync { h with holder := .free } pc ps p0 pd [] [] pb := by
  obtain ⟨p0, pd, pu, pf, pb, rfl, hlog⟩ := hb.log
  obtain ⟨hbuffer, hlog'⟩ := hlog.truncated hst
  exact ⟨p0, pd, pb, rfl, hbuffer, hlog'⟩

omit [Zero Hash] in
/-- What a checkpoint wrote last is still in the buffer. -/
theorem Backed.tail {background : Bool} (hb : Backed W H disk h ps pc pn)
    (hst : h.holder = .checkpoint background .tail) : h.buffer ≠ [] := by
  obtain ⟨p0, pd, pu, pf, pb, -, hlog⟩ := hb.log
  have hpending := hlog.pending
  rw [hst] at hpending
  exact hpending.2.2.1

/-- **A checkpoint goes on.** -/
theorem Backed.checkpointStep (hW : W.Lawful) (hN : 2 ≤ N) (hD : 1 ≤ MAX_DEPTH)
    (hs : Steady P W H MAX_DEPTH disk h (leavesOf ps) m) (hb : Backed W H disk h ps pc pn)
    {background : Bool} {stage : CheckpointStage Hash}
    (hst : h.holder = .checkpoint background stage) {a : Action Hash}
    (ha : World.Tolerates W ⟨disk, some h⟩ a) (hfinds : h.Finds P MAX_DEPTH m a)
    {w' : World Hash N MAX_DEPTH}
    (hstep : World.checkpointStep W ⟨disk, some h⟩ h background stage a = some w') :
    ∃ h' pc' pn', w'.handle = some h' ∧ pn <+: pn' ∧ Backed W H w'.disk h' ps pc' pn' := by
  cases stage with
  | flush =>
      cases a with
      | checkpointCapture ok =>
          obtain ⟨hsynced, hok⟩ := ha h background rfl hst
          obtain ⟨flushed, hsync, hb'⟩ := hb.lockedSync hst (.inl rfl) hsynced hok
          simp only [World.checkpointStep] at hstep
          rw [hsync] at hstep
          dsimp only at hstep
          split_ifs at hstep with hsize
          · cases hstep
            exact ⟨_, pc, ps, rfl, hb.safe, hb'⟩
          · have hne : leavesOf ps ≠ [] := by
              intro h0
              exact hsize (hs.tree.refines.size.trans (by rw [h0]; rfl))
            obtain ⟨snap, hcap, hcount, hlast, -⟩ := hs.tree.captured hN hD background
              (Holder.metaCount_of_idle (by rw [hst]; rfl) m) hne disk.wal.sync flushed []
            rw [hcap] at hstep
            cases hstep
            refine ⟨_, pc, ps, rfl, hb.safe, hb'.captured rfl rfl rfl ⟨hcount, ?_⟩⟩
            have hpos : 0 < ps.length := List.length_pos_iff.mpr fun h0 => hne (by rw [h0]; rfl)
            rw [hlast, hb.next]
            omega
      | _ => cases hstep
  | header snap =>
      cases a with
      | checkpointHeader =>
          obtain ⟨file, hfile, hb'⟩ := hb.header hW hst snap.writes
          simp only [World.checkpointStep] at hstep
          rw [hfile] at hstep
          cases hstep
          exact ⟨_, pc, pn, rfl, List.prefix_rfl, hb'⟩
      | _ => cases hstep
  | write snap ws =>
      cases ws with
      | nil =>
          cases a with
          | checkpointSync =>
              cases hstep
              have hstage := hb.stage
              rw [hst] at hstage
              exact ⟨_, pc, pn, rfl, List.prefix_rfl, hb.keep rfl rfl rfl rfl rfl List.prefix_rfl
                (hb.quiet (by rw [hst]; rfl) _ rfl) hstage⟩
          | _ => cases hstep
      | cons c ws =>
          cases a with
          | checkpointWrite =>
              cases hstep
              exact ⟨_, pc, pn, rfl, List.prefix_rfl, hb.write hs hst⟩
          | _ => cases hstep
  | sync snap fl =>
      cases fl with
      | nil =>
          cases a with
          | checkpointSync =>
              obtain ⟨file, hfile, hb'⟩ := hb.switch hW hN hs hst
              simp only [World.checkpointStep] at hstep
              rw [hfile] at hstep
              cases hstep
              exact ⟨_, pn, pn, rfl, List.prefix_rfl, hb'⟩
          | _ => cases hstep
      | cons f fl =>
          cases a with
          | checkpointSync =>
              cases hstep
              exact ⟨_, pc, pn, rfl, List.prefix_rfl, hb.sync hst⟩
          | _ => cases hstep
  | remap snap =>
      cases a with
      | checkpointRemap res =>
          obtain ⟨inner', chunks', hremap, -, -⟩ := hs.tree.remap hN hD hst hs.pin
            (hs.snap snap (by rw [hst]; rfl)).2.1 (hfinds background snap hst)
          simp only [World.checkpointStep] at hstep
          rw [hremap] at hstep
          dsimp only at hstep
          rw [serializeHeader_eq hW] at hstep
          cases hstep
          obtain rfl | rfl : res = .cuts ∨ res = .seekFails := ha
          · exact ⟨_, pc, pn, rfl, List.prefix_rfl, hb.cut hst rfl rfl rfl rfl rfl⟩
          · exact ⟨_, pc, pn, rfl, List.prefix_rfl, hb.uncut hst rfl rfl rfl rfl rfl⟩
      | _ => cases hstep
  | truncate =>
      cases a with
      | checkpointTruncated ok res =>
          obtain ⟨rfl, hres⟩ := ha
          obtain ⟨p0, pd, pb, hpn, hbuffer, hlog⟩ := hb.truncated hst
          simp only [World.checkpointStep] at hstep
          rw [if_pos trivial] at hstep
          split_ifs at hstep with hempty
          · cases hstep
            refine ⟨_, pc, pn, rfl, List.prefix_rfl, hb.keep rfl rfl rfl rfl rfl List.prefix_rfl
              ⟨p0, pd, [], [], pb, hpn, hlog.keep rfl rfl rfl rfl rfl hlog.pending⟩ trivial⟩
          · cases hstep
            exact ⟨_, pc, pn, rfl, List.prefix_rfl,
              hb.lockedWrite hpn { h with holder := .free } rfl hlog rfl hbuffer
                (.inr ⟨rfl, fun h0 => hempty (List.isEmpty_iff.mpr h0)⟩) (hres h rfl)⟩
      | _ => cases hstep
  | tail =>
      cases a with
      | checkpointFinish ok =>
          obtain rfl : ok = true := ha
          have hne := hb.tail hst
          obtain ⟨flushed, hsync, hb'⟩ := hb.lockedSync hst (.inr ⟨rfl, hne⟩)
            (fun h0 => absurd h0 hne) (fun _ => rfl)
          simp only [World.checkpointStep] at hstep
          rw [hsync] at hstep
          cases hstep
          refine ⟨_, pc, ps, rfl, hb.safe, hb'.keep rfl rfl rfl rfl rfl List.prefix_rfl ?_ trivial⟩
          obtain ⟨p0, pd, pu, pf, pb, hpn, hlog⟩ := hb'.log
          exact ⟨p0, pd, pu, pf, pb, hpn, hlog.keep rfl rfl rfl rfl rfl hlog.pending⟩
      | _ => cases hstep

/-- **One step** of an open tree. -/
theorem Backed.step (hW : W.Lawful) (hH : H.Lawful) (hN : 2 ≤ N)
    (hD : 1 ≤ MAX_DEPTH) (hs : Steady P W H MAX_DEPTH disk h (leavesOf ps) m)
    (hb : Backed W H disk h ps pc pn) {a : Action Hash} {w' : World Hash N MAX_DEPTH}
    (hcrash : ∀ wal shards, a ≠ .crash wal shards) (ha : World.Tolerates W ⟨disk, some h⟩ a)
    (hfinds : h.Finds P MAX_DEPTH m a)
    (hstep : World.handleStep W H ⟨disk, some h⟩ h a = some w') :
    ∃ h' pc' pn', w'.handle = some h' ∧ pn <+: pn' ∧
      Backed W H w'.disk h' (ps ++ World.logged W H ⟨disk, some h⟩ a) pc' pn' := by
  have hstay : ∀ {b : Action Hash},
      World.logged W H (⟨disk, some h⟩ : World Hash N MAX_DEPTH) b = [] → ∀ {w'},
      some (⟨disk, some h⟩ : World Hash N MAX_DEPTH) = some w' →
      ∃ h' pc' pn', w'.handle = some h' ∧ pn <+: pn' ∧
        Backed W H w'.disk h' (ps ++ World.logged W H ⟨disk, some h⟩ b) pc' pn' := by
    intro b hb' w' hw
    cases hw
    rw [hb', List.append_nil]
    exact ⟨h, pc, pn, rfl, List.prefix_rfl, hb⟩
  have hcheckpoint : a.Advances →
      World.logged W H (⟨disk, some h⟩ : World Hash N MAX_DEPTH) a = [] →
      ∃ h' pc' pn', w'.handle = some h' ∧ pn <+: pn' ∧
        Backed W H w'.disk h' (ps ++ World.logged W H ⟨disk, some h⟩ a) pc' pn' := by
    intro hadv hnone
    obtain ⟨background, stage, hst, hgo⟩ := hadv.step hstep
    rw [hnone, List.append_nil]
    exact hb.checkpointStep hW hN hD hs hst ha hfinds hgo
  cases a with
  | call c admitted =>
      simp only [World.handleStep] at hstep
      by_cases hlock : h.holder.locksState = true
      · rw [if_pos hlock] at hstep
        cases hstep
      · rw [if_neg hlock] at hstep
        by_cases hadm : h.admits admitted = true
        · rw [if_pos hadm] at hstep
          cases hstep
          simp only [World.logged, if_neg hlock, if_pos hadm]
          exact ⟨_, pc, pn, rfl, List.prefix_rfl,
            hb.call hH hN hD hs (Bool.eq_false_iff.mpr hlock) (ha h rfl)⟩
        · rw [if_neg hadm] at hstep
          exact hstay (by simp only [World.logged, if_neg hlock, if_neg hadm]) hstep
  | flush admitted =>
      simp only [World.handleStep] at hstep
      split at hstep
      · split_ifs at hstep
        · cases hstep
          simp only [World.logged, List.append_nil]
          exact ⟨_, pc, pn, rfl, List.prefix_rfl, hb.flushTake ‹_›⟩
        · exact hstay rfl hstep
      · cases hstep
  | flushWrite res =>
      simp only [World.handleStep] at hstep
      split at hstep
      · cases hstep
        simp only [World.logged, List.append_nil]
        exact ⟨_, pc, pn, rfl, List.prefix_rfl, hb.flushWrite ‹_› ha⟩
      · cases hstep
  | flushSync ok =>
      simp only [World.handleStep] at hstep
      split at hstep
      · cases hstep
        simp only [World.logged, List.append_nil]
        obtain ⟨pn', hpn, hb'⟩ := hb.flushSync ‹_› ok
        exact ⟨_, pc, pn', rfl, hpn, hb'⟩
      · cases hstep
  | checkpoint background admitted res =>
      simp only [World.handleStep] at hstep
      split at hstep
      · rename_i hst
        split_ifs at hstep
        · cases hstep
          simp only [World.logged, List.append_nil]
          obtain ⟨p0, pd, pu, pf, pb, hpn, hlog⟩ := hb.log
          have hpending := hlog.pending
          rw [hst] at hpending
          obtain ⟨rfl, hbuffer⟩ := hpending
          exact ⟨_, pc, pn, rfl, List.prefix_rfl, hb.lockedWrite hpn h rfl hlog (by rw [hst]; rfl)
            hbuffer (.inl rfl) (ha h rfl)⟩
        · exact hstay rfl hstep
      · cases hstep
  | close =>
      cases hstep
      simp only [World.logged, List.append_nil]
      obtain ⟨p0, pd, pu, pf, pb, hpn, hlog⟩ := hb.log
      exact ⟨_, pc, pn, rfl, List.prefix_rfl, hb.keep rfl rfl rfl rfl rfl List.prefix_rfl
        ⟨p0, pd, pu, pf, pb, hpn, ⟨hlog.parts, hlog.start, hlog.reach, hlog.now, hlog.cursor,
          hlog.flushed, hlog.pending, hlog.between, hlog.cut⟩⟩ hb.stage⟩
  | crash wal shards => exact absurd rfl (hcrash wal shards)
  | reopen _ _ _ => cases hstep
  | checkpointCapture ok => exact hcheckpoint (.capture ok) rfl
  | checkpointHeader => exact hcheckpoint .header rfl
  | checkpointWrite => exact hcheckpoint .write rfl
  | checkpointSync => exact hcheckpoint .sync rfl
  | checkpointRemap res => exact hcheckpoint (.remap res) rfl
  | checkpointTruncated ok res => exact hcheckpoint (.truncated ok res) rfl
  | checkpointFinish ok => exact hcheckpoint (.finish ok) rfl

/-! ### Crashes -/

/-- The leaf count of the checkpoint on disk. -/
theorem Backed.last (hs : Steady P W H MAX_DEPTH disk h (leavesOf ps) m)
    (hb : Backed W H disk h ps pc pn) : P (leavesOf pc).length := by
  have hcount := hs.tree.onDisk
  rw [hb.checkpoint.lastCheckpoint] at hcount
  rw [hcount]
  have hsnap := hs.snap
  revert hsnap
  generalize h.holder = holder
  intro hsnap
  cases holder with
  | checkpoint background stage =>
      cases stage with
      | remap snap => exact (hsnap snap rfl).1
      | _ => exact hs.last
  | _ => exact hs.last

/-- The chunks that the checkpoint on disk counts. -/
theorem Backed.counted (hN : 2 ≤ N) (hs : Steady P W H MAX_DEPTH disk h (leavesOf ps) m)
    (hb : Backed W H disk h ps pc pn) : FilesCounted H N MAX_DEPTH disk.shards pc := by
  have hcount := hs.tree.onDisk
  rw [hb.checkpoint.lastCheckpoint] at hcount
  have hidle : metaCount m h.holder = m → FilesCounted H N MAX_DEPTH disk.shards pc := by
    intro hm k hk p hp
    have hfile := hs.tree.counted k hk hk p (by rw [← hm, ← hcount]; exact hp)
    rwa [← hm, ← hcount, leavesOf_take (hb.reach.trans hb.safe)] at hfile
  cases hholder : h.holder with
  | checkpoint background stage =>
      cases stage with
      | remap snap =>
          -- the metadata has just been switched to
          have hstage := hb.stage
          rw [hholder] at hstage
          obtain rfl : pc = pn := hstage
          exact hb.files.counted hN
      | _ => exact hidle (by rw [hholder]; rfl)
  | _ => exact hidle (by rw [hholder]; rfl)

/-- **A crash** leaves a beginning of the entries, with all that are safe. -/
theorem Backed.crash (hN : 2 ≤ N) (hs : Steady P W H MAX_DEPTH disk h (leavesOf ps) m)
    (hb : Backed W H disk h ps pc pn) {wal : List UInt8}
    (hwal : Remains W N MAX_DEPTH pc pn ps wal) {shards : ℕ → ℕ → Option (List Hash)}
    (hshards : disk.shards.Survive shards) :
    ∃ qs, pn <+: qs ∧ qs <+: ps ∧ ClosedDisk P W H N MAX_DEPTH
      { disk with wal := .synced wal, shards := fun k s => (shards k s).map .synced } qs := by
  have hlast := hb.last hs
  have hcounted := hb.counted hN hs
  obtain ⟨q0, ql, v, hstart, hlo, hhi, hv, rfl⟩ := hwal
  exact ⟨q0 ++ ql, hlo, hhi, hb.entries.of_prefix hhi, ⟨pc, q0, ql, v, rfl, hstart,
    hb.reach.trans hlo, hv, List.append_assoc _ _ _, hb.checkpoint.of_eq rfl rfl rfl,
    (hb.files.mono hlo).survives hshards, hcounted.survives hshards, hlast⟩, rfl⟩

omit [Zero Hash] in
theorem Backed.remains (hb : Backed W H disk h ps pc pn) {s : List UInt8}
    (hs : disk.wal.Survives s) (hshow : EntriesShow W N MAX_DEPTH disk.wal s) :
    Remains W N MAX_DEPTH pc pn ps s := by
  obtain ⟨p0, pd, pu, pf, pb, rfl, hlog⟩ := hb.log
  exact hlog.remains hb.entries.fit hs hshow

omit [Zero Hash] in
/-- The tree that `open` makes of what it recovered. -/
def RecoveryResult.opened (r : RecoveryResult Hash N MAX_DEPTH) (checkpointedChunks : List ℕ)
    (pinAboveLevel : ℕ) : Shared Hash N MAX_DEPTH where
  inner := r.inner
  buffer := []
  nextSeq := r.nextSeq
  checkpointedChunks := checkpointedChunks
  cursor := r.cursor
  snapshot := r.inner.snapshot
  flushed := if 0 < r.nextSeq then some (r.nextSeq - 1) else none
  closed := false
  bgError := none
  pinAboveLevel := pinAboveLevel
  holder := .free

variable [DecidableEq Hash]

/-- Nothing is running, and the log is synced. -/
def AtRest (wal : CrashFile UInt8) (h : Shared Hash N MAX_DEPTH) : Prop :=
  h.holder = .free ∧ wal.past = [] ∧ wal.now.length = h.cursor

/-- **`open`** after a crash goes on with what is left. -/
theorem ClosedDisk.open (hW : W.Lawful) (hH : H.Lawful) (hN : 2 ≤ N) (hD : 1 ≤ MAX_DEPTH)
    (hc : ClosedDisk P W H N MAX_DEPTH disk ps) (pinAboveLevel : ℕ) (verify : Bool)
    (par : ℕ → ℕ → Bool) :
    ∃ (t : Shared Hash N MAX_DEPTH) (disk' : Disk Hash) (pc : List (WalPayload Hash)) (m : ℕ),
      openTree W H pinAboveLevel verify par disk = .ok (t, disk') ∧
      Steady P W H MAX_DEPTH disk' t (leavesOf ps) m ∧ Backed W H disk' t ps pc ps ∧
      AtRest disk'.wal t := by
  obtain ⟨pc, q0, ql, v, hps, hstart, hreach, hv, hwal, hcheckpoint, hfiles, hcounted, hlast⟩ :=
    hc.data
  obtain ⟨r, hr, hreplayed⟩ := recovers_closed hW hH hN hD hc.entries hps hstart hreach hv hc.past
    hwal hcheckpoint hfiles verify par
  obtain ⟨counts, hcounts, hcount⟩ := hcheckpoint.initialFiles hN
  have htree := hreplayed.tree
  rw [replayed_behind hps hstart hreach] at htree
  have hnext := hreplayed.nextSeq
  rw [nextOf_behind hps hstart hreach] at hnext
  refine ⟨r.opened counts pinAboveLevel, { disk with wal := r.wal }, pc, (leavesOf pc).length, ?_,
    ?_, ?_, rfl, hreplayed.past, hreplayed.cursor.symm⟩
  · unfold openTree
    dsimp only
    split_ifs at hr ⊢
    · rw [hr, Outcome.ok_bind, hcounts, Outcome.ok_bind]
      rfl
    · rw [hr, Outcome.ok_bind, hcounts, Outcome.ok_bind]
      rfl
  · refine ⟨⟨htree.done rfl, htree.home, length_leavesOf_le hreach, hcount, ?_,
      (hcheckpoint.of_eq rfl rfl rfl).lastCheckpoint, trivial⟩, min_le_left _ _, ?_,
      hc.entries.length_lt, hlast, by rintro snap ⟨⟩⟩
    · intro k hk _ p hp
      rw [leavesOf_take hreach]
      exact hcounted k hk p hp
    · show r.nextSeq < U64_SIZE
      rw [hnext]
      exact hc.entries.seqs
  · refine ⟨hc.entries, hnext, ⟨q0, ql, [], [], [], hps, .of_synced hps hstart hreach hreplayed.now
      hreplayed.past hreplayed.cursor ?_ rfl rfl⟩, hcheckpoint.of_eq rfl rfl rfl, hfiles, trivial⟩
    intro f hf
    change (if 0 < r.nextSeq then some (r.nextSeq - 1) else none) = some f at hf
    rw [hnext] at hf
    split_ifs at hf with hpos
    cases hf
    omega

omit [Zero Hash] [DecidableEq Hash] in
/-- The log of an empty directory that was opened. -/
theorem now_opened : ((CrashFile.synced []).write 0 (headerBytes W N MAX_DEPTH)).sync.now =
    headerBytes W N MAX_DEPTH := by
  have hw : ((CrashFile.synced []).write 0 (headerBytes W N MAX_DEPTH)).now =
      (CrashFile.synced []).now ++ headerBytes W N MAX_DEPTH := write_end rfl _
  rwa [CrashFile.now_synced, List.nil_append] at hw

omit [Zero Hash] [DecidableEq Hash] in
theorem opened_rest (pinAboveLevel : ℕ) :
    AtRest ((CrashFile.synced []).write 0 (headerBytes W N MAX_DEPTH)).sync
      (opened W N MAX_DEPTH pinAboveLevel) :=
  ⟨rfl, rfl, congrArg List.length now_opened⟩

omit [Zero Hash] [DecidableEq Hash] in
/-- The tree that `open` returns on an empty directory. -/
theorem opened_backed (hN : 2 ≤ N) (pinAboveLevel : ℕ) :
    Backed W H { (World.empty : World Hash N MAX_DEPTH).disk with
        wal := ((CrashFile.synced []).write 0 (headerBytes W N MAX_DEPTH)).sync }
      (opened W N MAX_DEPTH pinAboveLevel) [] [] [] where
  entries := ⟨trivial, by simp, Nat.two_pow_pos 64, .inl rfl⟩
  next := rfl
  log := ⟨[], [], [], [], [], rfl, .of_synced rfl List.prefix_rfl List.prefix_rfl
    (now_opened.trans logBytes_nil.symm) rfl (congrArg List.length now_opened).symm
    (by rintro f ⟨⟩) rfl rfl⟩
  checkpoint := .none rfl
  files := filesBetween_nil hN []
  stage := trivial

end Steps

/-! ### Every run -/

section Run

variable [Zero Hash] [DecidableEq Hash] {W : Wire Hash} {H : Hasher Hash}
variable {ps : List (WalPayload Hash)} {k : ℕ} {w : World Hash N MAX_DEPTH}
variable {Q : World Hash N MAX_DEPTH → Action Hash → Prop} {P : ℕ → Prop}
variable {C : CrashFile UInt8 → Shared Hash N MAX_DEPTH → Prop}

/-- What the runs keep, with `C` of the log. -/
inductive Sound (P : ℕ → Prop) (C : CrashFile UInt8 → Shared Hash N MAX_DEPTH → Prop)
    (W : Wire Hash) (H : Hasher Hash) :
    List (WalPayload Hash) → ℕ → World Hash N MAX_DEPTH → Prop where
  | new : Sound P C W H [] 0 World.empty
  | opened {ps pc pn : List (WalPayload Hash)} {k m : ℕ} {disk : Disk Hash}
      {h : Shared Hash N MAX_DEPTH} (hs : Steady P W H MAX_DEPTH disk h (leavesOf ps) m)
      (hb : Backed W H disk h ps pc pn) (hc : C disk.wal h) (hk : k ≤ pn.length) :
      Sound P C W H ps k ⟨disk, some h⟩
  | crashed {ps qs : List (WalPayload Hash)} {k : ℕ} {disk : Disk Hash} (hqs : qs <+: ps)
      (hk : k ≤ qs.length) (hc : ClosedDisk P W H N MAX_DEPTH disk qs) :
      Sound P C W H ps k ⟨disk, none⟩

/-- Steps with `Q` keep `C` of the log, nothing is lost by them, and they find the chunks that they
count. -/
structure SafeSteps (P : ℕ → Prop) (C : CrashFile UInt8 → Shared Hash N MAX_DEPTH → Prop)
    (W : Wire Hash) (H : Hasher Hash) (Q : World Hash N MAX_DEPTH → Action Hash → Prop) : Prop where
  rest : ∀ {wal h}, AtRest wal h → C wal h
  step : ∀ {disk h a w' h'}, C disk.wal h → Q ⟨disk, some h⟩ a →
    World.handleStep W H ⟨disk, some h⟩ h a = some w' → w'.handle = some h' → C w'.disk.wal h'
  tolerates : ∀ {disk h a}, C disk.wal h → Q ⟨disk, some h⟩ a → World.Tolerates W ⟨disk, some h⟩ a
  finds : ∀ {disk h ps m a}, Steady P W H MAX_DEPTH disk h (leavesOf ps) m →
    Q ⟨disk, some h⟩ a → h.Finds P MAX_DEPTH m a
  crash : ∀ {disk h ps pc pn wal shards}, C disk.wal h → Backed W H disk h ps pc pn →
    Q ⟨disk, some h⟩ (.crash wal shards) →
    Remains W N MAX_DEPTH pc pn ps wal ∧ disk.shards.Survive shards

omit [DecidableEq Hash] in
/-- Steps in which all operations succeed. -/
theorem safeSteps_of_succeeds (hsucceeds : ∀ {w a}, Q w a → w.SucceedsAll W a)
    (hfinds : ∀ {disk h ps m a}, Steady P W H MAX_DEPTH disk h (leavesOf ps) m →
      Q ⟨disk, some h⟩ a → h.Finds P MAX_DEPTH m a) : SafeSteps P Calm W H Q where
  rest := by
    rintro wal h ⟨hst, hpast, hlen⟩
    refine ⟨hlen, ?_⟩
    rw [hst]
    exact hpast
  step := fun hc ha hstep hh' => hc.step (hsucceeds ha) hstep hh'
  tolerates := fun hc ha => hc.tolerates (hsucceeds ha)
  finds := hfinds
  crash := by
    intro disk h ps pc pn wal shards hc hb ha
    obtain ⟨hwal, htears, hshards⟩ := hsucceeds ha
    obtain ⟨p0, pd, pu, pf, pb, rfl, hlog⟩ := hb.log
    exact ⟨hc.remains hlog hb.entries.fit hwal htears, hshards⟩

omit [DecidableEq Hash] in
/-- The leaves that a call adds are those of its entry. -/
theorem accepted_logged (hH : H.Lawful) (hN : 2 ≤ N) (hD : 1 ≤ MAX_DEPTH) {disk : Disk Hash}
    {h : Shared Hash N MAX_DEPTH} {m : ℕ} (hs : Steady P W H MAX_DEPTH disk h (leavesOf ps) m)
    {a : Action Hash} (ha : World.Tolerates W ⟨disk, some h⟩ a) :
    acceptedOn N MAX_DEPTH (leavesOf ps) (World.entered ⟨disk, some h⟩ a) =
      leavesOf (ps ++ World.logged W H ⟨disk, some h⟩ a) := by
  rw [leavesOf_append]
  cases a with
  | call c admitted =>
      simp only [World.entered, World.logged]
      split_ifs
      · simp [acceptedOn, leavesOf]
      · have hc := ha h rfl
        rw [hs.tree.refines.size] at hc
        rw [show acceptedOn N MAX_DEPTH (leavesOf ps) [c] =
          if c.TurnedDown N MAX_DEPTH (leavesOf ps).length then leavesOf ps
            else leavesOf ps ++ c.leaves from rfl]
        rcases insertCall_cases (W := W) hH hN hD hs.tree.refines c with
          ⟨hdown, e, he⟩ | ⟨hup, root, inner, -, ⟨-, -, he⟩ | ⟨hno, -⟩⟩
        · rw [he, if_pos hdown]
          exact (List.append_nil _).symm
        · rw [he, if_neg hup]
          dsimp only
          rw [leavesOf_singleton, Call.leaves_payload]
        · exact absurd (hc.resolve_left hup) hno
      · simp [acceptedOn, leavesOf]
  | _ => exact (List.append_nil _).symm

theorem CrashRun.sound (hW : W.Lawful) (hH : H.Lawful) (hN : 2 ≤ N) (hD : 1 ≤ MAX_DEPTH)
    (hzero : P 0) (hsafe : SafeSteps P C W H Q) (hr : CrashRun W H Q ps k w) :
    Sound P C W H ps k w := by
  induction hr with
  | start => exact .new
  | @step ps k w w' a _ ha hw ih =>
      cases ih with
      | new =>
          cases a with
          | reopen pinAboveLevel verify par =>
              unfold World.step at hw
              rw [show (World.empty : World Hash N MAX_DEPTH).handle = none from rfl] at hw
              dsimp only at hw
              rw [openTree_new hW H pinAboveLevel verify par] at hw
              cases hw
              exact .opened (opened_steady hzero hN pinAboveLevel rfl (min_le_left _ _))
                (opened_backed hN pinAboveLevel) (hsafe.rest (opened_rest pinAboveLevel)) (Nat.zero_le _)
          | _ => cases hw
      | @opened ps pc pn k m disk h hs hb hcalm hk =>
          by_cases hcrash : ∃ wal shards, a = .crash wal shards
          · obtain ⟨wal, shards, rfl⟩ := hcrash
            cases hw
            obtain ⟨hwal, hshards⟩ := hsafe.crash hcalm hb ha
            obtain ⟨qs, h1, h2, hc⟩ := hb.crash hN hs hwal hshards
            refine .crashed ?_ ?_ hc
            · show qs <+: ps ++ []
              rw [List.append_nil]
              exact h2
            · show max k 0 ≤ qs.length
              rw [Nat.max_zero]
              exact hk.trans h1.length_le
          · push Not at hcrash
            have htol := hsafe.tolerates hcalm ha
            have hfinds := hsafe.finds hs ha
            obtain ⟨h', m', hh', -, hs'⟩ := hs.step hW hH hN hD hcrash hfinds hw
            obtain ⟨h'', pc', pn', hh'', hpn, hb'⟩ := hb.step hW hH hN hD hs hcrash htol hfinds hw
            rw [hh', Option.some.injEq] at hh''
            subst hh''
            have hcalm' := hsafe.step hcalm ha hw hh'
            rw [accepted_logged hH hN hD hs htol] at hs'
            obtain ⟨disk', handle'⟩ := w'
            cases hh'
            have hafter : World.entriesAfter W H ps ⟨disk, some h⟩ ⟨disk', some h'⟩ a =
                ps ++ World.logged W H ⟨disk, some h⟩ a := by
              cases a with
              | reopen pinAboveLevel verify par => cases hw
              | _ => rfl
            rw [hafter]
            exact .opened hs' hb' hcalm' (max_le (hk.trans hpn.length_le) hb'.durable_le)
      | @crashed ps qs k disk hqs hk hc =>
          cases a with
          | reopen pinAboveLevel verify par =>
              obtain ⟨t, disk', pc, m, hopen, hs, hb, hrest⟩ :=
                hc.open hW hH hN hD pinAboveLevel verify par
              unfold World.step at hw
              dsimp only at hw
              rw [hopen] at hw
              cases hw
              have hps : ps.take t.nextSeq = qs := by
                rw [hb.next]
                exact (List.prefix_iff_eq_take.mp hqs).symm
              simp only [World.entriesAfter]
              rw [hps]
              exact .opened hs hb (hsafe.rest hrest) (max_le hk hb.durable_le)
          | _ => cases hw

omit [DecidableEq Hash] in
/-- The open tree of a sound state. -/
theorem Sound.tree (h : Sound P C W H ps k w) {t : Shared Hash N MAX_DEPTH} (ht : w.handle = some t) :
    Refines w.disk.shards.fs H t.inner (leavesOf ps) ∧ t.nextSeq = ps.length ∧ k ≤ ps.length := by
  cases h with
  | new => cases ht
  | opened hs hb hc hk =>
      cases ht
      exact ⟨hs.tree.refines, hb.next, hk.trans hb.safe.length_le⟩
  | crashed hqs hk hc => cases ht

/-- What `open` makes of a sound state after a crash. -/
theorem Sound.opens (hW : W.Lawful) (hH : H.Lawful) (hN : 2 ≤ N) (hD : 1 ≤ MAX_DEPTH)
    (h : Sound P C W H ps k w) (hh : w.handle = none) (pinAboveLevel : ℕ) (verify : Bool)
    (par : ℕ → ℕ → Bool) :
    ∃ (t : Shared Hash N MAX_DEPTH) (disk : Disk Hash),
      openTree W H pinAboveLevel verify par w.disk = .ok (t, disk) ∧
      k ≤ t.nextSeq ∧ t.nextSeq ≤ ps.length ∧
      Refines disk.shards.fs H t.inner (leavesOf (ps.take t.nextSeq)) := by
  cases h with
  | new =>
      refine ⟨_, _, openTree_new hW H pinAboveLevel verify par, le_rfl, le_rfl, ?_⟩
      exact refines_new hN
  | opened hs hb hc hk => cases hh
  | @crashed ps qs k disk hqs hk hc =>
      obtain ⟨t, disk', pc, m, hopen, hs, hb, -⟩ := hc.open hW hH hN hD pinAboveLevel verify par
      have hnext := hb.next
      refine ⟨t, disk', hopen, by rw [hnext]; exact hk, by rw [hnext]; exact hqs.length_le, ?_⟩
      rw [hnext, ← List.prefix_iff_eq_take.mp hqs]
      exact hs.tree.refines

/-- Where every checkpoint finds a settled leaf count. -/
theorem DurableRun.sound (hW : W.Lawful) (hH : H.Lawful) (hN : 2 ≤ N) (hD : 1 ≤ MAX_DEPTH)
    (hr : DurableRun W H ps k w) : Sound (Settled N MAX_DEPTH) Calm W H ps k w := by
  refine hr.crashRun.sound hW hH hN hD (settled_of_lt hN (by decide) _)
    (safeSteps_of_succeeds World.Smooth.succeeds ?_)
  intro disk h ps m a hs ha
  exact hs.finds (by rintro ok rfl; exact ha.2 h rfl)

/-- **The tree is the tree of its entries.**  Whatever crashes and checkpoints there were, an open
tree is the reference tree over the leaves of all its entries, and the next call gets the next
number. -/
theorem DurableRun.tree_of_entries (hW : W.Lawful) (hH : H.Lawful) (hN : 2 ≤ N) (hD : 1 ≤ MAX_DEPTH)
    (hr : DurableRun W H ps k w) {h : Shared Hash N MAX_DEPTH} (hh : w.handle = some h) :
    Refines w.disk.shards.fs H h.inner (leavesOf ps) ∧ h.nextSeq = ps.length ∧
      k ≤ ps.length :=
  (hr.sound hW hH hN hD).tree hh

/-- A crash in which the log is cut somewhere behind what is synced, and nothing else is lost. -/
theorem DurableRun.cut {disk : Disk Hash} {h : Shared Hash N MAX_DEPTH}
    (hr : DurableRun W H ps k ⟨disk, some h⟩) {n : ℕ} (hn : disk.wal.durable.length ≤ n)
    (hn' : n ≤ disk.wal.now.length) :
    DurableRun W H ps k (⟨{ disk with
      wal := .synced (disk.wal.now.take n)
      shards := fun k s => ((disk.shards k s).map (·.now)).map .synced }, none⟩ :
      World Hash N MAX_DEPTH) := by
  have hcrash := hr.step (a := .crash (disk.wal.now.take n) fun k s => (disk.shards k s).map (·.now))
    ⟨CrashFile.survives_take hn hn', tearsShow_take _ _ _, ShardFiles.survive_now _⟩ rfl
  have hk : max k 0 = k := Nat.max_zero k
  simp only [World.entriesAfter, World.logged, List.append_nil, World.durable] at hcrash
  rwa [hk] at hcrash

end Run

/-! ### A run with a torn log -/

/-- A smooth step, with fewer leaves than a chunk has. -/
def World.smoothEarly (w : World Hash32 N MAX_DEPTH) : Action Hash32 → Bool
  | .call (.insert _) _ => match w.handle with
      | some h => decide (h.nextSeq + 1 < U64_SIZE)
      | none => true
  | .call (.insertMany _ _) _ => false
  | .flushWrite res => decide (res = .writes)
  | .flushSync ok => ok
  | .checkpoint _ _ res => decide (res = .writes)
  | .checkpointCapture ok => ok && match w.handle with
      | some h => decide (h.inner.size < CHUNK_SIZE)
      | none => true
  | .checkpointRemap res => decide (res = .cuts)
  | .checkpointTruncated ok res => ok && decide (res = .writes)
  | .checkpointFinish ok => ok
  | .crash _ _ => false
  | _ => true

theorem World.smooth_of_early (hN : 2 ≤ N) {w : World Hash32 N MAX_DEPTH} {a : Action Hash32}
    (h : w.smoothEarly a = true) : w.Smooth wincode a := by
  cases a with
  | call c admitted =>
      cases c with
      | insert leaf =>
          intro s hs
          simp only [smoothEarly, hs, decide_eq_true_eq] at h
          exact .inr ⟨wincode_lawful.single _ _, h⟩
      | insertMany par leaves => cases h
  | checkpointCapture ok =>
      simp only [smoothEarly, Bool.and_eq_true] at h
      refine ⟨h.1, fun s hs => ?_⟩
      simp only [hs, decide_eq_true_eq] at h
      exact settled_of_lt hN h.2 _
  | checkpointTruncated ok res =>
      simp only [smoothEarly, Bool.and_eq_true, decide_eq_true_eq] at h
      exact h
  | flushWrite res => exact (of_decide_eq_true h : res = .writes)
  | checkpoint background admitted res => exact (of_decide_eq_true h : res = .writes)
  | checkpointRemap res => exact (of_decide_eq_true h : res = .cuts)
  | flushSync ok => exact h
  | checkpointFinish ok => exact h
  | crash wal shards => cases h
  | _ => trivial

/-- A run whose steps are checked. -/
def World.durableRun (as : List (Action Hash32)) :
    Option (List (WalPayload Hash32) × ℕ × World Hash32 N MAX_DEPTH) :=
  as.foldlM (fun s a =>
    if s.2.2.smoothEarly a then
      (World.step wincode xorHasher s.2.2 a).map fun w =>
        (World.entriesAfter wincode xorHasher s.1 s.2.2 w a, max s.2.1 w.durable, w)
    else none) ([], 0, World.empty)

theorem DurableRun.of_checked (hN : 2 ≤ N) {as : List (Action Hash32)}
    {s : List (WalPayload Hash32) × ℕ × World Hash32 N MAX_DEPTH}
    (h : World.durableRun as = some s) : DurableRun wincode xorHasher s.1 s.2.1 s.2.2 := by
  refine foldlM_invariant (P := fun s => DurableRun wincode xorHasher s.1 s.2.1 s.2.2) ?_ .start h
  rintro ⟨ps, k, w⟩ a ⟨ps', k', w'⟩ hs hstep
  split_ifs at hstep with hcheck
  obtain ⟨w'', hw, hr⟩ := Option.map_eq_some_iff.mp hstep
  cases hr
  exact hs.step (World.smooth_of_early hN hcheck) hw

/-- Three leaves: the first is in a checkpoint, the second in the synced log, the third is
written and not synced. -/
def threeLeaves : List (Action Hash32) :=
  [.reopen 64 true (fun _ _ => false), .call (.insert (testLeaf 1)) false,
    .checkpoint false false .writes, .checkpointCapture true, .checkpointHeader, .checkpointWrite,
    .call (.insert (testLeaf 2)) false, .checkpointSync, .checkpointSync, .checkpointSync,
    .checkpointRemap .cuts, .checkpointTruncated true .writes, .checkpointFinish true,
    .call (.insert (testLeaf 3)) false, .flush false, .flushWrite .writes]

/-- Where the run ends: three entries, two of them durable, and a log that can be cut in the last
one. -/
theorem threeLeaves_end : ∃ (ps : List (WalPayload Hash32)) (disk : Disk Hash32)
    (h : Shared Hash32 2 10), DurableRun wincode xorHasher ps 2 ⟨disk, some h⟩ ∧ ps.length = 3 ∧
      disk.wal.durable.length ≤ disk.wal.now.length - 1 := by
  have hends : (World.durableRun threeLeaves :
      Option (List (WalPayload Hash32) × ℕ × World Hash32 2 10)).any (fun s =>
        decide (s.1.length = 3) && decide (s.2.1 = 2) && s.2.2.handle.isSome &&
          decide (s.2.2.disk.wal.durable.length ≤ s.2.2.disk.wal.now.length - 1)) = true := by
    decide +kernel
  obtain ⟨⟨ps, k, disk, handle⟩, hrun, hs⟩ := (Option.any_eq_true _ _).mp hends
  simp only [Bool.and_eq_true, decide_eq_true_eq] at hs
  obtain ⟨⟨⟨hps, rfl⟩, hh⟩, hcut⟩ := hs
  obtain ⟨h, rfl⟩ := Option.isSome_iff_exists.mp hh
  exact ⟨ps, disk, h, DurableRun.of_checked (by decide) hrun, hps, hcut⟩

theorem threeLeaves_tree : ∃ (ps : List (WalPayload Hash32)) (w : World Hash32 2 10)
    (h : Shared Hash32 2 10), w.handle = some h ∧ ps.length = 3 ∧
      Refines w.disk.shards.fs xorHasher h.inner (leavesOf ps) ∧ h.nextSeq = 3 := by
  obtain ⟨ps, disk, h, hr, hps, -⟩ := threeLeaves_end
  obtain ⟨href, hnext, -⟩ := hr.tree_of_entries wincode_lawful (Hasher.scalar_lawful _)
    (by decide) (by decide) rfl
  exact ⟨ps, ⟨disk, some h⟩, h, rfl, hps, href, hnext.trans hps⟩

end Works.Rotortree
