import Works.Rotortree.Storage.CheckpointRun
import Works.Rotortree.Storage.CrashLog
import Works.Rotortree.Storage.NearRecovery

/-! # A tree and its directory

`OpenState` ties an open tree to the entries `ps` it was given: the tree in memory, the log, the
metadata and the level files.  `ClosedDisk` is what remains of it after a crash, for the entries
that are left; `open` turns it into an open tree again (`ClosedDisk.open`).

While a checkpoint writes, the files of the levels hold nodes of several trees, those between
the last checkpoint and the entries that are safe in the log (`FilesBetween`). -/

namespace Works.Rotortree

open Works.Lib ChunkedLevel

variable {Hash : Type} {N MAX_DEPTH : ℕ}

/-! ### Entries -/

/-- The leaves of the entries. -/
def leavesOf (ps : List (WalPayload Hash)) : List Hash := ps.flatMap (·.leaves)

/-- Entries of a tree: each fits into a frame and brings leaves, there are numbers and room for
all of them. -/
structure EntriesOk (W : Wire Hash) (N MAX_DEPTH : ℕ) (ps : List (WalPayload Hash)) : Prop where
  fit : AllFit W 0 ps
  brings : ∀ p ∈ ps, p.leaves ≠ []
  seqs : ps.length < U64_SIZE
  room : CanAdd N MAX_DEPTH 0 (leavesOf ps)

section Entries

variable {W : Wire Hash} {ps qs : List (WalPayload Hash)}

theorem leavesOf_append (ps qs : List (WalPayload Hash)) :
    leavesOf (ps ++ qs) = leavesOf ps ++ leavesOf qs := List.flatMap_append

theorem leavesOf_singleton (p : WalPayload Hash) : leavesOf [p] = p.leaves :=
  List.flatMap_singleton _ _

theorem leavesOf_take (h : ps <+: qs) :
    (leavesOf qs).take (leavesOf ps).length = leavesOf ps := by
  obtain ⟨rest, rfl⟩ := h
  rw [leavesOf_append, List.take_left]

theorem length_leavesOf_le (h : ps <+: qs) : (leavesOf ps).length ≤ (leavesOf qs).length := by
  obtain ⟨rest, rfl⟩ := h
  rw [leavesOf_append, List.length_append]
  exact Nat.le_add_right _ _

theorem leavesOf_ne_nil (hne : ps ≠ []) (hb : ∀ p ∈ ps, p.leaves ≠ []) : leavesOf ps ≠ [] := by
  cases ps with
  | nil => exact absurd rfl hne
  | cons p ps =>
      intro h
      exact hb p List.mem_cons_self (List.append_eq_nil_iff.mp h).1

theorem EntriesOk.of_prefix (h : EntriesOk W N MAX_DEPTH qs) (hp : ps <+: qs) :
    EntriesOk W N MAX_DEPTH ps := by
  obtain ⟨rest, rfl⟩ := hp
  have hseqs := h.seqs
  have hroom := h.room
  rw [List.length_append] at hseqs
  rw [leavesOf_append] at hroom
  exact ⟨(allFit_append.mp h.fit).1, fun p hp => h.brings p (List.mem_append_left _ hp), by omega,
    (canAdd_append.mp hroom).1⟩

theorem EntriesOk.length_lt (h : EntriesOk W N MAX_DEPTH ps) : (leavesOf ps).length < U64_SIZE := by
  rcases h.room with h0 | h1
  · rw [h0]
    exact Nat.two_pow_pos 64
  · omega

end Entries

/-! ### Level files -/

/-- Each node of the levels over `lo` is on disk as it is in some tree between `lo` and `hi`. -/
def FilesBetween (H : Hasher Hash) (N MAX_DEPTH : ℕ) (files : ShardFiles Hash)
    (lo hi : List (WalPayload Hash)) : Prop :=
  ∀ k < MAX_DEPTH,
    ∀ p < (storedLevel N H.hashChildren (leavesOf lo) k).length ⌈/⌉ CHUNK_SIZE * CHUNK_SIZE,
      FileSat files k p fun x => ∃ qs, lo <+: qs ∧ qs <+: hi ∧
        IsNode (storedLevel N H.hashChildren (leavesOf qs) k) p x

section Files

variable {W : Wire Hash} {H : Hasher Hash} {files : ShardFiles Hash} {lo hi : List (WalPayload Hash)}

theorem FilesBetween.mono (h : FilesBetween H N MAX_DEPTH files lo hi)
    {hi' : List (WalPayload Hash)} (hh : hi <+: hi') : FilesBetween H N MAX_DEPTH files lo hi' :=
  fun k hk p hp => (h k hk p hp).imp fun _ ⟨qs, h1, h2, hx⟩ => ⟨qs, h1, h2.trans hh, hx⟩

theorem FilesBetween.sync (h : FilesBetween H N MAX_DEPTH files lo hi) (file : ℕ × ℕ) :
    FilesBetween H N MAX_DEPTH (files.sync file) lo hi :=
  fun k hk p hp => (h k hk p hp).sync file

/-- Nothing is asked of the files of the empty tree. -/
theorem filesBetween_nil (hN : 2 ≤ N) (hi : List (WalPayload Hash)) :
    FilesBetween H N MAX_DEPTH files [] hi := by
  intro k _ p hp
  have e : storedLevel N H.hashChildren (leavesOf ([] : List (WalPayload Hash))) k = [] := by
    unfold storedLevel
    rw [show leavesOf ([] : List (WalPayload Hash)) = [] from rfl, LeanTree.level_nil (by omega),
      ite_self]
  rw [e] at hp
  simp at hp

/-- A complete node is the same in all these trees. -/
theorem FilesBetween.complete (hN : 2 ≤ N) (h : FilesBetween H N MAX_DEPTH files lo hi) {k p : ℕ}
    (hk : k < MAX_DEPTH)
    (hp : p < (storedLevel N H.hashChildren (leavesOf lo) k).length ⌈/⌉ CHUNK_SIZE * CHUNK_SIZE) :
    FileSat files k p fun x => (p + 1) * N ^ k ≤ (leavesOf lo).length →
      (storedLevel N H.hashChildren (leavesOf lo) k)[p]? = some x := by
  refine (h k hk p hp).imp fun x ⟨qs, h1, _, hx⟩ hcomplete => ?_
  have hle := length_leavesOf_le h1
  have hsame := storedLevel_take (h := H.hashChildren) hN hle hcomplete
  rw [leavesOf_take h1] at hsame
  rw [hsame]
  exact hx (complete_bounds hN (hcomplete.trans hle)).2

/-- Between a tree and itself there is no other. -/
theorem FilesBetween.exact (h : FilesBetween H N MAX_DEPTH files lo lo) {k p : ℕ}
    (hk : k < MAX_DEPTH)
    (hp : p < (storedLevel N H.hashChildren (leavesOf lo) k).length ⌈/⌉ CHUNK_SIZE * CHUNK_SIZE) :
    FileSat files k p (IsNode (storedLevel N H.hashChildren (leavesOf lo) k) p) := by
  refine (h k hk p hp).imp fun x ⟨qs, h1, h2, hx⟩ => ?_
  rwa [h2.eq_of_length (le_antisymm h2.length_le h1.length_le)] at hx

/-- The chunks that a checkpoint over `lo` counts hold the nodes of its tree. -/
def FilesCounted (H : Hasher Hash) (N MAX_DEPTH : ℕ) (files : ShardFiles Hash)
    (lo : List (WalPayload Hash)) : Prop :=
  ∀ k < MAX_DEPTH, ∀ p < wholeChunks N (leavesOf lo).length k * CHUNK_SIZE,
    FileSat files k p fun x => (storedLevel N H.hashChildren (leavesOf lo) k)[p]? = some x

/-- Those of a checkpoint that is about to be switched to. -/
theorem FilesBetween.counted (hN : 2 ≤ N) (h : FilesBetween H N MAX_DEPTH files lo lo) :
    FilesCounted H N MAX_DEPTH files lo := by
  intro k hk p hp
  have hlt := lt_length_of_whole (h := H.hashChildren) hN hp
  exact (h.exact hk (lt_chunks_of_lt hlt)).imp fun x hx => hx hlt

/-- A chunk that a checkpoint over `pn` writes. -/
theorem FilesBetween.write [Zero Hash] (h : FilesBetween H N MAX_DEPTH files lo hi)
    {pn : List (WalPayload Hash)} (hlo : lo <+: pn) (hhi : pn <+: hi)
    {inner : TreeInner Hash N MAX_DEPTH} {m : ℕ} {w : ShardWrite Hash}
    (hw : WriteOk H files inner (leavesOf pn) m w) :
    FilesBetween H N MAX_DEPTH (files.write w) lo hi := by
  obtain ⟨kw, i, c, rfl, -, hnode, -⟩ := hw
  intro k hk p hp
  refine (h k hk p hp).write ?_
  rintro rfl hpi
  exact ⟨pn, hlo, hhi, WriteOk.isNode hnode hpi⟩

/-- The files that a crash leaves. -/
def ShardFiles.Survive [Zero Hash] (files : ShardFiles Hash)
    (left : ℕ → ℕ → Option (List Hash)) : Prop :=
  ∀ k s, match files k s with
    | none => left k s = none
    | some f => ∃ l, left k s = some l ∧ f.Survives l

theorem ShardFiles.survive_now [Zero Hash] (files : ShardFiles Hash) :
    files.Survive fun k s => (files k s).map (·.now) := by
  intro k s
  cases hf : files k s with
  | none =>
      dsimp only
      rw [hf]
      rfl
  | some f =>
      dsimp only
      rw [hf]
      exact ⟨f.now, rfl, f.survives_now⟩

theorem FileSat.survives [Zero Hash] {k p : ℕ} {P : Hash → Prop} (h : FileSat files k p P)
    {left : ℕ → ℕ → Option (List Hash)} (hl : files.Survive left) :
    FileSat (fun k s => (left k s).map .synced) k p P := by
  obtain ⟨f, hf, hv⟩ := h
  have hk := hl k (shardOf p)
  rw [hf] at hk
  obtain ⟨l, hleft, hs⟩ := hk
  refine ⟨.synced l, ?_, fun v hm => ?_⟩
  · show (left k (shardOf p)).map CrashFile.synced = _
    rw [hleft]
    rfl
  · rw [CrashFile.contents_synced, List.mem_singleton] at hm
    rw [hm]
    exact hs.getElem? hv

theorem FilesBetween.survives [Zero Hash] (h : FilesBetween H N MAX_DEPTH files lo hi)
    {left : ℕ → ℕ → Option (List Hash)} (hl : files.Survive left) :
    FilesBetween H N MAX_DEPTH (fun k s => (left k s).map .synced) lo hi :=
  fun k hk p hp => (h k hk p hp).survives hl

theorem FilesCounted.survives [Zero Hash] (h : FilesCounted H N MAX_DEPTH files lo)
    {left : ℕ → ℕ → Option (List Hash)} (hl : files.Survive left) :
    FilesCounted H N MAX_DEPTH (fun k s => (left k s).map .synced) lo :=
  fun k hk p hp => (h k hk p hp).survives hl

/-- The files of a checkpoint that is about to be switched to hold its tree. -/
theorem Synced.between (hN : 2 ≤ N) {ps pn : List (WalPayload Hash)} {m : ℕ}
    (hsync : Synced H N MAX_DEPTH MAX_DEPTH files (leavesOf ps) m (leavesOf pn).length)
    (hm : m ≤ (leavesOf pn).length) (hpn : pn <+: ps)
    (hfresh : Fresh N MAX_DEPTH m (leavesOf pn).length) :
    FilesBetween H N MAX_DEPTH files pn pn := by
  intro k hk p hp
  have hle := length_leavesOf_le hpn
  refine (hsync k hk hk p (by rw [leavesOf_take hpn]; exact hp)).imp fun x hx =>
    ⟨pn, List.prefix_rfl, List.prefix_rfl, ?_⟩
  unfold Expected at hx
  split_ifs at hx with hpm
  · -- a node that the checkpoint before has counted has not changed
    have hlen : ((leavesOf ps).take m).length = m := by
      rw [List.length_take, Nat.min_eq_left (hm.trans hle)]
    have hxm := hx (lt_length_of_whole hN (by rw [hlen]; exact hpm))
    have hsame := hfresh.node (h := H.hashChildren) hN hm hk hpm
    rw [← leavesOf_take hpn, List.take_take, leavesOf_take hpn, Nat.min_eq_left hm] at hsame
    intro _
    rwa [hsame] at hxm
  · rwa [leavesOf_take hpn] at hx

end Files

/-! ### The metadata -/

/-- The checkpoint on disk has the entries `pc`. -/
inductive CheckpointFor (W : Wire Hash) (H : Hasher Hash) (N MAX_DEPTH : ℕ) (disk : Disk Hash) :
    List (WalPayload Hash) → Prop where
  | none (h : readMeta W disk.metaFile = .ok none) : CheckpointFor W H N MAX_DEPTH disk []
  | some {pc : List (WalPayload Hash)} (hne : pc ≠ []) (hdir : disk.dataDir = true)
      (hheader : HeaderValid W N MAX_DEPTH disk) (rootHash : Hash)
      (hmeta : readMeta W disk.metaFile =
        .ok (some (metaOf N MAX_DEPTH (leavesOf pc) (pc.length - 1) rootHash)))
      (hroot : LeanTree.root N H.hashChildren (leavesOf pc) = some rootHash) :
      CheckpointFor W H N MAX_DEPTH disk pc

section Checkpoint

variable {W : Wire Hash} {H : Hasher Hash} {disk disk' : Disk Hash} {pc : List (WalPayload Hash)}

theorem CheckpointFor.lastCheckpoint (h : CheckpointFor W H N MAX_DEPTH disk pc) :
    Works.Rotortree.lastCheckpoint W disk = (leavesOf pc).length := by
  unfold Works.Rotortree.lastCheckpoint
  cases h with
  | none h => rw [h]; rfl
  | some hne hdir hheader rootHash hmeta hroot => rw [hmeta]; rfl

/-- Nothing but the files of the checkpoint matters. -/
theorem CheckpointFor.of_eq (h : CheckpointFor W H N MAX_DEPTH disk pc)
    (hmeta : disk'.metaFile = disk.metaFile) (hdir : disk'.dataDir = disk.dataDir)
    (hheader : disk'.headerFile = disk.headerFile) : CheckpointFor W H N MAX_DEPTH disk' pc := by
  cases h with
  | none h => exact .none (by rw [hmeta]; exact h)
  | some hne hd hh rootHash hm hroot =>
      refine .some hne (hdir.trans hd) ?_ rootHash (by rw [hmeta]; exact hm) hroot
      unfold HeaderValid
      rw [hheader]
      exact hh

/-- `compute_initial_level_files` counts the whole chunks. -/
theorem CheckpointFor.initialFiles (hN : 2 ≤ N) (h : CheckpointFor W H N MAX_DEPTH disk pc) :
    ∃ counts, computeInitialLevelFiles W N MAX_DEPTH disk.metaFile = .ok counts ∧
      ∀ k < MAX_DEPTH, counts.getD k 0 = wholeChunks N (leavesOf pc).length k := by
  unfold computeInitialLevelFiles
  cases h with
  | none h =>
      rw [h]
      exact ⟨[], rfl, fun k _ => (wholeChunks_eq_zero hN (by simp [leavesOf])).symm⟩
  | some hne hdir hheader rootHash hmeta hroot =>
      rw [hmeta, Outcome.ok_bind]
      dsimp only
      split_ifs with h0
      · refine ⟨[], rfl, fun k _ => ?_⟩
        have h0' : (leavesOf pc).length = 0 := h0
        exact (wholeChunks_eq_zero hN (by rw [h0']; simp)).symm
      · refine ⟨_, rfl, fun k hk => ?_⟩
        show ((List.range (min (Nat.clog N (leavesOf pc).length) (MAX_DEPTH - 1) + 1)).map fun k =>
          levelLen N (leavesOf pc).length k / CHUNK_SIZE).getD k 0 = _
        rw [List.getD_eq_getElem?_getD, List.getElem?_map]
        rcases Nat.lt_or_ge k (min (Nat.clog N (leavesOf pc).length) (MAX_DEPTH - 1) + 1) with
          hlt | hge
        · rw [List.getElem?_range hlt, Option.map_some, Option.getD_some, levelLen_eq hN]
          rfl
        · rw [List.getElem?_eq_none (by
            rw [List.length_range]
            exact hge), Option.map_none, Option.getD_none]
          exact (wholeChunks_eq_zero hN (by omega)).symm

end Checkpoint

/-! ### A directory that can be opened -/

/-- What a crash leaves of a tree with the entries `ps`: the log holds them from some entry of
the checkpoint on, with a torn end.  The leaf count of the checkpoint has `P`. -/
structure ClosedDisk (P : ℕ → Prop) (W : Wire Hash) (H : Hasher Hash) (N MAX_DEPTH : ℕ)
    (disk : Disk Hash) (ps : List (WalPayload Hash)) : Prop where
  entries : EntriesOk W N MAX_DEPTH ps
  data : ∃ pc q0 ql v, ps = q0 ++ ql ∧ q0 <+: pc ∧ pc <+: ps ∧ Torn W.crc v ∧
    disk.wal.now = headerBytes W N MAX_DEPTH ++ (framesFrom W q0.length ql ++ v) ∧
    CheckpointFor W H N MAX_DEPTH disk pc ∧ FilesBetween H N MAX_DEPTH disk.shards pc ps ∧
    FilesCounted H N MAX_DEPTH disk.shards pc ∧ P (leavesOf pc).length
  past : disk.wal.past = []

/-- A tree on its way to the leaves `goal`. -/
structure Loaded (fs : ShardFs Hash) (H : Hasher Hash) (goal : List Hash)
    (t : TreeInner Hash N MAX_DEPTH) (L : List Hash) : Prop where
  near : Near fs H t L
  home : ∀ k : Fin MAX_DEPTH, AtHome k (t.levels k)
  done : L = goal → Refines fs H t L

section Open

variable {W : Wire Hash} {H : Hasher Hash} {disk : Disk Hash} {fs : ShardFs Hash}
variable {ps pc q0 ql : List (WalPayload Hash)} {goal : List Hash}

theorem replayable_loaded (hN : 2 ≤ N) :
    Replayable fs H (Loaded fs H goal : TreeInner Hash N MAX_DEPTH → List Hash → Prop) :=
  ⟨fun h => h.near, fun h _ href hd =>
    ⟨href.near hN, fun k => (h.home k).derived (hd k), fun _ => href⟩⟩

theorem loaded_of_refines (hN : 2 ≤ N) {t : TreeInner Hash N MAX_DEPTH} {L : List Hash}
    (h : Refines fs H t L) (hhome : ∀ k : Fin MAX_DEPTH, AtHome k (t.levels k)) :
    Loaded fs H goal t L := ⟨h.near hN, hhome, fun _ => h⟩

theorem loaded_new (hN : 2 ≤ N) :
    Loaded fs H goal (TreeInner.new : TreeInner Hash N MAX_DEPTH) [] := by
  refine loaded_of_refines hN (refines_new hN) ?_
  intro k i c hc
  simp [TreeInner.new, ChunkedLevel.new, ChunkedLevel.chunks] at hc

/-- The entries that recovery passes over. -/
def skipped (pc : List (WalPayload Hash)) : Option ℕ :=
  if pc = [] then none else some (pc.length - 1)

/-- What is replayed are the leaves behind the checkpoint. -/
theorem replayed_behind (hps : ps = q0 ++ ql) (hstart : q0 <+: pc) (hreach : pc <+: ps) :
    leavesOf pc ++ replayed (skipped pc) (entriesFrom q0.length ql) = leavesOf ps := by
  obtain ⟨a, rfl⟩ := hstart
  obtain ⟨b, rfl⟩ := hreach
  obtain rfl : a ++ b = ql := by
    rw [List.append_assoc] at hps
    exact List.append_cancel_left hps
  rw [entriesFrom_append, replayed_append, leavesOf_append (q0 ++ a) b]
  congr 1
  have hbehind : replayed (skipped (q0 ++ a)) (entriesFrom (q0.length + a.length) b) =
      leavesOf b := by
    refine replayed_entriesFrom ?_
    intro s hs
    unfold skipped at hs
    split_ifs at hs with h0
    cases hs
    have := List.length_pos_iff.mpr h0
    rw [List.length_append] at this ⊢
    omega
  have hpassed : replayed (skipped (q0 ++ a)) (entriesFrom q0.length a) = [] := by
    unfold skipped
    split_ifs with h0
    · rw [(List.append_eq_nil_iff.mp h0).2]
      rfl
    · refine replayed_passed ?_
      rw [List.length_append]
      omega
  rw [hbehind, hpassed, List.nil_append]

/-- The next number is the one behind all entries. -/
theorem nextOf_behind (hps : ps = q0 ++ ql) (hstart : q0 <+: pc) (hreach : pc <+: ps) :
    nextOf (skipped pc) (entriesFrom q0.length ql) = ps.length := by
  unfold nextOf
  rw [lastSeqOf_entriesFrom, hps, List.length_append]
  split_ifs with hql
  · -- the log has nothing, so that the checkpoint has everything
    rw [hql, List.append_nil] at hps
    subst hps
    obtain rfl := hstart.eq_of_length (le_antisymm hstart.length_le hreach.length_le)
    unfold skipped
    split_ifs with h0
    · rw [h0, hql]
      rfl
    · have := List.length_pos_iff.mpr h0
      rw [hql]
      simp only [List.length_nil]
      omega
  · have := List.length_pos_iff.mpr hql
    dsimp only
    omega

/-- The log can be replayed on the tree of the checkpoint. -/
theorem EntriesOk.logOk (h : EntriesOk W N MAX_DEPTH ps) (hps : ps = q0 ++ ql) (hstart : q0 <+: pc)
    (hreach : pc <+: ps) :
    LogOk W N MAX_DEPTH (leavesOf pc) (skipped pc) q0.length ql := by
  have hfit := h.fit
  have hseqs := h.seqs
  have hroom := h.room
  have hle := hreach.length_le
  rw [← replayed_behind hps hstart hreach] at hroom
  rw [hps, allFit_append, Nat.zero_add] at hfit
  refine ⟨hfit.2, fun p hp => h.brings p ?_, ?_, ?_, ?_⟩
  · rw [hps]
    exact List.mem_append_right _ hp
  · rw [hps, List.length_append] at hseqs
    exact hseqs
  · unfold nextOf skipped
    rw [lastSeqOf_nil]
    split_ifs with h0
    · exact Nat.two_pow_pos 64
    · have := List.length_pos_iff.mpr h0
      dsimp only
      omega
  · have := (canAdd_append.mp hroom).2
    rwa [Nat.zero_add] at this

variable [Zero Hash] [DecidableEq Hash] {v : List UInt8}

/-- **Recovery** of such a directory. -/
theorem recovers_closed (hW : W.Lawful) (hH : H.Lawful) (hN : 2 ≤ N) (hD : 1 ≤ MAX_DEPTH)
    (hentries : EntriesOk W N MAX_DEPTH ps) (hps : ps = q0 ++ ql) (hstart : q0 <+: pc)
    (hreach : pc <+: ps) (hv : Torn W.crc v) (hpast : disk.wal.past = [])
    (hwal : disk.wal.now = headerBytes W N MAX_DEPTH ++ (framesFrom W q0.length ql ++ v))
    (hcheckpoint : CheckpointFor W H N MAX_DEPTH disk pc)
    (hfiles : FilesBetween H N MAX_DEPTH disk.shards pc ps) (verify : Bool) (par : ℕ → ℕ → Bool) :
    ∃ r : RecoveryResult Hash N MAX_DEPTH,
      (if disk.dataDir then recoverWithCheckpoint W H par disk verify
        else recover W H par disk.shards.fs disk.wal) = .ok r ∧
      Replayed W (Loaded disk.shards.fs H (leavesOf ps)) (leavesOf pc) (skipped pc) q0.length ql
        r := by
  have hok := hentries.logOk hps hstart hreach
  have hR : Replayable disk.shards.fs H (Loaded disk.shards.fs H (leavesOf ps) :
      TreeInner Hash N MAX_DEPTH → List Hash → Prop) := replayable_loaded hN
  cases hcheckpoint with
  | none hmeta =>
      obtain ⟨r, hr, hreplayed⟩ := recover_log hW hH hN hD hR (loaded_new hN) hok hv hpast hwal par
      refine ⟨r, ?_, hreplayed⟩
      split_ifs
      · rw [(FallsBack.noMeta hmeta).recover verify, hr]
      · exact hr
  | some hne hdir hheader rootHash hmeta hroot =>
      have hskip : skipped pc = some (pc.length - 1) := if_neg hne
      rw [hskip] at hok ⊢
      have hdelta : ∀ inner : TreeInner Hash N MAX_DEPTH,
          Loaded disk.shards.fs H (leavesOf ps) inner (leavesOf pc) → ∃ r,
          replayDelta W H par disk.shards.fs disk.wal inner (pc.length - 1) = .ok r ∧
          Replayed W (Loaded disk.shards.fs H (leavesOf ps)) (leavesOf pc) (some (pc.length - 1))
            q0.length ql r := fun inner hinner =>
        replayDelta_log hW hH hN hD hR hinner hok hv hpast hwal par
      rw [if_pos hdir]
      by_cases hsame : pc = ps
      · -- nothing is replayed: the files hold the tree of the checkpoint
        subst hsame
        have hholds : HoldsCheckpoint W H N MAX_DEPTH disk (leavesOf pc) (pc.length - 1) :=
          ⟨⟨rootHash, hmeta, fun _ => hroot⟩, hheader, fun k hk p hp => (hfiles.exact hk hp).now⟩
        obtain ⟨inner, href, hhome, hrec⟩ :=
          (@HoldsCheckpoint.recover _ _ _ _ _ _ _ par) hN hD hholds verify
        rw [hrec]
        exact hdelta inner (loaded_of_refines hN href hhome)
      · -- the first replayed leaf makes the tree right
        have hnear : NearCheckpoint W H N MAX_DEPTH disk (leavesOf pc) (pc.length - 1) :=
          ⟨⟨rootHash, hmeta, fun _ => hroot⟩, hheader,
            fun k hk p hp => (hfiles.complete hN hk hp).now⟩
        obtain ⟨inner, hin, hhome, hrec⟩ :=
          (@NearCheckpoint.recover _ _ _ _ _ _ _ par) hN hD hnear verify
        rw [hrec]
        refine hdelta inner ⟨hin, hhome, fun hgoal => absurd ?_ hsame⟩
        obtain ⟨b, rfl⟩ := hreach
        rw [leavesOf_append] at hgoal
        have hb : leavesOf b = [] := List.self_eq_append_right.mp hgoal
        have : b = [] := by
          by_contra h0
          exact leavesOf_ne_nil h0 (fun p hp => hentries.brings p (List.mem_append_right _ hp)) hb
        rw [this, List.append_nil]

end Open

end Works.Rotortree
