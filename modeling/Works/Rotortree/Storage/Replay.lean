import Works.Rotortree.Storage.Loading
import Works.Rotortree.Storage.Reading
import Works.Rotortree.Storage.TestUtil

/-! # What recovery returns

Recovery starts from the tree of a checkpoint, or from the empty tree (`Base`), and adds the
leaves of the entries that the log reads as.  `recoverWithCheckpoint_spec` says when it returns
and what, for any bytes in the log; `log_replay_exact` is the case of a log that was written
entry by entry and cut anywhere. -/

namespace Works.Rotortree

open Works.Lib ChunkedLevel

variable {Hash : Type} {N MAX_DEPTH : ℕ}

/-! ### Scanning the log -/

/-- The bytes of a log header for `N` and `MAX_DEPTH`. -/
def IsHeader (W : Wire Hash) (N MAX_DEPTH : ℕ) (hdr : List UInt8) : Prop :=
  ∃ p, p.length ≤ MAX_FRAME_PAYLOAD ∧ hdr = frameOf W.crc p ∧
    W.walHeader.deserialize p = some ⟨FILE_MAGIC, N % U32_SIZE, MAX_DEPTH % U32_SIZE⟩

/-- The log is a header and bytes that read as `es`; `kept` is the log up to the last of them. -/
def Scans (W : Wire Hash) (N MAX_DEPTH : ℕ) (log kept : List UInt8) (es : List (WalEntry Hash)) :
    Prop :=
  ∃ hdr w v, IsHeader W N MAX_DEPTH hdr ∧ log = hdr ++ (w ++ v) ∧ Reads W none (w ++ v) es v ∧
    kept = hdr ++ w

/-- The next sequence number: after the last entry, or else after those that are skipped. -/
def nextOf (skip : Option ℕ) (es : List (WalEntry Hash)) : ℕ :=
  match lastSeqOf skip es with
  | none => 0
  | some s => s + 1

section Scan

variable {W : Wire Hash}

theorem isHeader_headerBytes (hW : W.Lawful) :
    IsHeader W N MAX_DEPTH (headerBytes W N MAX_DEPTH) := by
  obtain ⟨hrt, hlen⟩ := hW.walHeader ⟨FILE_MAGIC, N % U32_SIZE, MAX_DEPTH % U32_SIZE⟩
    ⟨rfl, Nat.mod_lt _ (by decide), Nat.mod_lt _ (by decide)⟩
  exact ⟨_, hlen, rfl, hrt⟩

theorem IsHeader.ne_nil {hdr : List UInt8} (h : IsHeader W N MAX_DEPTH hdr) : hdr ≠ [] := by
  obtain ⟨p, -, rfl, -⟩ := h
  rintro h0
  have := length_frameOf W.crc p
  rw [h0, List.length_nil] at this
  omega

/-- A header is read exactly where the bytes of one begin. -/
theorem deserializeHeader_eq_ok {data : List UInt8} {n d size : ℕ} :
    deserializeHeader W data = .ok (n, d, size) ↔ ∃ p post, p.length ≤ MAX_FRAME_PAYLOAD ∧
      data = frameOf W.crc p ++ post ∧ W.walHeader.deserialize p = some ⟨FILE_MAGIC, n, d⟩ ∧
      size = (frameOf W.crc p).length := by
  unfold deserializeHeader
  rw [Outcome.bind_eq_ok]
  constructor
  · rintro ⟨r, hr, h⟩
    cases r with
    | none => cases h
    | some r =>
        obtain ⟨p, size'⟩ := r
        obtain ⟨hp, rfl, post, rfl⟩ := (@readFrame_eq_some _ []).mp hr
        dsimp only at h
        cases hd : W.walHeader.deserialize p with
        | none =>
            rw [hd] at h
            cases h
        | some header =>
            rw [hd] at h
            dsimp only at h
            split_ifs at h with hmagic
            · cases h
            · rw [Outcome.pure_eq_ok] at h
              cases h
              refine ⟨p, post, hp, rfl, ?_, rfl⟩
              rw [hd, ← not_not.mp hmagic]
  · rintro ⟨p, post, hp, rfl, hd, rfl⟩
    refine ⟨_, readFrame_frameOf W.crc hp [] post, ?_⟩
    simp only [hd]
    rw [if_neg (by simp)]
    rfl

theorem Scans.unique {log kept kept' : List UInt8} {es es' : List (WalEntry Hash)}
    (h : Scans W N MAX_DEPTH log kept es) (h' : Scans W N MAX_DEPTH log kept' es') :
    es = es' ∧ kept = kept' := by
  obtain ⟨_, w, v, ⟨p, hp, rfl, -⟩, hlog, hreads, rfl⟩ := h
  obtain ⟨_, w', v', ⟨p', hp', rfl, -⟩, hlog', hreads', rfl⟩ := h'
  rw [hlog] at hlog'
  obtain ⟨rfl, hrest⟩ := frameOf_inj hp hp' hlog'
  rw [← hrest] at hreads'
  obtain ⟨rfl, rfl⟩ := hreads.unique hreads'
  rw [List.append_cancel_right hrest]
  exact ⟨rfl, rfl⟩

theorem Scans.ne_nil {log kept : List UInt8} {es : List (WalEntry Hash)}
    (h : Scans W N MAX_DEPTH log kept es) : kept ≠ [] := by
  obtain ⟨hdr, w, v, hh, -, -, rfl⟩ := h
  simp [hh.ne_nil]

end Scan

/-! ### Replay of a file -/

section File

variable [Zero Hash] {W : Wire Hash} {H : Hasher Hash} {par : ℕ → ℕ → Bool}
variable {fs : ShardFs Hash} {L : List Hash} {inner : TreeInner Hash N MAX_DEPTH}
variable {R : TreeInner Hash N MAX_DEPTH → List Hash → Prop}

/-- Reading a log file that is not empty. -/
theorem replayFile_spec (hH : H.Lawful) (hN : 2 ≤ N) (hD : 1 ≤ MAX_DEPTH)
    (hR : Replayable fs H R) (skip : Option ℕ) (wal : CrashFile UInt8) (ht : R inner L) :
    (∃ es kept inner' wal', Scans W N MAX_DEPTH wal.now kept es ∧
      ReplayOk N MAX_DEPTH L.length skip es ∧
      replayFile W H par fs wal inner skip = .ok (inner', lastSeqOf none es, wal', kept.length) ∧
      wal'.now = kept ∧ R inner' (L ++ replayed skip es)) ∨
    ((∃ err, replayFile W H par fs wal inner skip = .error err) ∧
      ∀ es kept, Scans W N MAX_DEPTH wal.now kept es →
        ¬ ReplayOk N MAX_DEPTH L.length skip es) := by
  unfold replayFile
  have hscan : ∀ p post es kept, p.length ≤ MAX_FRAME_PAYLOAD →
      wal.now = frameOf W.crc p ++ post → Scans W N MAX_DEPTH wal.now kept es →
      W.walHeader.deserialize p = some ⟨FILE_MAGIC, N % U32_SIZE, MAX_DEPTH % U32_SIZE⟩ ∧
        ∃ v, Reads W none post es v := by
    rintro p post es kept hp hnow ⟨hdr, w, v, ⟨p', hp', rfl, hd⟩, hlog, hreads, -⟩
    rw [hnow] at hlog
    obtain ⟨rfl, rfl⟩ := frameOf_inj hp hp' hlog
    exact ⟨hd, v, hreads⟩
  cases hh : deserializeHeader W wal.now with
  | error err =>
      right
      refine ⟨⟨err, rfl⟩, ?_⟩
      rintro es kept ⟨hdr, w, v, ⟨p, hp, rfl, hd⟩, hlog, -⟩
      rw [deserializeHeader_eq_ok.mpr ⟨p, _, hp, hlog, hd, rfl⟩] at hh
      cases hh
  | ok r =>
      obtain ⟨n, d, size⟩ := r
      obtain ⟨p, post, hp, hnow, hd, rfl⟩ := deserializeHeader_eq_ok.mp hh
      rw [Outcome.ok_bind]
      dsimp only
      split_ifs with hconf
      · right
        refine ⟨⟨_, rfl⟩, ?_⟩
        rintro es kept hs
        obtain ⟨hd', -⟩ := hscan p post es kept hp hnow hs
        rw [hd', Option.some.injEq, WalHeader.mk.injEq] at hd
        omega
      · have hdrop : wal.now.drop (frameOf W.crc p).length = post := by
          rw [hnow, List.drop_left]
        unfold replayWalEntries
        rw [hdrop]
        rcases (@replayLoop_spec _ _ _ _ W _ par) hH hN hD hR skip (post.length + 1) [] post none []
            inner L (Nat.lt_succ_self _) ht with
          ⟨es, v, inner', hreads, hbrings, hfit, hloop, href⟩ | ⟨⟨err, hloop⟩, hno⟩
        · left
          obtain ⟨w, rfl⟩ := hreads.exists_append
          have hlen : ([] : List UInt8).length + ((w ++ v).length - v.length) = w.length := by
            simp
          rw [hlen] at hloop
          rw [List.nil_append] at hloop hfit
          rw [List.append_nil] at href
          rw [show ([] : List UInt8).length = 0 from rfl] at hloop
          rw [hloop, Outcome.ok_bind]
          have hcut : (frameOf W.crc p).length + w.length = (frameOf W.crc p ++ w).length :=
            List.length_append.symm
          rw [not_or, not_not, not_not] at hconf
          have hnow' : wal.now = (frameOf W.crc p ++ w) ++ v := by rw [hnow, List.append_assoc]
          refine ⟨es, frameOf W.crc p ++ w, inner',
            if (frameOf W.crc p).length + w.length < wal.now.length then
              (wal.setLen ((frameOf W.crc p).length + w.length)).sync else wal, ⟨frameOf W.crc p, w, v, ⟨p, hp, rfl, ?_⟩,
            hnow, hreads, rfl⟩, ⟨hbrings, hfit⟩, ?_, ?_, href⟩
          · rw [hd, hconf.1, hconf.2]
          · rw [← hcut]
            rfl
          · split_ifs with hlt
            · show (wal.now.take _ ++ List.replicate _ 0) = _
              rw [Nat.sub_eq_zero_of_le hlt.le, List.replicate_zero, List.append_nil, hnow', hcut,
                List.take_left]
            · rw [hnow', List.length_append, hcut] at hlt
              have hv : v = [] := List.length_eq_zero_iff.mp (by omega)
              rw [hnow', hv, List.append_nil]
        · right
          rw [List.nil_append, show ([] : List UInt8).length = 0 from rfl] at hloop
          refine ⟨⟨err, by rw [hloop]; rfl⟩, ?_⟩
          intro es kept hs hok
          obtain ⟨-, v, hreads⟩ := hscan p post es kept hp hnow hs
          exact hno es v hreads ⟨hok.brings, by simpa using hok.fits⟩

/-- What recovery leaves: a tree over `L`, the next number, and the log with the cursor at its
end. -/
structure Recovered (fs : ShardFs Hash) (H : Hasher Hash) (L : List Hash) (next : ℕ)
    (log : List UInt8) (r : RecoveryResult Hash N MAX_DEPTH) : Prop where
  tree : Refines fs H r.inner L
  nextSeq : r.nextSeq = next
  wal : r.wal.now = log
  cursor : r.cursor = log.length

theorem nextAfter_of_lt {s : ℕ} (h : s + 1 < U64_SIZE) : nextAfter s = .ok (s + 1) := if_pos h

theorem nextAfter_of_not {s : ℕ} (h : ¬ s + 1 < U64_SIZE) : nextAfter s = .fail .mathError :=
  if_neg h

/-- `recover`, on a log that is not empty. -/
theorem recover_spec (hH : H.Lawful) (hN : 2 ≤ N) (hD : 1 ≤ MAX_DEPTH) {wal : CrashFile UInt8}
    (hne : wal.now ≠ []) :
    (∃ es kept r, Scans W N MAX_DEPTH wal.now kept es ∧ ReplayOk N MAX_DEPTH 0 none es ∧
      nextOf none es < U64_SIZE ∧
      (recover W H par fs wal : Outcome StorageError (RecoveryResult Hash N MAX_DEPTH)) = .ok r ∧
      Recovered fs H (replayed none es) (nextOf none es) kept r) ∨
    ((∃ err, (recover W H par fs wal :
        Outcome StorageError (RecoveryResult Hash N MAX_DEPTH)) = .error err) ∧
      ∀ es kept, Scans W N MAX_DEPTH wal.now kept es →
        ¬ (ReplayOk N MAX_DEPTH 0 none es ∧ nextOf none es < U64_SIZE)) := by
  unfold recover
  rw [if_neg (by simpa using hne)]
  rcases (@replayFile_spec _ _ _ _ W _ par) hH hN hD (replayable_refines hN) none wal (refines_new hN) with
    ⟨es, kept, inner', wal', hscan, hok, hfile, hwal, href⟩ | ⟨⟨err, hfile⟩, hno⟩
  · rw [hfile, Outcome.ok_bind]
    rw [List.nil_append] at href
    dsimp only
    unfold nextOf
    cases hlast : lastSeqOf none es with
    | none =>
        left
        exact ⟨es, kept, _, hscan, hok, by rw [hlast]; decide, rfl, href, by rw [hlast], hwal, rfl⟩
    | some s =>
        dsimp only
        by_cases hs : s + 1 < U64_SIZE
        · left
          rw [nextAfter_of_lt hs, Outcome.ok_bind]
          exact ⟨es, kept, _, hscan, hok, by rw [hlast]; exact hs, rfl, href, by rw [hlast], hwal,
            rfl⟩
        · right
          refine ⟨⟨_, by rw [nextAfter_of_not hs]; rfl⟩, ?_⟩
          rintro es' kept' hscan' ⟨-, hlt⟩
          rw [(hscan'.unique hscan).1, hlast] at hlt
          exact hs hlt
  · right
    exact ⟨⟨err, by rw [hfile]; rfl⟩, fun es kept hs h => hno es kept hs h.1⟩

/-- The end of `recover_with_checkpoint`, on a log that is not empty. -/
theorem replayDelta_spec (hH : H.Lawful) (hN : 2 ≤ N) (hD : 1 ≤ MAX_DEPTH)
    (hR : Replayable fs H R) {wal : CrashFile UInt8} (hne : wal.now ≠ []) (s : ℕ)
    (ht : R inner L) :
    (∃ es kept r, Scans W N MAX_DEPTH wal.now kept es ∧
      ReplayOk N MAX_DEPTH L.length (some s) es ∧ nextOf (some s) es < U64_SIZE ∧
      replayDelta W H par fs wal inner s = .ok r ∧ R r.inner (L ++ replayed (some s) es) ∧
      r.nextSeq = nextOf (some s) es ∧ r.wal.now = kept ∧ r.cursor = kept.length) ∨
    ((∃ err, replayDelta W H par fs wal inner s = .error err) ∧
      ∀ es kept, Scans W N MAX_DEPTH wal.now kept es →
        ¬ (ReplayOk N MAX_DEPTH L.length (some s) es ∧ nextOf (some s) es < U64_SIZE)) := by
  unfold replayDelta
  rw [if_neg (by simpa using hne)]
  have hnext : ∀ es : List (WalEntry Hash),
      nextOf (some s) es = (lastSeqOf none es).getD s + 1 := by
    intro es
    unfold nextOf lastSeqOf
    cases es.getLast? <;> rfl
  rcases (@replayFile_spec _ _ _ _ W _ par) hH hN hD hR (some s) wal ht with
    ⟨es, kept, inner', wal', hscan, hok, hfile, hwal, href⟩ | ⟨⟨err, hfile⟩, hno⟩
  · rw [hfile, Outcome.ok_bind]
    dsimp only
    by_cases hs : (lastSeqOf none es).getD s + 1 < U64_SIZE
    · left
      rw [nextAfter_of_lt hs, Outcome.ok_bind]
      exact ⟨es, kept, _, hscan, hok, by rw [hnext]; exact hs, rfl, href, (hnext es).symm, hwal, rfl⟩
    · right
      refine ⟨⟨_, by rw [nextAfter_of_not hs]; rfl⟩, ?_⟩
      rintro es' kept' hscan' ⟨-, hlt⟩
      rw [hnext, (hscan'.unique hscan).1] at hlt
      exact hs hlt
  · right
    exact ⟨⟨err, by rw [hfile]; rfl⟩, fun es kept hs h => hno es kept hs h.1⟩

end File

/-! ### Recovery from a checkpoint -/

/-- The metadata of a checkpoint over `L` whose last entry has number `s`, as `write_meta` writes
it. -/
def metaOf (N MAX_DEPTH : ℕ) (L : List Hash) (s : ℕ) (rootHash : Hash) : MetaFrame Hash :=
  ⟨META_MAGIC, N % U32_SIZE, MAX_DEPTH % U32_SIZE, s, L.length, Nat.clog N L.length, rootHash⟩

/-- `header.bin` is there and belongs to these parameters. -/
def HeaderValid (W : Wire Hash) (N MAX_DEPTH : ℕ) (disk : Disk Hash) : Prop :=
  ∃ h, readHeader W disk.headerFile = .ok (some h) ∧ h.n = N % U32_SIZE ∧
    h.maxDepth = MAX_DEPTH % U32_SIZE ∧ h.chunkSize = CHUNK_SIZE % U32_SIZE

/-- The checkpoint files hold the tree over `L`; the entries up to number `s` are in it. -/
structure HoldsCheckpoint (W : Wire Hash) (H : Hasher Hash) (N MAX_DEPTH : ℕ) (disk : Disk Hash)
    (L : List Hash) (s : ℕ) : Prop where
  metaFile : ∃ rootHash, readMeta W disk.metaFile = .ok (some (metaOf N MAX_DEPTH L s rootHash)) ∧
    (L ≠ [] → LeanTree.root N H.hashChildren L = some rootHash)
  header : HeaderValid W N MAX_DEPTH disk
  files : ∀ k < MAX_DEPTH,
    ∀ p < (storedLevel N H.hashChildren L k).length ⌈/⌉ CHUNK_SIZE * CHUNK_SIZE,
      NowSat disk.shards k p (IsNode (storedLevel N H.hashChildren L k) p)

/-- There is no checkpoint that can be used. -/
inductive FallsBack (W : Wire Hash) (N MAX_DEPTH : ℕ) (disk : Disk Hash) : Prop where
  | noMeta (h : readMeta W disk.metaFile = .ok none)
  | otherMeta {m : MetaFrame Hash} (h : readMeta W disk.metaFile = .ok (some m))
      (hm : m.n ≠ N % U32_SIZE ∨ m.maxDepth ≠ MAX_DEPTH % U32_SIZE)
  | noHeader {m : MetaFrame Hash} (h : readMeta W disk.metaFile = .ok (some m))
      (hh : readHeader W disk.headerFile = .ok none)
  | otherHeader {m : MetaFrame Hash} {h' : HeaderFrame}
      (h : readMeta W disk.metaFile = .ok (some m))
      (hh : readHeader W disk.headerFile = .ok (some h'))
      (hm : ¬ (h'.n = N % U32_SIZE ∧ h'.maxDepth = MAX_DEPTH % U32_SIZE ∧
        h'.chunkSize = CHUNK_SIZE % U32_SIZE))

/-- The leaves that recovery starts with, and the number up to which the log is skipped. -/
inductive Base (W : Wire Hash) (H : Hasher Hash) (N MAX_DEPTH : ℕ) (disk : Disk Hash) :
    List Hash → Option ℕ → Prop where
  | none (h : FallsBack W N MAX_DEPTH disk) : Base W H N MAX_DEPTH disk [] none
  | checkpoint {L : List Hash} {s : ℕ} (h : HoldsCheckpoint W H N MAX_DEPTH disk L s) :
      Base W H N MAX_DEPTH disk L (some s)

section Checkpoint

variable [Zero Hash] [DecidableEq Hash] {W : Wire Hash} {H : Hasher Hash} {par : ℕ → ℕ → Bool}
variable {disk : Disk Hash} {L : List Hash} {s : ℕ}

omit [Zero Hash] [DecidableEq Hash] in
theorem length_storedLevel (hN : 2 ≤ N) (L : List Hash) (k : ℕ) :
    (storedLevel N H.hashChildren L k).length =
      if k ≤ Nat.clog N L.length then levelLen N L.length k else 0 := by
  split_ifs with hk
  · rw [storedLevel_of_le hk, LeanTree.length_level (by omega), levelLen_eq hN]
  · rw [storedLevel_of_lt (by omega)]
    rfl

omit [Zero Hash] [DecidableEq Hash] in
theorem HoldsCheckpoint.largeEnough (hN : 2 ≤ N) (hD : 1 ≤ MAX_DEPTH)
    (h : HoldsCheckpoint W H N MAX_DEPTH disk L s) :
    LargeEnough disk.shards N MAX_DEPTH L.length (Nat.clog N L.length) := by
  intro k hk p hp
  have hlen := length_storedLevel (H := H) hN L k
  rw [if_pos (by omega)] at hlen
  rw [← hlen] at hp
  exact (h.files k (by omega) p hp).imp fun _ _ => trivial

omit [DecidableEq Hash] in
/-- The tree of a checkpoint over `L` is the tree over `L`. -/
theorem HoldsCheckpoint.load (hN : 2 ≤ N) (hD : 1 ≤ MAX_DEPTH)
    (h : HoldsCheckpoint W H N MAX_DEPTH disk L s) {rootHash : Hash}
    (hroot : L ≠ [] → LeanTree.root N H.hashChildren L = some rootHash) :
    ∃ inner : TreeInner Hash N MAX_DEPTH,
      loadCheckpoint disk.shards (metaOf N MAX_DEPTH L s rootHash) = .ok inner ∧
      Refines disk.shards.fs H inner L ∧ ∀ k : Fin MAX_DEPTH, AtHome k (inner.levels k) := by
  obtain ⟨inner, hload, hsize, hdepth, hr, hlevels⟩ :=
    loadCheckpoint_spec (m := metaOf N MAX_DEPTH L s rootHash) (h.largeEnough hN hD)
  refine ⟨inner, hload, ⟨hsize, hdepth, ?_, ?_⟩, fun k => (hlevels k).1⟩
  · rw [hr]
    by_cases hL : L = []
    · rw [hL, LeanTree.root_nil (by omega)]
      rfl
    · rw [hroot hL]
      exact if_pos (List.length_pos_iff.mpr hL)
  · intro k
    have hl := (hlevels k).2
    have heq : (if k.val ≤ Nat.clog N L.length then
        storedNodes disk.shards.fs k (levelLen N L.length k) else []) =
        storedLevel N H.hashChildren L k := by
      have hlen := length_storedLevel (H := H) hN L k
      split_ifs with hk
      · rw [if_pos hk] at hlen
        apply List.ext_getElem?
        intro p
        rcases Nat.lt_or_ge p (levelLen N L.length k) with hp | hp
        · rw [getElem?_storedNodes hp]
          have hnode := (h.files k k.isLt p (lt_chunks_of_lt (by rw [hlen]; exact hp))).nodeAt
          exact (hnode (by rw [hlen]; exact hp)).symm
        · rw [List.getElem?_eq_none (by rw [length_storedNodes]; exact hp),
            List.getElem?_eq_none (by rw [hlen]; exact hp)]
      · rw [storedLevel_of_lt (by omega)]
    rw [← heq]
    exact hl

/-- Without a usable checkpoint the whole log is replayed. -/
theorem FallsBack.recover (h : FallsBack W N MAX_DEPTH disk) (verify : Bool) :
    (recoverWithCheckpoint W H par disk verify :
      Outcome StorageError (RecoveryResult Hash N MAX_DEPTH)) =
      Rotortree.recover W H par disk.shards.fs disk.wal := by
  unfold recoverWithCheckpoint
  cases h with
  | noMeta h =>
      rw [h]
      rfl
  | otherMeta h hm =>
      rw [h, Outcome.ok_bind]
      dsimp only
      rw [if_pos hm]
  | noHeader h hh =>
      rw [h, Outcome.ok_bind]
      dsimp only
      rw [hh]
      exact ite_self _
  | otherHeader h hh hm =>
      rw [h, Outcome.ok_bind]
      dsimp only
      rw [hh, Outcome.ok_bind]
      dsimp only
      rw [if_neg hm]
      exact ite_self _

/-- With a checkpoint the rest of the log is replayed on its tree, verified or not. -/
theorem HoldsCheckpoint.recover (hN : 2 ≤ N) (hD : 1 ≤ MAX_DEPTH)
    (h : HoldsCheckpoint W H N MAX_DEPTH disk L s) (verify : Bool) :
    ∃ inner : TreeInner Hash N MAX_DEPTH, Refines disk.shards.fs H inner L ∧
      (∀ k : Fin MAX_DEPTH, AtHome k (inner.levels k)) ∧
      recoverWithCheckpoint W H par disk verify =
        replayDelta W H par disk.shards.fs disk.wal inner s := by
  obtain ⟨rootHash, hmeta, hroot⟩ := h.metaFile
  obtain ⟨hd, hread, hheader⟩ := h.header
  obtain ⟨inner, hload, href, hhome⟩ := h.load hN hD hroot
  refine ⟨inner, href, hhome, ?_⟩
  have hzero : storedLevel N H.hashChildren L 0 = L := storedLevel_of_le (Nat.zero_le _)
  have hlevel := href.levels ⟨0, hD⟩
  dsimp only at hlevel
  rw [hzero] at hlevel
  have hcomputed := recomputeRoot_spec (H := H) hN hD href.size hlevel
  rw [href.depth] at hcomputed
  unfold recoverWithCheckpoint
  rw [hmeta, Outcome.ok_bind]
  dsimp only
  rw [if_neg (by simp [metaOf]), hread, Outcome.ok_bind]
  dsimp only
  rw [if_pos hheader, hload, Outcome.ok_bind, hcomputed, Outcome.ok_bind]
  split_ifs with hv hne
  · rw [href.root] at hne
    exact absurd rfl hne
  · rfl
  · rfl

/-- **Recovery.**  It returns exactly when the log reads as entries that bring leaves and fit on
the tree it starts with, and a next sequence number is left. -/
theorem recoverWithCheckpoint_spec (hH : H.Lawful) (hN : 2 ≤ N) (hD : 1 ≤ MAX_DEPTH)
    {skip : Option ℕ} (hbase : Base W H N MAX_DEPTH disk L skip) (hne : disk.wal.now ≠ [])
    (verify : Bool) :
    (∃ es kept r, Scans W N MAX_DEPTH disk.wal.now kept es ∧
      ReplayOk N MAX_DEPTH L.length skip es ∧ nextOf skip es < U64_SIZE ∧
      (recoverWithCheckpoint W H par disk verify :
        Outcome StorageError (RecoveryResult Hash N MAX_DEPTH)) = .ok r ∧
      Recovered disk.shards.fs H (L ++ replayed skip es) (nextOf skip es) kept r) ∨
    ((∃ err, (recoverWithCheckpoint W H par disk verify :
        Outcome StorageError (RecoveryResult Hash N MAX_DEPTH)) = .error err) ∧
      ∀ es kept, Scans W N MAX_DEPTH disk.wal.now kept es →
        ¬ (ReplayOk N MAX_DEPTH L.length skip es ∧ nextOf skip es < U64_SIZE)) := by
  cases hbase with
  | none h =>
      rw [h.recover verify, List.length_nil]
      simp only [List.nil_append]
      exact recover_spec hH hN hD hne
  | checkpoint h =>
      obtain ⟨inner, href, -, hrec⟩ := (@HoldsCheckpoint.recover _ _ _ _ _ _ _ par) hN hD h verify
      rw [hrec]
      rcases (@replayDelta_spec _ _ _ _ W _ par) hH hN hD (replayable_refines hN) hne _ href with
        ⟨es, kept, r, hs, hok, hlt, hdelta, hr⟩ | hno
      · exact .inl ⟨es, kept, r, hs, hok, hlt, hdelta, ⟨hr.1, hr.2.1, hr.2.2.1, hr.2.2.2⟩⟩
      · exact .inr hno

end Checkpoint

/-! ### Logs written entry by entry -/

/-- Consecutive entries, the first of them with sequence number `seq`. -/
def entriesFrom : ℕ → List (WalPayload Hash) → List (WalEntry Hash)
  | _, [] => []
  | seq, p :: ps => ⟨seq, p⟩ :: entriesFrom (seq + 1) ps

/-- The entries that are complete in the first `n` bytes of a log. -/
def wholeEntries (W : Wire Hash) : ℕ → ℕ → List (WalPayload Hash) → List (WalPayload Hash)
  | _, _, [] => []
  | seq, n, p :: ps =>
      if (entryBytes W seq p).length ≤ n then
        p :: wholeEntries W (seq + 1) (n - (entryBytes W seq p).length) ps
      else []

section Written

variable {W : Wire Hash}

theorem wholeEntries_take (seq n : ℕ) (ps : List (WalPayload Hash)) :
    wholeEntries W seq n ps <+: ps := by
  induction ps generalizing seq n with
  | nil => exact List.nil_prefix
  | cons p ps ih =>
      rw [wholeEntries]
      split_ifs
      · rw [List.cons_prefix_cons]
        exact ⟨rfl, ih _ _⟩
      · exact List.nil_prefix

/-- A cut log is its complete entries and a torn end. -/
theorem take_framesFrom (seq n : ℕ) (ps : List (WalPayload Hash)) (hfit : AllFit W seq ps) :
    ∃ v, (framesFrom W seq ps).take n = framesFrom W seq (wholeEntries W seq n ps) ++ v ∧
      Torn W.crc v := by
  induction ps generalizing seq n with
  | nil => exact ⟨[], by simp [framesFrom, wholeEntries], torn_nil _⟩
  | cons p ps ih =>
      rw [wholeEntries]
      split_ifs with hn
      · obtain ⟨v, hv, htorn⟩ := ih (seq + 1) (n - (entryBytes W seq p).length) hfit.2
        refine ⟨v, ?_, htorn⟩
        rw [framesFrom, List.take_append, List.take_of_length_le hn, hv, framesFrom,
          List.append_assoc]
      · refine ⟨(entryBytes W seq p).take n, ?_, ?_⟩
        · show (entryBytes W seq p ++ framesFrom W (seq + 1) ps).take n = _
          rw [List.take_append_of_le_length (by omega)]
          rfl
        · refine torn_of_shorter hfit.1 (List.take_prefix _ _) ?_
          rw [List.length_take]
          exact (Nat.min_le_left _ _).trans_lt (by
            show n < (entryBytes W seq p).length
            omega)

theorem entriesFrom_append (seq : ℕ) (ps qs : List (WalPayload Hash)) :
    entriesFrom seq (ps ++ qs) = entriesFrom seq ps ++ entriesFrom (seq + ps.length) qs := by
  induction ps generalizing seq with
  | nil => rfl
  | cons p ps ih =>
      rw [List.cons_append, entriesFrom, entriesFrom, ih, List.cons_append, List.length_cons]
      congr 3
      omega

theorem mem_entriesFrom {seq : ℕ} {ps : List (WalPayload Hash)} {e : WalEntry Hash}
    (h : e ∈ entriesFrom seq ps) :
    e.payload ∈ ps ∧ seq ≤ e.seq ∧ e.seq < seq + ps.length := by
  induction ps generalizing seq with
  | nil => cases h
  | cons p ps ih =>
      rw [entriesFrom] at h
      rw [List.length_cons]
      cases List.mem_cons.mp h with
      | inl h =>
          subst h
          exact ⟨List.mem_cons_self, le_rfl, by dsimp only; omega⟩
      | inr h =>
          obtain ⟨hp, h1, h2⟩ := ih h
          exact ⟨List.mem_cons_of_mem _ hp, by omega, by omega⟩

theorem lastSeqOf_entriesFrom (last : Option ℕ) (seq : ℕ) (ps : List (WalPayload Hash)) :
    lastSeqOf last (entriesFrom seq ps) =
      if ps = [] then last else some (seq + ps.length - 1) := by
  induction ps generalizing last seq with
  | nil => rfl
  | cons p ps ih =>
      rw [entriesFrom, lastSeqOf_cons, ih, if_neg (List.cons_ne_nil p ps), List.length_cons]
      split_ifs with hps
      · rw [hps]
        rfl
      · congr 1
        omega

/-- Entries written one after the other read as what they are. -/
theorem reads_framesFrom (hW : W.Lawful) {ps : List (WalPayload Hash)} :
    ∀ {seq : ℕ} {last : Option ℕ} {v : List UInt8}, AllFit W seq ps →
      seq + ps.length ≤ U64_SIZE → (∀ l, last = some l → l + 1 = seq) →
      (∀ l, last = some l → l + 1 < U64_SIZE) →
      Ends W (lastSeqOf last (entriesFrom seq ps)) v →
      Reads W last (framesFrom W seq ps ++ v) (entriesFrom seq ps) v := by
  induction ps with
  | nil => intro _ _ _ _ _ _ _ hv; exact .ends hv
  | cons p ps ih =>
      intro seq last v hfit hseq hlast hlt hv
      rw [List.length_cons] at hseq
      rw [entriesFrom, lastSeqOf_cons] at hv
      rw [framesFrom, entriesFrom, List.append_assoc, entryBytes]
      refine .entry hfit.1 (hW.walEntry ⟨seq, p⟩ (show seq < U64_SIZE by omega)) ?_ ?_
      · intro l hl
        exact ⟨hlt l hl, (hlast l hl).symm⟩
      · cases ps with
        | nil => exact .ends hv
        | cons q ps =>
            rw [List.length_cons] at hseq
            refine ih hfit.2 (by rw [List.length_cons]; omega) ?_ ?_ hv
            · rintro l ⟨⟩
              rfl
            · rintro l ⟨⟩
              dsimp only
              omega

end Written

/-! ### Exact replay -/

section Exact

variable [Zero Hash] [DecidableEq Hash] {W : Wire Hash} {H : Hasher Hash}
variable {disk : Disk Hash} {L : List Hash} {skip : Option ℕ} {start n : ℕ}
variable {ps : List (WalPayload Hash)}

/-- The entries of a log that recovery can replay: each fits into a frame and brings leaves, the
numbers stay below `2 ^ 64 - 1`, and the tree has room for the leaves that are not in it. -/
structure LogOk (W : Wire Hash) (N MAX_DEPTH : ℕ) (L : List Hash) (skip : Option ℕ) (start : ℕ)
    (ps : List (WalPayload Hash)) : Prop where
  fit : AllFit W start ps
  brings : ∀ p ∈ ps, p.leaves ≠ []
  seqs : start + ps.length < U64_SIZE
  skipped : nextOf skip ([] : List (WalEntry Hash)) < U64_SIZE
  room : CanAdd N MAX_DEPTH L.length (replayed skip (entriesFrom start ps))

omit [Zero Hash] [DecidableEq Hash] in
theorem LogOk.of_prefix (h : LogOk W N MAX_DEPTH L skip start ps) {qs : List (WalPayload Hash)}
    (hq : qs <+: ps) : LogOk W N MAX_DEPTH L skip start qs := by
  obtain ⟨t, rfl⟩ := hq
  have hroom := h.room
  rw [entriesFrom_append, replayed_append] at hroom
  have hseqs := h.seqs
  rw [List.length_append] at hseqs
  exact ⟨(allFit_append.mp h.fit).1, fun p hp => h.brings p (List.mem_append_left _ hp), by omega,
    h.skipped, (canAdd_append.mp hroom).1⟩

omit [Zero Hash] [DecidableEq Hash] in
theorem LogOk.replayOk (h : LogOk W N MAX_DEPTH L skip start ps) :
    ReplayOk N MAX_DEPTH L.length skip (entriesFrom start ps) :=
  ⟨fun _ he _ => h.brings _ (mem_entriesFrom he).1, h.room⟩

omit [Zero Hash] [DecidableEq Hash] in
theorem LogOk.next_lt (h : LogOk W N MAX_DEPTH L skip start ps) :
    nextOf skip (entriesFrom start ps) < U64_SIZE := by
  have hskipped := h.skipped
  have hseqs := h.seqs
  unfold nextOf at hskipped ⊢
  rw [lastSeqOf_entriesFrom]
  split_ifs with hps
  · exact hskipped
  · have := List.length_pos_iff.mpr hps
    dsimp only
    omega

omit [Zero Hash] [DecidableEq Hash] in
/-- The header, complete entries and a torn end are read as these entries. -/
theorem LogOk.scans (hW : W.Lawful) (h : LogOk W N MAX_DEPTH L skip start ps) {v : List UInt8}
    (hv : Torn W.crc v) :
    Scans W N MAX_DEPTH (headerBytes W N MAX_DEPTH ++ (framesFrom W start ps ++ v))
      (headerBytes W N MAX_DEPTH ++ framesFrom W start ps) (entriesFrom start ps) :=
  ⟨_, _, v, isHeader_headerBytes hW, rfl,
    reads_framesFrom hW h.fit h.seqs.le (by rintro l ⟨⟩) (by rintro l ⟨⟩) (.torn hv), rfl⟩

/-- Recovery from a log with complete entries and a torn end. -/
theorem LogOk.recovers (hW : W.Lawful) (hH : H.Lawful) (hN : 2 ≤ N) (hD : 1 ≤ MAX_DEPTH)
    (hbase : Base W H N MAX_DEPTH disk L skip) (h : LogOk W N MAX_DEPTH L skip start ps)
    {v : List UInt8} (hv : Torn W.crc v)
    (hwal : disk.wal.now = headerBytes W N MAX_DEPTH ++ (framesFrom W start ps ++ v))
    (verify : Bool) (par : ℕ → ℕ → Bool) :
    ∃ r : RecoveryResult Hash N MAX_DEPTH, recoverWithCheckpoint W H par disk verify = .ok r ∧
      Recovered disk.shards.fs H (L ++ replayed skip (entriesFrom start ps))
        (nextOf skip (entriesFrom start ps))
        (headerBytes W N MAX_DEPTH ++ framesFrom W start ps) r := by
  have hscans := (@LogOk.scans _ N MAX_DEPTH) hW h hv
  rw [← hwal] at hscans
  have hne : disk.wal.now ≠ [] := by
    rw [hwal]
    simp [(isHeader_headerBytes hW).ne_nil]
  rcases (@recoverWithCheckpoint_spec _ _ _ _ _ _ _ par) hH hN hD hbase hne verify with
    ⟨es, kept, r, hs, -, -, hrec, hr⟩ | ⟨-, hno⟩
  · obtain ⟨rfl, rfl⟩ := hs.unique hscans
    exact ⟨r, hrec, hr⟩
  · exact absurd ⟨h.replayOk, h.next_lt⟩ (hno _ _ hscans)

omit [Zero Hash] [DecidableEq Hash] in
/-- Recovery does not touch the files of the checkpoint. -/
theorem Base.withWal (h : Base W H N MAX_DEPTH disk L skip) (wal : CrashFile UInt8) :
    Base W H N MAX_DEPTH { disk with wal := wal } L skip := by
  cases h with
  | none h =>
      refine .none ?_
      cases h with
      | noMeta h => exact .noMeta h
      | otherMeta h hm => exact .otherMeta h hm
      | noHeader h hh => exact .noHeader h hh
      | otherHeader h hh hm => exact .otherHeader h hh hm
  | checkpoint h => exact .checkpoint ⟨h.metaFile, h.header, h.files⟩

/-- **Log replay is exact.**  From a log cut after any number of bytes, recovery takes exactly
the complete entries that are not in the checkpoint, cuts the log behind the last complete
one, and does the same when it is run again. -/
theorem log_replay_exact (hW : W.Lawful) (hH : H.Lawful) (hN : 2 ≤ N) (hD : 1 ≤ MAX_DEPTH)
    (hbase : Base W H N MAX_DEPTH disk L skip) (hlog : LogOk W N MAX_DEPTH L skip start ps)
    (hwal : disk.wal.now = headerBytes W N MAX_DEPTH ++ (framesFrom W start ps).take n)
    (verify verify' : Bool) (par par' : ℕ → ℕ → Bool) :
    ∃ r r' : RecoveryResult Hash N MAX_DEPTH,
      recoverWithCheckpoint W H par disk verify = .ok r ∧
      (skip = none → recover W H par disk.shards.fs disk.wal = .ok r) ∧
      Recovered disk.shards.fs H
        (L ++ replayed skip (entriesFrom start (wholeEntries W start n ps)))
        (nextOf skip (entriesFrom start (wholeEntries W start n ps)))
        (headerBytes W N MAX_DEPTH ++ framesFrom W start (wholeEntries W start n ps)) r ∧
      recoverWithCheckpoint W H par' { disk with wal := r.wal } verify' = .ok r' ∧
      SameTree disk.shards.fs r.inner r'.inner ∧ r'.nextSeq = r.nextSeq ∧
      r'.wal.now = r.wal.now ∧ r'.cursor = r.cursor := by
  obtain ⟨v, hv, htorn⟩ := take_framesFrom start n ps hlog.fit
  have hwhole := hlog.of_prefix (wholeEntries_take (W := W) start n ps)
  rw [hv] at hwal
  obtain ⟨r, hrec, hr⟩ := hwhole.recovers hW hH hN hD hbase htorn hwal verify par
  have hwal' : ({ disk with wal := r.wal } : Disk Hash).wal.now =
      headerBytes W N MAX_DEPTH ++ (framesFrom W start (wholeEntries W start n ps) ++ []) := by
    rw [List.append_nil]
    exact hr.wal
  obtain ⟨r', hrec', hr'⟩ := hwhole.recovers hW hH hN hD (hbase.withWal r.wal) (torn_nil _) hwal'
    verify' par'
  refine ⟨r, r', hrec, ?_, hr, hrec', hr.tree.sameTree hr'.tree,
    hr'.nextSeq.trans hr.nextSeq.symm, hr'.wal.trans hr.wal.symm,
    hr'.cursor.trans hr.cursor.symm⟩
  intro hskip
  cases hbase with
  | none h => rw [← h.recover verify, hrec]
  | checkpoint h => cases hskip

/-- A log of two leaves that is cut in the second entry gives the first leaf. -/
theorem cut_log_replayed :
    ∃ r r' : RecoveryResult Hash32 2 10,
      let disk : Disk Hash32 := ⟨.synced (headerBytes wincode 2 10 ++
        (framesFrom wincode 0 [.single (testLeaf 1), .single (testLeaf 2)]).take 100), true, none,
        none, fun _ _ => none⟩
      recoverWithCheckpoint wincode xorHasher (fun _ _ => false) disk true = .ok r ∧
      Refines disk.shards.fs xorHasher r.inner [testLeaf 1] ∧ r.nextSeq = 1 ∧
      recoverWithCheckpoint wincode xorHasher (fun _ _ => true) { disk with wal := r.wal } false =
        .ok r' ∧ r'.nextSeq = 1 := by
  have hfit : AllFit wincode 0 [.single (testLeaf 1), .single (testLeaf 2)] :=
    ⟨wincode_lawful.single _ _, wincode_lawful.single _ _, trivial⟩
  have hlog : LogOk wincode 2 10 [] none 0 [.single (testLeaf 1), .single (testLeaf 2)] :=
    ⟨hfit, by simp [WalPayload.leaves], by decide, by decide, .inr ⟨by decide, by decide⟩⟩
  have hsize : ∀ seq leaf, (entryBytes wincode seq (.single leaf)).length = 56 := by
    intro seq leaf
    simp [entryBytes, length_frameOf, wincode, walEntryCodec, putPayload]
  have hwhole : wholeEntries wincode 0 100 [.single (testLeaf 1), .single (testLeaf 2)] =
      [.single (testLeaf 1)] := by
    simp [wholeEntries, hsize]
  obtain ⟨r, r', hrec, -, hr, hrec', -, hnext, -⟩ := log_replay_exact wincode_lawful
    (Hasher.scalar_lawful _) (by decide) (by decide)
    (.none (.noMeta rfl) : Base wincode xorHasher 2 10 ⟨.synced (headerBytes wincode 2 10 ++
      (framesFrom wincode 0 [.single (testLeaf 1), .single (testLeaf 2)]).take 100), true, none,
      none, fun _ _ => none⟩ [] none) hlog rfl true false (fun _ _ => false) (fun _ _ => true)
  rw [hwhole] at hr
  exact ⟨r, r', hrec, hr.tree, hr.nextSeq, hrec', hnext.trans hr.nextSeq⟩

end Exact

end Works.Rotortree
