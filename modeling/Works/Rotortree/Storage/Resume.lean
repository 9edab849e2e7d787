import Works.Rotortree.Storage.Replay

/-! # Writing on after recovery

Recovery hands out the next sequence number: one after the last entry of the log, or one after
the checkpoint when the log has no entry.  A log whose last entry is older than the checkpoint
gives a number that the checkpoint has passed; what is written under such a number is skipped by
the next recovery.  `ReachesCheckpoint` says that the log is not such a log, and
`resumed_entries_survive_iff` that then, and only then, everything written after the recovery
stays. -/

namespace Works.Rotortree

open Works.Lib

variable {Hash : Type} {N MAX_DEPTH : ℕ}

/-- The log is empty, or has no entry, or its last entry is numbered `s` or more. -/
def ReachesCheckpoint (W : Wire Hash) (N MAX_DEPTH : ℕ) (log : List UInt8) (s : ℕ) : Prop :=
  log = [] ∨ ∃ es kept, Scans W N MAX_DEPTH log kept es ∧ ∀ l, lastSeqOf none es = some l → s ≤ l

/-- Entries that a tree of `n` leaves can log from the number `next` on: each fits into a frame
and brings leaves, the numbers do not run out, and the leaves fit. -/
structure Appendable (W : Wire Hash) (N MAX_DEPTH next n : ℕ) (ps : List (WalPayload Hash)) :
    Prop where
  fit : AllFit W next ps
  brings : ∀ p ∈ ps, p.leaves ≠ []
  seqs : next + ps.length < U64_SIZE
  room : CanAdd N MAX_DEPTH n (ps.flatMap (·.leaves))

/-! ### The log with more entries -/

section Append

variable {W : Wire Hash} {log log' : List UInt8} {es : List (WalEntry Hash)} {next n : ℕ}
variable {ps : List (WalPayload Hash)}

theorem nextOf_of_last {skip : Option ℕ} {l : ℕ} (h : lastSeqOf none es = some l) :
    nextOf skip es = l + 1 := by
  unfold lastSeqOf at h
  unfold nextOf lastSeqOf
  rw [Option.or_none] at h
  rw [h]
  rfl

theorem nextOf_of_none {skip : Option ℕ} (h : lastSeqOf none es = none) :
    nextOf skip es = nextOf skip ([] : List (WalEntry Hash)) := by
  unfold lastSeqOf at h
  unfold nextOf lastSeqOf
  rw [Option.or_none] at h
  rw [h]
  rfl

/-- The part of the log that is kept reads as the same entries. -/
theorem Scans.kept (h : Scans W N MAX_DEPTH log log' es) : Scans W N MAX_DEPTH log' log' es := by
  obtain ⟨hdr, w, v, hhdr, -, hreads, rfl⟩ := h
  refine ⟨hdr, w, [], hhdr, by rw [List.append_nil], ?_, rfl⟩
  have h := hreads.append (.ends (.torn (torn_nil W.crc)))
  rwa [List.append_nil es] at h

theorem Scans.log_ne_nil (h : Scans W N MAX_DEPTH log log' es) : log ≠ [] := by
  obtain ⟨hdr, w, v, hhdr, rfl, -, -⟩ := h
  simp [hhdr.ne_nil]

theorem scans_headerBytes (hW : W.Lawful) :
    Scans W N MAX_DEPTH (headerBytes W N MAX_DEPTH) (headerBytes W N MAX_DEPTH) [] :=
  ⟨_, [], [], isHeader_headerBytes hW, by simp, .ends (.torn (torn_nil W.crc)), by simp⟩

/-- Entries that continue the sequence are read behind those of the log. -/
theorem Scans.append (hW : W.Lawful) (h : Scans W N MAX_DEPTH log log' es)
    (hps : Appendable W N MAX_DEPTH next n ps)
    (hnext : ∀ l, lastSeqOf none es = some l → l + 1 = next) {v : List UInt8}
    (hv : Torn W.crc v) :
    Scans W N MAX_DEPTH (log' ++ (framesFrom W next ps ++ v)) (log' ++ framesFrom W next ps)
      (es ++ entriesFrom next ps) := by
  obtain ⟨hdr, w, u, hhdr, -, hreads, rfl⟩ := h
  have hlast : ∀ l, lastSeqOf none es = some l → l + 1 < U64_SIZE := by
    intro l hl
    have h1 := hnext l hl
    have h2 := hps.seqs
    omega
  have hnew := (@reads_framesFrom _ _ hW _ _ (lastSeqOf none es)) hps.fit hps.seqs.le hnext hlast
    (.torn hv)
  refine ⟨hdr, w ++ framesFrom W next ps, v, hhdr, ?_, ?_, ?_⟩
  · simp only [List.append_assoc]
  · rw [List.append_assoc]
    exact hreads.append hnew
  · rw [List.append_assoc]

/-- Entries numbered after the checkpoint are replayed. -/
theorem replayed_entriesFrom {skip : Option ℕ} (hskip : ∀ s, skip = some s → s < next) :
    replayed skip (entriesFrom next ps) = ps.flatMap (·.leaves) := by
  induction ps generalizing next with
  | nil => rfl
  | cons p ps ih =>
      have hrep : shouldReplay skip next = true := by
        cases skip with
        | none => rfl
        | some s => exact decide_eq_true (hskip s rfl)
      rw [entriesFrom, replayed_cons, if_pos hrep, List.flatMap_cons,
        ih fun s hs => (hskip s hs).trans (Nat.lt_succ_self _)]

/-- Entries numbered up to the checkpoint are not. -/
theorem replayed_passed {s : ℕ} (hs : next + ps.length ≤ s + 1) :
    replayed (some s) (entriesFrom next ps) = [] := by
  induction ps generalizing next with
  | nil => rfl
  | cons p ps ih =>
      rw [List.length_cons] at hs
      have hrep : ¬ shouldReplay (some s) next = true := by
        simp only [shouldReplay, decide_eq_true_eq]
        omega
      rw [entriesFrom, replayed_cons, if_neg hrep, ih (by omega), List.append_nil]

/-- The log with the new entries has the next number behind them. -/
theorem nextOf_append (skip : Option ℕ) (hnext : nextOf skip es = next) :
    nextOf skip (es ++ entriesFrom next ps) = next + ps.length := by
  unfold nextOf at hnext ⊢
  have happ : lastSeqOf skip (es ++ entriesFrom next ps) =
      lastSeqOf (lastSeqOf skip es) (entriesFrom next ps) := by
    unfold lastSeqOf
    rw [List.getLast?_append]
    cases (entriesFrom next ps).getLast? <;> rfl
  rw [happ, lastSeqOf_entriesFrom]
  split_ifs with hps
  · rw [hps]
    exact hnext
  · have := List.length_pos_iff.mpr hps
    dsimp only
    omega

end Append

/-! ### A checkpoint of a few leaves -/

/-- The files of a checkpoint over a few leaves, one chunk a level. -/
def checkpointShards (N : ℕ) (H : Hasher Hash32) (L : List Hash32) : ShardFiles Hash32 :=
  fun k shard =>
    if shard = 0 then
      some (.synced (storedLevel N H.hashChildren L k ++ List.replicate CHUNK_SIZE 0))
    else none

/-- The directory after a checkpoint over a few leaves, with a given log. -/
def checkpointDisk (N MAX_DEPTH : ℕ) (H : Hasher Hash32) (L : List Hash32) (s : ℕ)
    (log : List UInt8) : Disk Hash32 where
  wal := .synced log
  dataDir := true
  headerFile := some (frameOf wincode.crc (wincode.headerFrame.serialize
    ⟨HEADER_MAGIC, N % U32_SIZE, MAX_DEPTH % U32_SIZE, CHUNK_SIZE % U32_SIZE⟩))
  metaFile := some (frameOf wincode.crc (wincode.metaFrame.serialize
    (metaOf N MAX_DEPTH L s ((LeanTree.root N H.hashChildren L).getD 0))))
  shards := checkpointShards N H L

theorem nowSat_checkpointShards {N k p : ℕ} {H : Hasher Hash32} {L : List Hash32} (hN : 2 ≤ N)
    (hL : L.length ≤ CHUNK_SIZE)
    (hp : p < (storedLevel N H.hashChildren L k).length ⌈/⌉ CHUNK_SIZE * CHUNK_SIZE) :
    NowSat (checkpointShards N H L) k p (IsNode (storedLevel N H.hashChildren L k) p) := by
  have hlen : (storedLevel N H.hashChildren L k).length ≤ CHUNK_SIZE := by
    rcases Nat.lt_or_ge (Nat.clog N L.length) k with hk | hk
    · rw [storedLevel_of_lt hk]
      exact Nat.zero_le _
    · rw [storedLevel_of_le hk, LeanTree.length_level (by omega)]
      refine le_trans ?_ hL
      rw [ceilDiv_le_iff_le_mul (Nat.pow_pos (by omega))]
      exact Nat.le_mul_of_pos_left _ (Nat.pow_pos (by omega))
  have hone : (storedLevel N H.hashChildren L k).length ⌈/⌉ CHUNK_SIZE ≤ 1 := by
    rw [ceilDiv_le_iff_le_mul CHUNK_SIZE_pos, Nat.mul_one]
    exact hlen
  have hp' : p < CHUNK_SIZE := by
    have := Nat.mul_le_mul_right CHUNK_SIZE hone
    omega
  have hshard : shardOf p = 0 := by rw [shardOf, Nat.div_eq_of_lt hp', Nat.zero_div]
  have hslot : slotOf p = p := by
    rw [slotOf, Nat.div_eq_of_lt hp', Nat.zero_mod, Nat.zero_mul, Nat.zero_add,
      Nat.mod_eq_of_lt hp']
  have hread : p < (storedLevel N H.hashChildren L k ++ List.replicate CHUNK_SIZE 0).length := by
    rw [List.length_append, List.length_replicate]
    omega
  refine ⟨_, if_pos hshard,
    (storedLevel N H.hashChildren L k ++ List.replicate CHUNK_SIZE 0)[p], ?_, ?_⟩
  · rw [hslot]
    exact List.getElem?_eq_getElem hread
  · intro hnode
    rw [List.getElem_append_left hnode, List.getElem?_eq_getElem hnode]

theorem checkpointDisk_readMeta {N MAX_DEPTH : ℕ} {H : Hasher Hash32} {L : List Hash32} {s : ℕ}
    (hD : MAX_DEPTH < U32_SIZE) (hL : L.length < U64_SIZE) (hs : s < U64_SIZE)
    (hdepth : Nat.clog N L.length ≤ MAX_DEPTH) (log : List UInt8) :
    readMeta wincode (checkpointDisk N MAX_DEPTH H L s log).metaFile =
      .ok (some (metaOf N MAX_DEPTH L s ((LeanTree.root N H.hashChildren L).getD 0))) := by
  have hin : (metaOf N MAX_DEPTH L s ((LeanTree.root N H.hashChildren L).getD 0)).InRange :=
    ⟨rfl, Nat.mod_lt _ (by decide), Nat.mod_lt _ (by decide), hs, hL, lt_of_le_of_lt hdepth hD⟩
  obtain ⟨hrt, hlen⟩ := wincode_lawful.metaFrame _ hin
  unfold readMeta checkpointDisk
  rw [readFrameFile_frameOf hlen hrt]
  rfl

theorem checkpointDisk_headerValid (N MAX_DEPTH : ℕ) (H : Hasher Hash32) (L : List Hash32) (s : ℕ)
    (log : List UInt8) : HeaderValid wincode N MAX_DEPTH (checkpointDisk N MAX_DEPTH H L s log) := by
  have hin : (⟨HEADER_MAGIC, N % U32_SIZE, MAX_DEPTH % U32_SIZE, CHUNK_SIZE % U32_SIZE⟩ :
      HeaderFrame).InRange :=
    ⟨rfl, Nat.mod_lt _ (by decide), Nat.mod_lt _ (by decide), Nat.mod_lt _ (by decide)⟩
  obtain ⟨hrt, hlen⟩ := wincode_lawful.headerFrame _ hin
  refine ⟨⟨HEADER_MAGIC, N % U32_SIZE, MAX_DEPTH % U32_SIZE, CHUNK_SIZE % U32_SIZE⟩, ?_, rfl, rfl,
    rfl⟩
  unfold readHeader checkpointDisk
  rw [readFrameFile_frameOf hlen hrt]
  rfl

theorem checkpointDisk_holds {N MAX_DEPTH : ℕ} {H : Hasher Hash32} (hN : 2 ≤ N)
    (hD : MAX_DEPTH < U32_SIZE) {L : List Hash32} (hL : L.length ≤ CHUNK_SIZE) {s : ℕ}
    (hs : s < U64_SIZE) (hdepth : Nat.clog N L.length ≤ MAX_DEPTH) (log : List UInt8) :
    HoldsCheckpoint wincode H N MAX_DEPTH (checkpointDisk N MAX_DEPTH H L s log) L s where
  metaFile := by
    refine ⟨_, checkpointDisk_readMeta hD (lt_of_le_of_lt hL (by decide)) hs hdepth log, ?_⟩
    intro hne
    obtain ⟨rootHash, hroot, -⟩ := LeanTree.root_eq_some (h := H.hashChildren)
      (show 1 < N by omega) hne
    rw [hroot]
    rfl
  header := checkpointDisk_headerValid ..
  files := fun _ _ _ hp => nowSat_checkpointShards hN hL hp

/-! ### The next recovery -/

section Resume

variable [Zero Hash] [DecidableEq Hash] {W : Wire Hash} {H : Hasher Hash} {par : ℕ → ℕ → Bool}
variable {disk : Disk Hash} {L : List Hash} {skip : Option ℕ} {es : List (WalEntry Hash)}
variable {log : List UInt8} {ps : List (WalPayload Hash)} {verify : Bool}
variable {r : RecoveryResult Hash N MAX_DEPTH}

/-- What a recovery that returned has read, and what it left: a log that reads as the same
entries. -/
theorem recovered_log (hW : W.Lawful) (hH : H.Lawful) (hN : 2 ≤ N) (hD : 1 ≤ MAX_DEPTH)
    (hbase : Base W H N MAX_DEPTH disk L skip)
    (hrec : recoverWithCheckpoint W H par disk verify = .ok r) :
    ∃ es, Scans W N MAX_DEPTH r.wal.now r.wal.now es ∧ ReplayOk N MAX_DEPTH L.length skip es ∧
      Recovered disk.shards.fs H (L ++ replayed skip es) (nextOf skip es) r.wal.now r ∧
      (disk.wal.now = [] ∧ es = [] ∨ Scans W N MAX_DEPTH disk.wal.now r.wal.now es) := by
  by_cases hne : disk.wal.now = []
  · have hhdr := (@scans_headerBytes _ N MAX_DEPTH) hW
    have hwal : (disk.wal.write 0 (headerBytes W N MAX_DEPTH)).sync.now =
        headerBytes W N MAX_DEPTH := by
      rw [CrashFile.sync, CrashFile.now_synced, CrashFile.write, CrashFile.now_become, hne]
      exact (CrashFile.writeAt_append [] [] _).trans (by simp)
    have hrec' : r = ⟨r.inner, nextOf skip ([] : List (WalEntry Hash)),
        (disk.wal.write 0 (headerBytes W N MAX_DEPTH)).sync, (headerBytes W N MAX_DEPTH).length⟩ ∧
        Refines disk.shards.fs H r.inner L := by
      cases hbase with
      | none h =>
          rw [h.recover verify, recover, if_pos (by rw [hne]; rfl), serializeHeader_eq hW] at hrec
          cases hrec
          exact ⟨rfl, refines_new hN⟩
      | @checkpoint L s h =>
          obtain ⟨inner, href, -, hload⟩ := (@HoldsCheckpoint.recover _ _ _ _ _ _ _ par) hN hD h verify
          rw [hload, replayDelta, if_pos (by rw [hne]; rfl), serializeHeader_eq hW,
            Outcome.ok_bind] at hrec
          by_cases hs : s + 1 < U64_SIZE
          · rw [nextAfter_of_lt hs] at hrec
            cases hrec
            exact ⟨rfl, href⟩
          · rw [nextAfter_of_not hs] at hrec
            cases hrec
    obtain ⟨hr, href⟩ := hrec'
    have hlog : r.wal.now = headerBytes W N MAX_DEPTH := by rw [hr]; exact hwal
    refine ⟨[], hlog ▸ hhdr, ⟨by simp, .inl rfl⟩, ⟨?_, by rw [hr], rfl, ?_⟩, .inl ⟨hne, rfl⟩⟩
    · rw [replayed_nil, List.append_nil]
      exact href
    · rw [hlog, hr]
  · rcases (@recoverWithCheckpoint_spec _ _ _ _ _ _ _ par) hH hN hD hbase hne verify with
      ⟨es, kept, r', hs, hok, -, hrec', hr⟩ | ⟨⟨err, herr⟩, -⟩
    · rw [hrec', Except.ok.injEq] at hrec
      subst hrec
      obtain rfl := hr.wal
      exact ⟨es, hs.kept, hok, hr, .inr hs⟩
    · rw [herr] at hrec
      cases hrec

/-- Recovery from a log that recovery left, with more entries behind it. -/
theorem resumed_recovers (hW : W.Lawful) (hH : H.Lawful) (hN : 2 ≤ N) (hD : 1 ≤ MAX_DEPTH)
    (hbase : Base W H N MAX_DEPTH disk L skip) (hscan : Scans W N MAX_DEPTH log log es)
    (hok : ReplayOk N MAX_DEPTH L.length skip es)
    (hps : Appendable W N MAX_DEPTH (nextOf skip es) (L ++ replayed skip es).length ps)
    (hnew : ReplayOk N MAX_DEPTH (L ++ replayed skip es).length skip
      (entriesFrom (nextOf skip es) ps))
    {wal' : CrashFile UInt8} (hwal : wal'.now = log ++ framesFrom W (nextOf skip es) ps)
    (verify : Bool) (par : ℕ → ℕ → Bool) :
    ∃ r' : RecoveryResult Hash N MAX_DEPTH,
      recoverWithCheckpoint W H par { disk with wal := wal' } verify = .ok r' ∧
      Recovered disk.shards.fs H
        (L ++ replayed skip es ++ replayed skip (entriesFrom (nextOf skip es) ps))
        (nextOf skip es + ps.length) wal'.now r' := by
  have hscan' := hscan.append hW hps (fun l hl => (nextOf_of_last hl).symm) (torn_nil _)
  rw [List.append_nil, ← hwal] at hscan'
  have hne : ({ disk with wal := wal' } : Disk Hash).wal.now ≠ [] := hwal ▸ by
    simp [hscan.ne_nil]
  rcases (@recoverWithCheckpoint_spec _ _ _ _ _ _ _ par) hH hN hD (hbase.withWal wal') hne verify with
    ⟨es', kept', r', hs, -, -, hrec, hr⟩ | ⟨-, hno⟩
  · obtain ⟨rfl, rfl⟩ := hs.unique hscan'
    rw [nextOf_append skip rfl, replayed_append, ← List.append_assoc] at hr
    exact ⟨r', hrec, hr⟩
  · refine absurd ⟨⟨?_, ?_⟩, ?_⟩ (hno _ _ hscan')
    · intro e he
      cases List.mem_append.mp he with
      | inl he => exact hok.brings e he
      | inr he => exact hnew.brings e he
    · rw [replayed_append, canAdd_append, ← List.length_append]
      exact ⟨hok.fits, hnew.fits⟩
    · rw [nextOf_append skip rfl]
      exact hps.seqs

/-- **Entries written after a recovery survive the next one**, exactly when the log of the
first recovery reaches the checkpoint. -/
theorem resumed_entries_survive_iff (hW : W.Lawful) (hH : H.Lawful) (hN : 2 ≤ N)
    (hD : 1 ≤ MAX_DEPTH) {s : ℕ} (hck : HoldsCheckpoint W H N MAX_DEPTH disk L s)
    (hrec : recoverWithCheckpoint W H par disk verify = .ok r) :
    ∃ L₁, Refines disk.shards.fs H r.inner L₁ ∧
      ((s < r.nextSeq ∧ ∀ ps, Appendable W N MAX_DEPTH r.nextSeq L₁.length ps →
          ∀ wal' : CrashFile UInt8, wal'.now = r.wal.now ++ framesFrom W r.nextSeq ps →
          ∀ verify' par', ∃ r' : RecoveryResult Hash N MAX_DEPTH,
            recoverWithCheckpoint W H par' { disk with wal := wal' } verify' = .ok r' ∧
            Refines disk.shards.fs H r'.inner (L₁ ++ ps.flatMap (·.leaves))) ↔
        ReachesCheckpoint W N MAX_DEPTH disk.wal.now s) := by
  obtain ⟨es, hscan, hok, hr, hfrom⟩ := recovered_log hW hH hN hD (.checkpoint hck) hrec
  refine ⟨_, hr.tree, ?_, ?_⟩
  · rintro ⟨hnext, -⟩
    rw [hr.nextSeq] at hnext
    cases hfrom with
    | inl h => exact .inl h.1
    | inr h =>
        refine .inr ⟨es, _, h, fun l hl => ?_⟩
        rw [nextOf_of_last hl] at hnext
        omega
  · intro hreach
    have hlt : s < nextOf (some s) es := by
      cases hlast : lastSeqOf none es with
      | none =>
          rw [nextOf_of_none hlast]
          exact Nat.lt_succ_self s
      | some l =>
          rw [nextOf_of_last hlast]
          cases hfrom with
          | inl h =>
              rw [h.2] at hlast
              cases hlast
          | inr h =>
              cases hreach with
              | inl h0 => exact absurd h0 h.log_ne_nil
              | inr hreach =>
                  obtain ⟨es', kept', hs', hle⟩ := hreach
                  obtain ⟨rfl, -⟩ := hs'.unique h
                  have := hle l hlast
                  omega
    refine ⟨by rw [hr.nextSeq]; exact hlt, ?_⟩
    intro ps hps wal' hwal verify' par'
    rw [hr.nextSeq] at hps hwal
    have hleaves : replayed (some s) (entriesFrom (nextOf (some s) es) ps) =
        ps.flatMap (·.leaves) := replayed_entriesFrom (by rintro _ ⟨⟩; exact hlt)
    obtain ⟨r', hrec', hr'⟩ := resumed_recovers hW hH hN hD (.checkpoint hck) hscan hok hps
      ⟨fun e he _ => hps.brings _ (mem_entriesFrom he).1, by rw [hleaves]; exact hps.room⟩ hwal
      verify' par'
    rw [hleaves] at hr'
    exact ⟨r', hrec', hr'.tree⟩

/-- Otherwise the entries numbered up to the checkpoint are lost. -/
theorem passed_entries_lost (hW : W.Lawful) (hH : H.Lawful) (hN : 2 ≤ N) (hD : 1 ≤ MAX_DEPTH)
    {s : ℕ} (hck : HoldsCheckpoint W H N MAX_DEPTH disk L s)
    (hrec : recoverWithCheckpoint W H par disk verify = .ok r)
    (hnot : ¬ ReachesCheckpoint W N MAX_DEPTH disk.wal.now s) :
    ∃ L₁, Refines disk.shards.fs H r.inner L₁ ∧ r.nextSeq ≤ s ∧
      ∀ ps, Appendable W N MAX_DEPTH r.nextSeq L₁.length ps → r.nextSeq + ps.length ≤ s + 1 →
        ∀ wal' : CrashFile UInt8, wal'.now = r.wal.now ++ framesFrom W r.nextSeq ps →
        ∀ verify' par', ∃ r' : RecoveryResult Hash N MAX_DEPTH,
          recoverWithCheckpoint W H par' { disk with wal := wal' } verify' = .ok r' ∧
          Refines disk.shards.fs H r'.inner L₁ := by
  obtain ⟨es, hscan, hok, hr, hfrom⟩ := recovered_log hW hH hN hD (.checkpoint hck) hrec
  refine ⟨_, hr.tree, ?_, ?_⟩
  · cases hfrom with
    | inl h => exact absurd (.inl h.1) hnot
    | inr h =>
        by_contra hlt
        refine hnot (.inr ⟨es, _, h, fun l hl => ?_⟩)
        rw [hr.nextSeq, nextOf_of_last hl] at hlt
        omega
  · intro ps hps hpassed wal' hwal verify' par'
    rw [hr.nextSeq] at hps hwal hpassed
    have hskipped : replayed (some s) (entriesFrom (nextOf (some s) es) ps) = [] :=
      replayed_passed hpassed
    have hnew : ReplayOk N MAX_DEPTH (L ++ replayed (some s) es).length (some s)
        (entriesFrom (nextOf (some s) es) ps) :=
      ⟨fun e he _ => hps.brings _ (mem_entriesFrom he).1, .inl hskipped⟩
    obtain ⟨r', hrec', hr'⟩ := resumed_recovers hW hH hN hD (.checkpoint hck) hscan hok hps hnew
      hwal verify' par'
    rw [hskipped, List.append_nil] at hr'
    exact ⟨r', hrec', hr'.tree⟩

end Resume

/-- A log that the checkpoint has cut keeps what is written into it next. -/
theorem cut_log_keeps_entries :
    ∃ (r : RecoveryResult Hash32 2 10) (L₁ : List Hash32),
      recoverWithCheckpoint wincode xorHasher (fun _ _ => false) (checkpointDisk 2 10 xorHasher
        [testLeaf 1, testLeaf 2] 1 (headerBytes wincode 2 10)) true = .ok r ∧
      1 < r.nextSeq ∧ ∀ ps, Appendable wincode 2 10 r.nextSeq L₁.length ps →
        ∃ r' : RecoveryResult Hash32 2 10,
          recoverWithCheckpoint wincode xorHasher (fun _ _ => false) { checkpointDisk 2 10 xorHasher
            [testLeaf 1, testLeaf 2] 1 (headerBytes wincode 2 10) with
              wal := .synced (r.wal.now ++ framesFrom wincode r.nextSeq ps) } true = .ok r' ∧
          Refines (checkpointShards 2 xorHasher [testLeaf 1, testLeaf 2]).fs xorHasher r'.inner
            (L₁ ++ ps.flatMap (·.leaves)) := by
  have hck := (@checkpointDisk_holds 2 10 xorHasher) (by decide)
    (by decide) (L := [testLeaf 1, testLeaf 2]) (s := 1) (by decide) (by decide) (by decide)
    (headerBytes wincode 2 10)
  have hlog : LogOk wincode 2 10 [testLeaf 1, testLeaf 2] (some 1) 0 [] :=
    ⟨trivial, by simp, by decide, by decide, .inl rfl⟩
  obtain ⟨r, hrec, -⟩ := hlog.recovers wincode_lawful (Hasher.scalar_lawful _) (by decide)
    (by decide) (.checkpoint hck) (torn_nil _) (by simp [checkpointDisk, framesFrom]) true
    (fun _ _ => false)
  obtain ⟨L₁, -, hiff⟩ := resumed_entries_survive_iff wincode_lawful (Hasher.scalar_lawful _)
    (by decide) (by decide) hck hrec
  obtain ⟨hnext, hall⟩ := hiff.mpr
    (.inr ⟨[], _, scans_headerBytes wincode_lawful, by rintro l ⟨⟩⟩)
  exact ⟨r, L₁, hrec, hnext, fun ps hps => hall ps hps _ rfl _ _⟩

/-- A checkpoint over two leaves; the log still has both entries, and the second is cut. -/
def olderLog : Disk Hash32 :=
  checkpointDisk 2 10 xorHasher [testLeaf 1, testLeaf 2] 1 (headerBytes wincode 2 10 ++
    (framesFrom wincode 0 [.single (testLeaf 1), .single (testLeaf 2)]).take 100)

/-- The entry written after the recovery gets the number of the checkpoint, and is gone. -/
theorem older_log_loses_entry :
    HoldsCheckpoint wincode xorHasher 2 10 olderLog [testLeaf 1, testLeaf 2] 1 ∧
    ∃ r r' : RecoveryResult Hash32 2 10,
      recoverWithCheckpoint wincode xorHasher (fun _ _ => false) olderLog true = .ok r ∧
      r.nextSeq = 1 ∧
      Refines olderLog.shards.fs xorHasher r.inner [testLeaf 1, testLeaf 2] ∧
      Appendable wincode 2 10 r.nextSeq 2 [.single (testLeaf 3)] ∧
      recoverWithCheckpoint wincode xorHasher (fun _ _ => false) { olderLog with
        wal := .synced (r.wal.now ++ framesFrom wincode r.nextSeq [.single (testLeaf 3)]) } true =
          .ok r' ∧
      Refines olderLog.shards.fs xorHasher r'.inner [testLeaf 1, testLeaf 2] := by
  have hck : HoldsCheckpoint wincode xorHasher 2 10 olderLog [testLeaf 1, testLeaf 2] 1 :=
    checkpointDisk_holds (by decide) (by decide) (by decide) (by decide) (by decide) _
  have hfit : ∀ seq leaf, AllFit wincode seq [.single leaf] :=
    fun seq leaf => ⟨wincode_lawful.single _ _, trivial⟩
  have hsize : ∀ seq leaf, (entryBytes wincode seq (.single leaf)).length = 56 := by
    intro seq leaf
    simp [entryBytes, length_frameOf, wincode, walEntryCodec, putPayload]
  have hlog : LogOk wincode 2 10 [testLeaf 1, testLeaf 2] (some 1) 0 [.single (testLeaf 1)] :=
    ⟨hfit _ _, by simp [WalPayload.leaves], by decide, by decide, .inl rfl⟩
  obtain ⟨v, hv, htorn⟩ := take_framesFrom (W := wincode) 0 100
    [.single (testLeaf 1), .single (testLeaf 2)] ⟨wincode_lawful.single _ _, hfit _ _⟩
  have hwhole : wholeEntries wincode 0 100 [.single (testLeaf 1), .single (testLeaf 2)] =
      [.single (testLeaf 1)] := by
    simp [wholeEntries, hsize]
  rw [hwhole] at hv
  obtain ⟨r, hrec, hr⟩ := hlog.recovers wincode_lawful (Hasher.scalar_lawful _) (by decide)
    (by decide) (.checkpoint hck) htorn (congrArg (headerBytes wincode 2 10 ++ ·) hv) true
    (fun _ _ => false)
  have hnext : r.nextSeq = 1 := hr.nextSeq
  have happ : Appendable wincode 2 10 1 2 [.single (testLeaf 3)] :=
    ⟨hfit _ _, by simp [WalPayload.leaves], by decide, .inr ⟨by decide, by decide⟩⟩
  have hscan := (@LogOk.scans _ 2 10) wincode_lawful hlog htorn
  rw [← show olderLog.wal.now = _ from congrArg (headerBytes wincode 2 10 ++ ·) hv] at hscan
  have hnot : ¬ ReachesCheckpoint wincode 2 10 olderLog.wal.now 1 := by
    rintro (h | ⟨es, kept, hs, hle⟩)
    · exact hscan.log_ne_nil h
    · obtain ⟨rfl, -⟩ := hs.unique hscan
      exact absurd (hle 0 rfl) (by decide)
  obtain ⟨L₁, href, -, hlost⟩ := passed_entries_lost wincode_lawful (Hasher.scalar_lawful _)
    (by decide) (by decide) hck hrec hnot
  obtain rfl := href.unique (by decide) hr.tree
  obtain ⟨r', hrec', href'⟩ := hlost [.single (testLeaf 3)] (by rw [hnext]; exact happ)
    (by rw [hnext]; decide) (.synced (r.wal.now ++ framesFrom wincode r.nextSeq
      [.single (testLeaf 3)])) rfl true (fun _ _ => false)
  exact ⟨hck, r, r', hrec, hnext, hr.tree, hnext ▸ happ, hrec', href'⟩

end Works.Rotortree
