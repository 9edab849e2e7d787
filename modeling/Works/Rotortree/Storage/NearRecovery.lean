import Works.Rotortree.Storage.Replay

/-! # Recovery while a checkpoint was being written

A checkpoint overwrites the last chunk of a level in place, before the metadata is switched.  After
a crash in between, the files hold the complete nodes of the tree in the metadata
(`NearCheckpoint`), but its last nodes may be those of a later tree.  What is loaded is
`Near`, and becomes right with the first leaf that is replayed on it. -/

namespace Works.Rotortree

open Works.Lib ChunkedLevel

variable {Hash : Type} {N MAX_DEPTH : ℕ}

/-- The checkpoint files hold the complete nodes of the tree over `L`. -/
structure NearCheckpoint (W : Wire Hash) (H : Hasher Hash) (N MAX_DEPTH : ℕ) (disk : Disk Hash)
    (L : List Hash) (s : ℕ) : Prop where
  metaFile : ∃ rootHash, readMeta W disk.metaFile = .ok (some (metaOf N MAX_DEPTH L s rootHash)) ∧
    (L ≠ [] → LeanTree.root N H.hashChildren L = some rootHash)
  header : HeaderValid W N MAX_DEPTH disk
  files : ∀ k < MAX_DEPTH,
    ∀ p < (storedLevel N H.hashChildren L k).length ⌈/⌉ CHUNK_SIZE * CHUNK_SIZE,
      NowSat disk.shards k p fun x =>
        (p + 1) * N ^ k ≤ L.length → (storedLevel N H.hashChildren L k)[p]? = some x

section Load

variable [Zero Hash] [DecidableEq Hash] {W : Wire Hash} {H : Hasher Hash} {par : ℕ → ℕ → Bool}
variable {disk : Disk Hash} {L : List Hash} {s : ℕ}

/-- Such a checkpoint loads, verified or not, as a tree whose complete nodes are right. -/
theorem NearCheckpoint.recover (hN : 2 ≤ N) (hD : 1 ≤ MAX_DEPTH)
    (h : NearCheckpoint W H N MAX_DEPTH disk L s) (verify : Bool) :
    ∃ inner : TreeInner Hash N MAX_DEPTH, Near disk.shards.fs H inner L ∧
      (∀ k : Fin MAX_DEPTH, AtHome k (inner.levels k)) ∧
      recoverWithCheckpoint W H par disk verify =
        replayDelta W H par disk.shards.fs disk.wal inner s := by
  obtain ⟨rootHash, hmeta, hroot⟩ := h.metaFile
  obtain ⟨hd, hread, hheader⟩ := h.header
  have hlarge : LargeEnough disk.shards N MAX_DEPTH L.length (Nat.clog N L.length) := by
    intro k hk p hp
    have hlen := length_storedLevel (H := H) hN L k
    rw [if_pos (by omega)] at hlen
    rw [← hlen] at hp
    exact (h.files k (by omega) p hp).imp fun _ _ => trivial
  obtain ⟨inner, hload, hsize, hdepth, hr, hlevels⟩ :=
    loadCheckpoint_spec (m := metaOf N MAX_DEPTH L s rootHash) hlarge
  change ∀ k : Fin MAX_DEPTH, _ ∧ Holds disk.shards.fs (inner.levels k)
    (if k.val ≤ Nat.clog N L.length then
      storedNodes disk.shards.fs k (levelLen N L.length k) else []) at hlevels
  have hinner : inner.root = LeanTree.root N H.hashChildren L := by
    rw [hr]
    by_cases hL : L = []
    · rw [hL, LeanTree.root_nil (by omega)]
      rfl
    · rw [hroot hL]
      exact if_pos (List.length_pos_iff.mpr hL)
  have hnear : Near disk.shards.fs H inner L := by
    refine ⟨hsize, fun k => ⟨_, (hlevels k).2, ?_, ?_⟩⟩
    · rw [length_storedLevel hN]
      split_ifs
      · exact length_storedNodes _ _ _
      · rfl
    · intro j hj
      have hcomplete : (j + 1) * N ^ k.val ≤ L.length :=
        (Nat.le_div_iff_mul_le (Nat.pow_pos (by omega))).mp hj
      obtain ⟨hk, hlt⟩ := complete_bounds (h := H.hashChildren) hN hcomplete
      have hlen := length_storedLevel (H := H) hN L k
      rw [if_pos hk] at hlen
      rw [if_pos hk, getElem?_storedNodes (hlt.trans_eq hlen), ← storedLevel_of_le hk]
      exact ((h.files k k.isLt j (lt_chunks_of_lt hlt)).nodeAt hcomplete).symm
  refine ⟨inner, hnear, fun k => (hlevels k).1, ?_⟩
  have hcomputed := recomputeRoot_spec (H := H) hN hD hsize (hnear.levels ⟨0, hD⟩).leaves
  rw [hdepth] at hcomputed
  unfold recoverWithCheckpoint
  rw [hmeta, Outcome.ok_bind]
  dsimp only
  rw [if_neg (by simp [metaOf]), hread, Outcome.ok_bind]
  dsimp only
  rw [if_pos hheader, hload, Outcome.ok_bind, hcomputed, Outcome.ok_bind]
  split_ifs with hv hne
  · rw [hinner] at hne
    exact absurd rfl hne
  · rfl
  · rfl

end Load

/-! ### Logs of whole entries -/

section Log

variable [Zero Hash] {W : Wire Hash} {H : Hasher Hash} {fs : ShardFs Hash}
variable {R : TreeInner Hash N MAX_DEPTH → List Hash → Prop} {L : List Hash}
variable {inner : TreeInner Hash N MAX_DEPTH} {wal : CrashFile UInt8} {start : ℕ}
variable {qs : List (WalPayload Hash)} {v : List UInt8} {skip : Option ℕ}

/-- What recovery leaves of a log of whole entries: a tree, the next number, and the log with
nothing unsynced and the cursor at its end. -/
structure Replayed (W : Wire Hash) (R : TreeInner Hash N MAX_DEPTH → List Hash → Prop)
    (L : List Hash) (skip : Option ℕ) (start : ℕ) (qs : List (WalPayload Hash))
    (r : RecoveryResult Hash N MAX_DEPTH) : Prop where
  tree : R r.inner (L ++ replayed skip (entriesFrom start qs))
  nextSeq : r.nextSeq = nextOf skip (entriesFrom start qs)
  now : r.wal.now = headerBytes W N MAX_DEPTH ++ framesFrom W start qs
  past : r.wal.past = []
  cursor : r.cursor = r.wal.now.length

/-- A log that is cut is synced. -/
theorem replayFile_past {par : ℕ → ℕ → Bool} {inner' : TreeInner Hash N MAX_DEPTH}
    {last : Option ℕ} {wal' : CrashFile UInt8} {cursor : ℕ}
    (h : replayFile W H par fs wal inner skip = .ok (inner', last, wal', cursor))
    (hpast : wal.past = []) : wal'.past = [] := by
  unfold replayFile at h
  obtain ⟨⟨n, d, size⟩, -, h⟩ := Outcome.bind_eq_ok.mp h
  dsimp only at h
  split_ifs at h
  · cases h
  · obtain ⟨⟨t, l, off⟩, -, h⟩ := Outcome.bind_eq_ok.mp h
    dsimp only at h
    cases h
    split_ifs
    · rfl
    · exact hpast

/-- Reading such a log. -/
theorem replayFile_log (hW : W.Lawful) (hH : H.Lawful) (hN : 2 ≤ N) (hD : 1 ≤ MAX_DEPTH)
    (hR : Replayable fs H R) (ht : R inner L) (hok : LogOk W N MAX_DEPTH L skip start qs)
    (hv : Torn W.crc v) (hpast : wal.past = [])
    (hwal : wal.now = headerBytes W N MAX_DEPTH ++ (framesFrom W start qs ++ v))
    (par : ℕ → ℕ → Bool) :
    ∃ inner' wal' cursor, replayFile W H par fs wal inner skip =
        .ok (inner', lastSeqOf none (entriesFrom start qs), wal', cursor) ∧
      Replayed W R L skip start qs ⟨inner', nextOf skip (entriesFrom start qs), wal', cursor⟩ := by
  have hscans := (@LogOk.scans _ N MAX_DEPTH) hW hok hv
  rw [← hwal] at hscans
  rcases (@replayFile_spec _ _ _ _ W _ par) hH hN hD hR skip wal ht with
    ⟨es, kept, inner', wal', hs, -, hfile, hkept, hr⟩ | ⟨-, hno⟩
  · obtain ⟨rfl, rfl⟩ := hs.unique hscans
    exact ⟨inner', wal', _, hfile, hr, rfl, hkept, replayFile_past hfile hpast,
      congrArg List.length hkept.symm⟩
  · exact absurd hok.replayOk (hno _ _ hscans)

omit [Zero Hash] in
theorem log_ne_nil {xs : List UInt8} (hW : W.Lawful)
    (hwal : wal.now = headerBytes W N MAX_DEPTH ++ xs) : ¬ wal.now.length = 0 := by
  rw [hwal, List.length_append, Nat.add_eq_zero_iff, List.length_eq_zero_iff]
  exact fun h => (isHeader_headerBytes (N := N) hW).ne_nil h.1

/-- The end of `recover_with_checkpoint` on such a log. -/
theorem replayDelta_log (hW : W.Lawful) (hH : H.Lawful) (hN : 2 ≤ N) (hD : 1 ≤ MAX_DEPTH)
    (hR : Replayable fs H R) (ht : R inner L) {s : ℕ}
    (hok : LogOk W N MAX_DEPTH L (some s) start qs) (hv : Torn W.crc v) (hpast : wal.past = [])
    (hwal : wal.now = headerBytes W N MAX_DEPTH ++ (framesFrom W start qs ++ v))
    (par : ℕ → ℕ → Bool) :
    ∃ r, replayDelta W H par fs wal inner s = .ok r ∧ Replayed W R L (some s) start qs r := by
  obtain ⟨inner', wal', cursor, hfile, hr⟩ :=
    replayFile_log hW hH hN hD hR ht hok hv hpast hwal par
  have hnext : nextOf (some s) (entriesFrom start qs) =
      (lastSeqOf none (entriesFrom start qs)).getD s + 1 := by
    unfold nextOf lastSeqOf
    cases (entriesFrom start qs).getLast? <;> rfl
  refine ⟨_, ?_, hr⟩
  unfold replayDelta
  rw [if_neg (log_ne_nil hW hwal), hfile, Outcome.ok_bind]
  dsimp only
  rw [nextAfter_of_lt (by rw [← hnext]; exact hok.next_lt), Outcome.ok_bind, ← hnext]
  rfl

/-- `recover` on such a log. -/
theorem recover_log (hW : W.Lawful) (hH : H.Lawful) (hN : 2 ≤ N) (hD : 1 ≤ MAX_DEPTH)
    (hR : Replayable fs H R) (ht : R TreeInner.new []) (hok : LogOk W N MAX_DEPTH [] none start qs)
    (hv : Torn W.crc v) (hpast : wal.past = [])
    (hwal : wal.now = headerBytes W N MAX_DEPTH ++ (framesFrom W start qs ++ v))
    (par : ℕ → ℕ → Bool) :
    ∃ r, recover W H par fs wal = .ok r ∧ Replayed W R [] none start qs r := by
  obtain ⟨inner', wal', cursor, hfile, hr⟩ :=
    replayFile_log hW hH hN hD hR ht hok hv hpast hwal par
  have hlt := hok.next_lt
  refine ⟨_, ?_, hr⟩
  unfold recover
  rw [if_neg (log_ne_nil hW hwal), hfile, Outcome.ok_bind]
  unfold nextOf at hlt ⊢
  cases hlast : lastSeqOf none (entriesFrom start qs) with
  | none => rfl
  | some l =>
      rw [hlast] at hlt
      dsimp only
      rw [nextAfter_of_lt hlt]
      rfl

end Log

end Works.Rotortree
