import Works.Rotortree.Storage.CallLog
import Works.Rotortree.Storage.CheckpointSpec
import Works.Rotortree.Storage.Damage

/-! # Falling back to the log

When `checkpoint.meta` or `header.bin` is missing or not a frame, recovery replays the whole log
instead.  That is everything only as long as no checkpoint has cut the log: `LogFor` says that
the log holds the entries of all leaves from the first on, every step but the checkpoint of a
tree with leaves keeps it (`FullState.step`), and while it holds the fallback loses nothing
(`fallback_keeps_leaves`).  Once a checkpoint has cut the log, what is left of it is accepted as
if it were the whole log (`cut_log_accepted`). -/

namespace Works.Rotortree

open Works.Lib

variable {Hash : Type} {N MAX_DEPTH : ℕ}

/-! ### Files that are not frames -/

/-- No frame stands at the beginning of the bytes. -/
def NotFrame (crc : Crc) (bytes : List UInt8) : Prop :=
  ∀ p post, p.length ≤ MAX_FRAME_PAYLOAD → bytes ≠ frameOf crc p ++ post

/-- A file that is gone, or is not a frame. -/
def Unreadable (crc : Crc) (file : Option (List UInt8)) : Prop := ∀ bytes, file = some bytes →
  NotFrame crc bytes

theorem readFrameFile_unreadable {α : Type} {crc : Crc} {codec : Codec α}
    {file : Option (List UInt8)} (h : Unreadable crc file) :
    readFrameFile crc codec file = .ok none := by
  unfold readFrameFile
  cases file with
  | none => rfl
  | some bytes =>
      dsimp only
      rcases readFrame_cases crc [] bytes with ⟨-, hr⟩ | ⟨p, post, hp, hbytes, -⟩ | ⟨-, _, _, hr⟩
      · rw [List.nil_append, List.length_nil] at hr
        rw [hr]
      · exact absurd hbytes (h bytes rfl p post hp)
      · rw [List.nil_append, List.length_nil] at hr
        rw [hr]
        rfl

/-- One of the two files is gone or replaced by bytes that are not a frame. -/
inductive Tampered (crc : Crc) (disk : Disk Hash) : Disk Hash → Prop where
  | metaFile (dataDir : Bool) (file : Option (List UInt8)) (h : Unreadable crc file) :
      Tampered crc disk { disk with dataDir := dataDir, metaFile := file }
  | header (dataDir : Bool) (file : Option (List UInt8)) (h : Unreadable crc file) :
      Tampered crc disk { disk with dataDir := dataDir, headerFile := file }

/-! ### The whole log -/

/-- The bytes behind the header are the entries of the leaves `ls`, all of them, and `next` is the
number after the last one; or the numbers have run out. -/
inductive LogFor (W : Wire Hash) (ls : List Hash) (next : ℕ) (bytes : List UInt8) : Prop where
  | numbered (ps : List (WalPayload Hash)) (hbytes : bytes = framesFrom W 0 ps)
      (hfit : AllFit W 0 ps) (hbrings : ∀ p ∈ ps, p.leaves ≠ []) (hnext : next = ps.length)
      (hlt : next < U64_SIZE) (hls : ls = ps.flatMap (·.leaves))
  | overflow (ps : List (WalPayload Hash)) (junk : List UInt8)
      (hbytes : bytes = framesFrom W 0 ps ++ junk) (hfit : AllFit W 0 ps)
      (hlen : ps.length = U64_SIZE)

section Log

variable [Zero Hash] [DecidableEq Hash] {W : Wire Hash} {H : Hasher Hash} {disk : Disk Hash}
variable {ls : List Hash} {next : ℕ} {bytes : List UInt8}

/-- `open` without metadata. -/
theorem openTree_of_noMeta (hmeta : readMeta W disk.metaFile = .ok none) (pinAboveLevel : ℕ)
    (verify : Bool) (par : ℕ → ℕ → Bool) :
    (openTree W H pinAboveLevel verify par disk :
        Outcome StorageError (Shared Hash N MAX_DEPTH × Disk Hash)) = (do
      let r : RecoveryResult Hash N MAX_DEPTH ← recover W H par disk.shards.fs disk.wal
      pure ({ opened W N MAX_DEPTH pinAboveLevel with
        inner := r.inner
        nextSeq := r.nextSeq
        cursor := r.cursor
        snapshot := r.inner.snapshot
        flushed := if 0 < r.nextSeq then some (r.nextSeq - 1) else none },
        { disk with wal := r.wal })) := by
  have hfiles : computeInitialLevelFiles W N MAX_DEPTH disk.metaFile = .ok [] := by
    unfold computeInitialLevelFiles
    rw [hmeta]
    rfl
  have hrec : (recoverWithCheckpoint W H par disk verify :
      Outcome StorageError (RecoveryResult Hash N MAX_DEPTH)) =
      recover W H par disk.shards.fs disk.wal := FallsBack.recover (.noMeta hmeta) verify
  unfold openTree
  rw [hrec, hfiles, ite_self]
  rfl

omit [Zero Hash] [DecidableEq Hash] in
/-- Behind the last possible number nothing is read. -/
theorem reads_last {l : ℕ} (hl : l + 1 = U64_SIZE) {u v : List UInt8} {es : List (WalEntry Hash)}
    (h : Reads W (some l) u es v) : es = [] := by
  cases h with
  | ends => rfl
  | entry _ _ hseq =>
      have := (hseq l rfl).1
      omega

omit [DecidableEq Hash] in
/-- A log whose numbers have run out is refused. -/
theorem recover_overflow (hW : W.Lawful) (hH : H.Lawful) (hN : 2 ≤ N) (hD : 1 ≤ MAX_DEPTH)
    {ps : List (WalPayload Hash)} {junk : List UInt8} (hfit : AllFit W 0 ps)
    (hlen : ps.length = U64_SIZE) {wal : CrashFile UInt8}
    (hwal : wal.now = headerBytes W N MAX_DEPTH ++ (framesFrom W 0 ps ++ junk))
    (fs : ShardFs Hash) (par : ℕ → ℕ → Bool) :
    ∃ err, (recover W H par fs wal : Outcome StorageError (RecoveryResult Hash N MAX_DEPTH)) =
      .error err := by
  have hne : wal.now ≠ [] := by
    rw [hwal]
    simp [(isHeader_headerBytes hW).ne_nil]
  rcases (@recover_spec _ _ _ _ W H par fs) hH hN hD hne with
    ⟨es, kept, r, hs, -, hnext, -⟩ | ⟨herr, -⟩
  · exfalso
    obtain ⟨es', v, rfl, hreads⟩ := (scans_behind_iff hW (isHeader_headerBytes hW) hfit
      (by rw [hlen]; exact (Nat.zero_add _).le) hwal).mp ⟨kept, hs⟩
    have hps : ps ≠ [] := by
      rintro rfl
      rw [List.length_nil] at hlen
      exact absurd hlen (by decide)
    have hlast : lastSeqOf none (entriesFrom 0 ps) = some (U64_SIZE - 1) := by
      rw [lastSeqOf_entriesFrom, if_neg hps, hlen, Nat.zero_add]
    rw [hlast] at hreads
    rw [reads_last (by decide) hreads, List.append_nil, nextOf_of_last hlast] at hnext
    exact absurd hnext (by decide)
  · exact herr

/-- A directory without metadata whose log holds everything. -/
structure FullDisk (W : Wire Hash) (N MAX_DEPTH : ℕ) (disk : Disk Hash) (ls : List Hash) : Prop where
  noMeta : readMeta W disk.metaFile = .ok none
  log : disk.wal.now = [] ∧ ls = [] ∨ CanAdd N MAX_DEPTH 0 ls ∧ ∃ next bytes,
    LogFor W ls next bytes ∧ disk.wal.now = headerBytes W N MAX_DEPTH ++ bytes

omit [Zero Hash] [DecidableEq Hash] in
theorem FullDisk.of_eq {disk' : Disk Hash} (h : FullDisk W N MAX_DEPTH disk ls)
    (hmeta : disk'.metaFile = disk.metaFile) (hwal : disk'.wal.now = disk.wal.now) :
    FullDisk W N MAX_DEPTH disk' ls where
  noMeta := by
    rw [hmeta]
    exact h.noMeta
  log := by
    rw [hwal]
    exact h.log

/-- **Opening a directory whose log holds everything** gives the tree over all the leaves, unless
it fails. -/
theorem FullDisk.open (hW : W.Lawful) (hH : H.Lawful) (hN : 2 ≤ N) (hD : 1 ≤ MAX_DEPTH)
    (h : FullDisk W N MAX_DEPTH disk ls) (pinAboveLevel : ℕ) (verify : Bool)
    (par : ℕ → ℕ → Bool) :
    (∃ err, (openTree W H pinAboveLevel verify par disk :
      Outcome StorageError (Shared Hash N MAX_DEPTH × Disk Hash)) = .error err) ∨
    ∃ (t : Shared Hash N MAX_DEPTH) (disk' : Disk Hash) (ps : List (WalPayload Hash)),
      openTree W H pinAboveLevel verify par disk = .ok (t, disk') ∧
      Refines disk.shards.fs H t.inner ls ∧ disk'.shards = disk.shards ∧
      disk'.metaFile = disk.metaFile ∧
      LogFor W ls t.nextSeq (framesFrom W 0 ps) ∧ (ls = [] → ps = []) ∧
      disk'.wal.now = headerBytes W N MAX_DEPTH ++ framesFrom W 0 ps ∧
      t.cursor = disk'.wal.now.length ∧ t.buffer = [] ∧ t.holder = .free := by
  rw [openTree_of_noMeta h.noMeta]
  rcases h.log with ⟨hwal, rfl⟩ | ⟨hroom, next, bytes, hlog, hwal⟩
  · right
    have hnow : (disk.wal.write 0 (headerBytes W N MAX_DEPTH)).sync.now =
        headerBytes W N MAX_DEPTH := by
      rw [CrashFile.sync, CrashFile.now_synced, CrashFile.write, CrashFile.now_become, hwal]
      exact (CrashFile.writeAt_append [] [] _).trans (by simp)
    rw [recover, if_pos (by rw [hwal]; rfl), serializeHeader_eq hW]
    refine ⟨_, _, [], rfl, refines_new hN, rfl, rfl, ?_, fun _ => rfl, ?_, ?_, rfl, rfl⟩
    · exact .numbered [] rfl trivial (by simp) rfl (show 0 < U64_SIZE by decide) rfl
    · rw [framesFrom, List.append_nil]
      exact hnow
    · show (headerBytes W N MAX_DEPTH).length =
        (disk.wal.write 0 (headerBytes W N MAX_DEPTH)).sync.now.length
      rw [hnow]
  · cases hlog with
    | overflow ps junk hbytes hfit hlen =>
        left
        obtain ⟨err, herr⟩ := recover_overflow (H := H) hW hH hN hD hfit hlen
          (hwal.trans (by rw [hbytes])) disk.shards.fs par
        exact ⟨err, by rw [herr]; rfl⟩
    | numbered ps hbytes hfit hbrings hnext hlt hls =>
        right
        have hleaves : replayed none (entriesFrom 0 ps) = ps.flatMap (·.leaves) :=
          replayed_entriesFrom (by rintro l ⟨⟩)
        have hok : LogOk W N MAX_DEPTH ([] : List Hash) none 0 ps :=
          ⟨hfit, hbrings, by omega, show 0 < U64_SIZE by decide, by rw [hleaves, ← hls]; exact hroom⟩
        obtain ⟨r, hrec, hr⟩ := hok.recovers hW hH hN hD (.none (.noMeta h.noMeta)) (torn_nil _)
          (by rw [List.append_nil, ← hbytes]; exact hwal) verify par
        rw [FallsBack.recover (.noMeta h.noMeta)] at hrec
        rw [hrec]
        have htree := hr.tree
        rw [hleaves, List.nil_append, ← hls] at htree
        have hseq : r.nextSeq = next := by
          have := @nextOf_append Hash [] _ ps none rfl
          rw [hr.nextSeq, hnext]
          exact this.trans (Nat.zero_add _)
        refine ⟨_, _, ps, rfl, htree, rfl, rfl, ?_, ?_, hr.wal, ?_, rfl, rfl⟩
        · show LogFor W ls r.nextSeq _
          rw [hseq]
          exact .numbered ps rfl hfit hbrings hnext hlt hls
        · intro h0
          rw [h0] at hls
          by_contra hne
          obtain ⟨p, ps', rfl⟩ := List.exists_cons_of_ne_nil hne
          rw [List.flatMap_cons] at hls
          exact hbrings p List.mem_cons_self (List.append_eq_nil_iff.mp hls.symm).1
        · show r.cursor = r.wal.now.length
          rw [hr.cursor, hr.wal]

end Log

/-! ### Runs -/

namespace World

/-- The process has closed the tree: everything is flushed, and nobody works on the log. -/
def CleanlyClosed (w : World Hash N MAX_DEPTH) : Prop :=
  ∃ h, w.handle = some h ∧ h.closed = true ∧ h.holder = .free ∧ h.buffer = []

/-- The I/O calls of a checkpoint succeed, a flush that fails is rolled back, and a process ends
only behind a clean close, with the files as they are. -/
def Succeeds (w : World Hash N MAX_DEPTH) : Action Hash → Prop
  | .flushWrite res => res = .writes ∨ ∃ written, res = .fails written true true
  | .checkpoint _ _ res => res = .writes
  | .checkpointCapture ok => ok = true
  | .checkpointRemap res => res = .cuts
  | .checkpointTruncated ok res => ok = true ∧ res = .writes
  | .checkpointFinish ok => ok = true
  | .crash wal shards => w.CleanlyClosed ∧ wal = w.disk.wal.now ∧
      shards = fun k s => (w.disk.shards k s).map (·.now)
  | _ => True

/-- A checkpoint that is let in does not find leaves in the tree. -/
def LeavesLog (w : World Hash N MAX_DEPTH) : Action Hash → Prop
  | .checkpoint _ admitted _ => ∀ h, w.handle = some h → h.admits admitted = true → h.inner.size = 0
  | _ => True

variable [Zero Hash] (W : Wire Hash) (H : Hasher Hash)

/-- The leaves of a call that returns its root. -/
def added (w : World Hash N MAX_DEPTH) : Action Hash → List Hash
  | .call c admitted => match w.handle with
      | some h =>
          if h.holder.locksState then []
          else if h.admits admitted then
            match (h.insertCall W H w.disk.shards.fs c).1 with
            | .ok _ => c.leaves
            | .error _ => []
          else []
      | none => []
  | _ => []

/-- The states that steps with a property lead to from an empty directory, with the leaves of the
calls that returned their roots. -/
inductive Run [DecidableEq Hash] (P : World Hash N MAX_DEPTH → Action Hash → Prop) :
    List Hash → World Hash N MAX_DEPTH → Prop where
  | start : Run P [] empty
  | step {ls : List Hash} {w w' : World Hash N MAX_DEPTH} {a : Action Hash} (h : Run P ls w)
      (ha : P w a) (hw : step W H w a = some w') : Run P (ls ++ added W H w a) w'

/-- A run of the system, with the leaves of the calls that return. -/
def history [DecidableEq Hash] (as : List (Action Hash)) :
    Option (List Hash × World Hash N MAX_DEPTH) :=
  as.foldlM (fun s a => (step W H s.2 a).map fun w => (s.1 ++ added W H s.2 a, w)) ([], empty)

variable {W H}

theorem Run.of_history [DecidableEq Hash] {P : World Hash N MAX_DEPTH → Action Hash → Prop}
    {as : List (Action Hash)} (hP : ∀ w, ∀ a ∈ as, P w a) {ls : List Hash}
    {w : World Hash N MAX_DEPTH} (h : history W H as = some (ls, w)) : Run W H P ls w := by
  induction as using List.reverseRecOn generalizing ls w with
  | nil =>
      cases h
      exact .start
  | append_singleton as a ih =>
      rw [history, List.foldlM_append] at h
      obtain ⟨⟨ls', w'⟩, hrest, hlast⟩ := Option.bind_eq_some_iff.mp h
      simp only [List.foldlM_cons, List.foldlM_nil, bind_pure] at hlast
      obtain ⟨w'', hstep, hr⟩ := Option.map_eq_some_iff.mp hlast
      cases hr
      exact (ih (fun w a ha => hP w a (List.mem_append_left _ ha)) hrest).step
        (hP w' a (by simp)) hstep

end World

/-- The bytes that reach the log when the buffer and the holder are done. -/
def pendingBytes (h : Shared Hash N MAX_DEPTH) : List UInt8 :=
  match h.holder with
  | .flush buf _ false => buf ++ h.buffer
  | _ => h.buffer

/-- Who holds the log while no checkpoint finds leaves. -/
inductive PlainHolder (h : Shared Hash N MAX_DEPTH) : Prop where
  | free (hh : h.holder = .free)
  | flush {buf : List UInt8} {lastSeq : ℕ} {written : Bool}
      (hh : h.holder = .flush buf lastSeq written)
  | checkpoint {background : Bool} (hh : h.holder = .checkpoint background .flush)
      (hsize : h.inner.size = 0) (hbuffer : h.buffer = [])

/-- An open tree over a directory without metadata: the log and what is pending hold
everything. -/
structure FullOpen [Zero Hash] (W : Wire Hash) (H : Hasher Hash) (disk : Disk Hash)
    (h : Shared Hash N MAX_DEPTH) (ls : List Hash) : Prop where
  noMeta : readMeta W disk.metaFile = .ok none
  log : ∃ log bytes, LogFor W ls h.nextSeq bytes ∧ (h.inner.size = 0 → bytes = []) ∧
    disk.wal.now = headerBytes W N MAX_DEPTH ++ log ∧ log ++ pendingBytes h = bytes
  cursor : h.cursor = disk.wal.now.length
  tree : ∃ L, Refines disk.shards.fs H h.inner L ∧ CanAdd N MAX_DEPTH 0 L ∧ ls.length ≤ L.length
  holder : PlainHolder h

section State

variable [Zero Hash] {W : Wire Hash} {H : Hasher Hash} {disk : Disk Hash}
variable {h : Shared Hash N MAX_DEPTH} {ls : List Hash} {next : ℕ} {bytes : List UInt8}
variable {p : WalPayload Hash}

omit [Zero Hash] in
theorem LogFor.append (h : LogFor W ls next bytes) (hfit : p.Fits W next) (hne : p.leaves ≠ [])
    (hnext : next + 1 < U64_SIZE) :
    LogFor W (ls ++ p.leaves) (next + 1) (bytes ++ entryBytes W next p) := by
  cases h with
  | numbered ps hbytes hf hbrings hlen hlt hls =>
      refine .numbered (ps ++ [p]) ?_ (allFit_append.mpr ⟨hf, ?_, trivial⟩) ?_ ?_ hnext ?_
      · rw [framesFrom_append, framesFrom, framesFrom, List.append_nil, hbytes, Nat.zero_add, hlen]
      · rw [Nat.zero_add, ← hlen]
        exact hfit
      · intro q hq
        cases List.mem_append.mp hq with
        | inl hq => exact hbrings q hq
        | inr hq => rw [List.mem_singleton.mp hq]; exact hne
      · rw [List.length_append, List.length_singleton, hlen]
      · rw [List.flatMap_append, List.flatMap_singleton, hls]
  | overflow ps junk hbytes hf hlen =>
      exact .overflow ps (junk ++ entryBytes W next p) (by rw [hbytes, List.append_assoc]) hf hlen

omit [Zero Hash] in
/-- The entry with the last possible number. -/
theorem LogFor.append_last (h : LogFor W ls next bytes) (hfit : p.Fits W next)
    (hnext : U64_SIZE ≤ next + 1) : LogFor W ls next (bytes ++ entryBytes W next p) := by
  cases h with
  | numbered ps hbytes hf hbrings hlen hlt hls =>
      refine .overflow (ps ++ [p]) [] ?_ (allFit_append.mpr ⟨hf, ?_, trivial⟩) ?_
      · rw [framesFrom_append, framesFrom, framesFrom, List.append_nil, List.append_nil, hbytes,
          Nat.zero_add, hlen]
      · rw [Nat.zero_add, ← hlen]
        exact hfit
      · rw [List.length_append, List.length_singleton]
        omega
  | overflow ps junk hbytes hf hlen =>
      exact .overflow ps (junk ++ entryBytes W next p) (by rw [hbytes, List.append_assoc]) hf hlen

omit [Zero Hash] in
theorem canAdd_of_length_le {xs ys : List Hash} (h : CanAdd N MAX_DEPTH 0 ys)
    (hle : xs.length ≤ ys.length) : CanAdd N MAX_DEPTH 0 xs := by
  cases h with
  | inl h =>
      rw [h, List.length_nil] at hle
      exact .inl (List.length_eq_zero_iff.mp (by omega))
  | inr h => exact .inr ⟨by omega, (Nat.clog_mono_right N (by omega)).trans h.2⟩

namespace FullOpen

/-- A call: its entry goes into the buffer, unless it is turned down or panics. -/
theorem insertCall (hH : H.Lawful) (hN : 2 ≤ N) (hD : 1 ≤ MAX_DEPTH)
    (hi : FullOpen W H disk h ls) (hlock : h.holder.locksState = false) (c : Call Hash) :
    FullOpen W H disk (h.insertCall W H disk.shards.fs c).2
      (ls ++ match (h.insertCall W H disk.shards.fs c).1 with
        | .ok _ => c.leaves
        | .error _ => []) := by
  obtain ⟨-, -, hholder, hcursor, -⟩ := Shared.insertCall_frame W H disk.shards.fs c h
  have hlocks : PlainHolder (h.insertCall W H disk.shards.fs c).2 := by
    cases hi.holder with
    | free hh => exact .free (hholder.trans hh)
    | flush hh => exact .flush (hholder.trans hh)
    | checkpoint hh =>
        rw [hh] at hlock
        cases hlock
  have hpending : ∀ {b : List UInt8}, (h.insertCall W H disk.shards.fs c).2.buffer = h.buffer ++ b →
      pendingBytes (h.insertCall W H disk.shards.fs c).2 = pendingBytes h ++ b := by
    intro b hb
    unfold pendingBytes
    rw [hholder, hb]
    split
    · rw [List.append_assoc]
    · rfl
  obtain ⟨log, bytes, hlog, hempty, hnow, hbytes⟩ := hi.log
  obtain ⟨L, href, hroom, hle⟩ := hi.tree
  rcases Rotortree.insertCall_cases (W := W) hH hN hD href c with
    ⟨-, e, he⟩ | ⟨hc, root, inner, href', hcases⟩
  · rw [he, List.append_nil]
    exact hi
  have hne : c.leaves ≠ [] := fun h0 => hc (.inl h0)
  have hroom' : CanAdd N MAX_DEPTH 0 (L ++ c.leaves) := by
    refine canAdd_append.mpr ⟨hroom, ?_⟩
    simp only [Call.TurnedDown, not_or, not_le, not_lt] at hc
    rw [Nat.zero_add]
    exact .inr hc.2
  have hle' : ls.length ≤ (L ++ c.leaves).length := by
    rw [List.length_append]
    omega
  have hsize : inner.size ≠ 0 := by
    rw [href'.size]
    intro h0
    exact hne (List.append_eq_nil_iff.mp (List.length_eq_zero_iff.mp h0)).2
  rcases hcases with ⟨hfit, hseq, he⟩ | ⟨-, hpanic, hinner, hnext, ⟨-, hbuf⟩ | ⟨hfit, hseq, hbuf⟩⟩
  · have hp := @hpending (entryBytes W h.nextSeq c.payload) (by rw [he])
    rw [he] at hp hcursor hlocks ⊢
    refine ⟨hi.noMeta, ⟨log, bytes ++ entryBytes W h.nextSeq c.payload, ?_, fun h0 => absurd h0 hsize,
      hnow, ?_⟩, hcursor.trans hi.cursor, ⟨L ++ c.leaves, href', hroom', ?_⟩, hlocks⟩
    · show LogFor W (ls ++ c.leaves) (h.nextSeq + 1) _
      rw [← Call.leaves_payload]
      exact hlog.append hfit (by rw [Call.leaves_payload]; exact hne) hseq
    · rw [hp, ← List.append_assoc, hbytes]
    · simp only [List.length_append]
      omega
  · rw [hpanic]
    show FullOpen W H disk _ (ls ++ [])
    rw [List.append_nil]
    refine ⟨hi.noMeta, ⟨log, bytes, ?_, ?_, hnow, ?_⟩, hcursor.trans hi.cursor,
      ⟨L ++ c.leaves, by rw [hinner]; exact href', hroom', hle'⟩, hlocks⟩
    · rw [hnext]
      exact hlog
    · rw [hinner]
      exact fun h0 => absurd h0 hsize
    · rw [@hpending [] (by rw [List.append_nil]; exact hbuf), List.append_nil]
      exact hbytes
  · rw [hpanic]
    show FullOpen W H disk _ (ls ++ [])
    rw [List.append_nil]
    refine ⟨hi.noMeta, ⟨log, bytes ++ entryBytes W h.nextSeq c.payload, ?_, ?_, hnow, ?_⟩,
      hcursor.trans hi.cursor, ⟨L ++ c.leaves, by rw [hinner]; exact href', hroom', hle'⟩, hlocks⟩
    · rw [hnext]
      exact hlog.append_last hfit hseq
    · rw [hinner]
      exact fun h0 => absurd h0 hsize
    · rw [hpending hbuf, ← List.append_assoc, hbytes]

/-- A flush takes the buffer. -/
theorem flushTake (hi : FullOpen W H disk h ls) (hfree : h.holder = .free) :
    FullOpen W H disk h.flushTake ls := by
  unfold Shared.flushTake
  by_cases hbuf : h.buffer.isEmpty
  · rw [if_pos hbuf]
    exact hi
  · rw [if_neg hbuf]
    obtain ⟨log, bytes, hlog, hempty, hnow, hbytes⟩ := hi.log
    refine ⟨hi.noMeta, ⟨log, bytes, hlog, hempty, hnow, ?_⟩, hi.cursor, hi.tree, .flush rfl⟩
    rw [← hbytes, pendingBytes, pendingBytes, hfree]
    simp

/-- A flush writes what it took, or rolls back. -/
theorem flushWrite {buf : List UInt8} {lastSeq : ℕ} {res : FlushResult}
    (hi : FullOpen W H disk h ls) (hh : h.holder = .flush buf lastSeq false)
    (hres : res = .writes ∨ ∃ written, res = .fails written true true) :
    FullOpen W H { disk with wal := (h.flushWrite buf lastSeq res disk.wal).1 }
      (h.flushWrite buf lastSeq res disk.wal).2 ls := by
  obtain ⟨log, bytes, hlog, hempty, hnow, hbytes⟩ := hi.log
  rw [pendingBytes, hh] at hbytes
  have hwrite : ∀ xs, CrashFile.writeAt disk.wal.now h.cursor xs = disk.wal.now ++ xs := by
    intro xs
    rw [hi.cursor]
    have := CrashFile.writeAt_append disk.wal.now [] xs
    rwa [List.append_nil, List.drop_nil, List.append_nil] at this
  rcases hres with rfl | ⟨written, rfl⟩
  · refine ⟨hi.noMeta, ⟨log ++ buf, bytes, hlog, hempty, ?_, ?_⟩, ?_, hi.tree, .flush rfl⟩
    · show CrashFile.writeAt disk.wal.now h.cursor buf = _
      rw [hwrite, hnow, List.append_assoc]
    · rw [← hbytes, List.append_assoc]
      rfl
    · show h.cursor + buf.length = (CrashFile.writeAt disk.wal.now h.cursor buf).length
      rw [hwrite, List.length_append, hi.cursor]
  · have hback : ((disk.wal.write h.cursor (buf.take written)).setLen h.cursor).now =
        disk.wal.now := by
      rw [CrashFile.setLen, CrashFile.now_become, CrashFile.write, CrashFile.now_become, hwrite,
        hi.cursor, List.take_left, List.length_append, Nat.sub_eq_zero_of_le (Nat.le_add_right _ _),
        List.replicate_zero, List.append_nil]
    refine ⟨hi.noMeta, ⟨log, bytes, hlog, hempty, hback.trans hnow, hbytes⟩, ?_, hi.tree,
      .free rfl⟩
    show h.cursor = ((disk.wal.write h.cursor (buf.take written)).setLen h.cursor).now.length
    rw [hback]
    exact hi.cursor

/-- A flush ends. -/
theorem flushSync {buf : List UInt8} {lastSeq : ℕ} (hi : FullOpen W H disk h ls)
    (hh : h.holder = .flush buf lastSeq true) (ok : Bool) :
    FullOpen W H { disk with wal := (h.flushSync lastSeq ok disk.wal).1 }
      (h.flushSync lastSeq ok disk.wal).2 ls := by
  obtain ⟨log, bytes, hlog, hempty, hnow, hbytes⟩ := hi.log
  rw [pendingBytes, hh] at hbytes
  cases ok with
  | true => exact ⟨hi.noMeta, ⟨log, bytes, hlog, hempty, hnow, hbytes⟩, hi.cursor, hi.tree,
      .free rfl⟩
  | false => exact ⟨hi.noMeta, ⟨log, bytes, hlog, hempty, hnow, hbytes⟩, hi.cursor, hi.tree,
      .free rfl⟩

/-- Nothing is pending while the tree is empty. -/
theorem buffer_nil (hi : FullOpen W H disk h ls) (hfree : h.holder = .free)
    (hsize : h.inner.size = 0) : h.buffer = [] := by
  obtain ⟨log, bytes, -, hempty, -, hbytes⟩ := hi.log
  rw [hempty hsize, pendingBytes, hfree] at hbytes
  exact (List.append_eq_nil_iff.mp hbytes).2

/-- A checkpoint of the empty tree begins. -/
theorem lockedWrite {background : Bool} {res : WriteResult} (hi : FullOpen W H disk h ls)
    (hfree : h.holder = .free) (hsize : h.inner.size = 0) :
    FullOpen W H { disk with wal := (h.lockedWrite background .flush res disk.wal).1 }
      (h.lockedWrite background .flush res disk.wal).2 ls := by
  have hbuf := hi.buffer_nil hfree hsize
  obtain ⟨log, bytes, hlog, hempty, hnow, hbytes⟩ := hi.log
  rw [pendingBytes, hfree] at hbytes
  unfold Shared.lockedWrite
  rw [if_pos (by rw [hbuf]; rfl)]
  exact ⟨hi.noMeta, ⟨log, bytes, hlog, hempty, hnow, hbytes⟩, hi.cursor, hi.tree,
    .checkpoint rfl hsize hbuf⟩

/-- The checkpoint of an empty tree ends where it would take its chunks. -/
theorem checkpointStep {background : Bool} {w' : World Hash N MAX_DEPTH}
    {a : Action Hash} (hi : FullOpen W H disk h ls) (hh : h.holder = .checkpoint background .flush)
    (hsize : h.inner.size = 0) (hbuffer : h.buffer = [])
    (hstep : World.checkpointStep W ⟨disk, some h⟩ h background .flush a = some w') :
    w'.disk = disk ∧ ∃ h', w'.handle = some h' ∧ FullOpen W H disk h' ls := by
  cases a with
  | checkpointCapture ok =>
      obtain ⟨log, bytes, hlog, hempty, hnow, hbytes⟩ := hi.log
      rw [pendingBytes, hh] at hbytes
      simp only [World.checkpointStep, Shared.lockedSync, hbuffer, List.isEmpty_nil, if_true, hsize,
        World.withWal, Option.some.injEq] at hstep
      subst hstep
      exact ⟨rfl, _, rfl, hi.noMeta, ⟨log, bytes, hlog, hempty, hnow, by rw [← hbytes, hbuffer]; rfl⟩,
        hi.cursor, hi.tree, .free rfl⟩
  | _ => cases hstep

end FullOpen

/-- A clean close leaves a directory whose log holds everything. -/
theorem FullOpen.fullDisk (hi : FullOpen W H disk h ls) (hfree : h.holder = .free)
    (hbuffer : h.buffer = []) : FullDisk W N MAX_DEPTH disk ls where
  noMeta := hi.noMeta
  log := by
    obtain ⟨log, bytes, hlog, -, hnow, hbytes⟩ := hi.log
    obtain ⟨L, -, hroom, hle⟩ := hi.tree
    rw [pendingBytes, hfree, hbuffer, List.append_nil] at hbytes
    exact .inr ⟨canAdd_of_length_le hroom hle, _, bytes, hlog, hbytes ▸ hnow⟩

/-- The states in which nothing is lost when the log is all there is. -/
def FullState (W : Wire Hash) (H : Hasher Hash) (w : World Hash N MAX_DEPTH) (ls : List Hash) :
    Prop :=
  match w.handle with
  | some h => FullOpen W H w.disk h ls
  | none => FullDisk W N MAX_DEPTH w.disk ls

theorem fullState_empty : FullState W H (World.empty : World Hash N MAX_DEPTH) [] where
  noMeta := rfl
  log := .inl ⟨rfl, rfl⟩

/-- `open` finds the log. -/
theorem FullDisk.reopen [DecidableEq Hash] (hW : W.Lawful) (hH : H.Lawful) (hN : 2 ≤ N)
    (hD : 1 ≤ MAX_DEPTH) (hi : FullDisk W N MAX_DEPTH disk ls) {pinAboveLevel : ℕ} {verify : Bool}
    {par : ℕ → ℕ → Bool} {t : Shared Hash N MAX_DEPTH} {disk' : Disk Hash}
    (hopen : openTree W H pinAboveLevel verify par disk = .ok (t, disk')) :
    FullOpen W H disk' t ls := by
  have hroom : CanAdd N MAX_DEPTH 0 ls := by
    rcases hi.log with ⟨-, rfl⟩ | ⟨hroom, -⟩
    · exact .inl rfl
    · exact hroom
  rcases hi.open (H := H) hW hH hN hD pinAboveLevel verify par with
    ⟨err, herr⟩ | ⟨t', disk'', ps, hok, href, hshards, hmeta, hlog, hnil, hwal, hcursor, hbuffer, hfree⟩
  · rw [hopen] at herr
    cases herr
  · obtain ⟨rfl, rfl⟩ : t = t' ∧ disk' = disk'' := by
      rw [hopen] at hok
      cases hok
      exact ⟨rfl, rfl⟩
    refine ⟨by rw [hmeta]; exact hi.noMeta, ⟨framesFrom W 0 ps, framesFrom W 0 ps, hlog, ?_, hwal, ?_⟩,
      hcursor, ⟨ls, by rw [hshards]; exact href, hroom, le_refl _⟩, .free hfree⟩
    · intro h0
      rw [hnil (List.length_eq_zero_iff.mp (href.size.symm.trans h0))]
      rfl
    · rw [pendingBytes, hfree, hbuffer, List.append_nil]

/-- **One step.**  Everything but the checkpoint of a tree with leaves leaves the log whole. -/
theorem FullState.step [DecidableEq Hash] (hW : W.Lawful) (hH : H.Lawful) (hN : 2 ≤ N)
    (hD : 1 ≤ MAX_DEPTH) {w w' : World Hash N MAX_DEPTH} {a : Action Hash}
    (hi : FullState W H w ls) (ha : w.Succeeds a) (hleaves : w.LeavesLog a)
    (hw : World.step W H w a = some w') : FullState W H w' (ls ++ World.added W H w a) := by
  obtain ⟨disk, handle⟩ := w
  cases handle with
  | none =>
      cases a with
      | reopen pinAboveLevel verify par =>
          simp only [World.added, List.append_nil]
          unfold World.step at hw
          dsimp only at hw
          cases hopen : (openTree W H pinAboveLevel verify par disk :
              Outcome StorageError (Shared Hash N MAX_DEPTH × Disk Hash)) with
          | error e =>
              rw [hopen] at hw
              cases hw
              exact hi
          | ok r =>
              obtain ⟨t, disk'⟩ := r
              rw [hopen] at hw
              cases hw
              exact FullDisk.reopen hW hH hN hD hi hopen
      | _ => cases hw
  | some h =>
      change FullOpen W H disk h ls at hi
      unfold World.step at hw
      dsimp only at hw
      cases a with
      | call c admitted =>
          simp only [World.handleStep] at hw
          simp only [World.added]
          cases hlock : h.holder.locksState with
          | true => simp [hlock] at hw
          | false =>
              cases hadm : h.admits admitted with
              | false =>
                  simp only [hlock, hadm, Bool.false_eq_true, if_false, Option.some.injEq] at hw ⊢
                  subst hw
                  rw [List.append_nil]
                  exact hi
              | true =>
                  simp only [hlock, hadm, Bool.false_eq_true, if_false, if_true,
                    Option.some.injEq] at hw ⊢
                  subst hw
                  exact hi.insertCall hH hN hD hlock c
      | flush admitted =>
          simp only [World.handleStep] at hw
          simp only [World.added, List.append_nil]
          cases hh : h.holder with
          | free =>
              cases hadm : h.admits admitted with
              | false =>
                  simp only [hh, hadm, Bool.false_eq_true, if_false, Option.some.injEq] at hw
                  subst hw
                  exact hi
              | true =>
                  simp only [hh, hadm, if_true, Option.some.injEq] at hw
                  subst hw
                  exact hi.flushTake hh
          | _ => simp [hh] at hw
      | flushWrite res =>
          simp only [World.handleStep] at hw
          simp only [World.added, List.append_nil]
          split at hw
          · cases hw
            exact hi.flushWrite ‹_› ha
          · cases hw
      | flushSync ok =>
          simp only [World.handleStep] at hw
          simp only [World.added, List.append_nil]
          split at hw
          · cases hw
            exact hi.flushSync ‹_› ok
          · cases hw
      | checkpoint background admitted res =>
          simp only [World.handleStep] at hw
          simp only [World.added, List.append_nil]
          cases hh : h.holder with
          | free =>
              cases hadm : h.admits admitted with
              | false =>
                  simp only [hh, hadm, Bool.false_eq_true, if_false, Option.some.injEq] at hw
                  subst hw
                  exact hi
              | true =>
                  simp only [hh, hadm, if_true, Option.some.injEq] at hw
                  subst hw
                  exact hi.lockedWrite hh (hleaves h rfl hadm)
          | _ => simp [hh] at hw
      | close =>
          cases hw
          simp only [World.added, List.append_nil]
          obtain ⟨log, bytes, hlog⟩ := hi.log
          refine ⟨hi.noMeta, ⟨log, bytes, hlog⟩, hi.cursor, hi.tree, ?_⟩
          cases hi.holder with
          | free hh => exact .free hh
          | flush hh => exact .flush hh
          | checkpoint hh hsize hbuffer => exact .checkpoint hh hsize hbuffer
      | crash wal shards =>
          cases hw
          simp only [World.added, List.append_nil]
          obtain ⟨⟨h', hh', -, hfree, hbuffer⟩, rfl, -⟩ := ha
          cases hh'
          exact (hi.fullDisk hfree hbuffer).of_eq rfl rfl
      | reopen _ _ _ => cases hw
      | _ =>
          simp only [World.handleStep] at hw
          simp only [World.added, List.append_nil]
          cases hi.holder with
          | free hh => simp [hh] at hw
          | flush hh => simp [hh] at hw
          | checkpoint hh hsize hbuffer =>
              rw [hh] at hw
              obtain ⟨hdisk, h', hh', hi'⟩ := hi.checkpointStep hh hsize hbuffer hw
              obtain ⟨disk', handle'⟩ := w'
              cases hdisk
              cases hh'
              exact hi'

/-- **Every run** in which no checkpoint finds leaves keeps the log whole. -/
theorem FullState.run [DecidableEq Hash] (hW : W.Lawful) (hH : H.Lawful) (hN : 2 ≤ N)
    (hD : 1 ≤ MAX_DEPTH) {w : World Hash N MAX_DEPTH}
    (hrun : World.Run W H (fun w a => w.Succeeds a ∧ w.LeavesLog a) ls w) :
    FullState W H w ls := by
  induction hrun with
  | start => exact fullState_empty
  | step _ ha hw ih => exact ih.step hW hH hN hD ha.1 ha.2 hw

omit [Zero Hash] in
/-- What becomes of a directory without metadata. -/
theorem FullDisk.tampered {disk' : Disk Hash} (hi : FullDisk W N MAX_DEPTH disk ls)
    (ht : Tampered W.crc disk disk') : FullDisk W N MAX_DEPTH disk' ls := by
  cases ht with
  | metaFile dataDir file h =>
      refine ⟨?_, hi.log⟩
      show readMeta W file = .ok none
      unfold readMeta
      rw [readFrameFile_unreadable h]
      rfl
  | header dataDir file h => exact ⟨hi.noMeta, hi.log⟩

/-- **The fallback keeps every leaf** in a run in which no checkpoint found leaves.  The tree is
closed, `checkpoint.meta` or `header.bin` is lost or made unreadable, and `open` fails or returns
the tree over all the leaves whose calls returned. -/
theorem fallback_keeps_leaves [DecidableEq Hash] (hW : W.Lawful) (hH : H.Lawful) (hN : 2 ≤ N)
    (hD : 1 ≤ MAX_DEPTH) {w : World Hash N MAX_DEPTH}
    (hrun : World.Run W H (fun w a => w.Succeeds a ∧ w.LeavesLog a) ls w)
    (hclosed : w.CleanlyClosed) {disk' : Disk Hash} (ht : Tampered W.crc w.disk disk')
    (pinAboveLevel : ℕ) (verify : Bool) (par : ℕ → ℕ → Bool) :
    (∃ err, (openTree W H pinAboveLevel verify par disk' :
      Outcome StorageError (Shared Hash N MAX_DEPTH × Disk Hash)) = .error err) ∨
    ∃ (t : Shared Hash N MAX_DEPTH) (disk'' : Disk Hash),
      openTree W H pinAboveLevel verify par disk' = .ok (t, disk'') ∧
      Refines disk'.shards.fs H t.inner ls := by
  have hi := FullState.run hW hH hN hD hrun
  obtain ⟨h, hh, -, hfree, hbuffer⟩ := hclosed
  rw [FullState, hh] at hi
  rcases ((FullOpen.fullDisk hi hfree hbuffer).tampered ht).open (H := H) hW hH hN hD pinAboveLevel
    verify par with herr | ⟨t, disk'', -, hopen, href, -⟩
  · exact .inl herr
  · exact .inr ⟨t, disk'', hopen, href⟩

end State

/-! ### A log that was cut -/

/-- Behind a checkpoint the log begins with the number after it.  When the checkpoint cannot be
read, these entries are accepted as all there are. -/
theorem cut_log_accepted [Zero Hash] [DecidableEq Hash] {W : Wire Hash} {H : Hasher Hash}
    {disk disk' : Disk Hash} {L : List Hash} {s : ℕ} {ps : List (WalPayload Hash)} (hW : W.Lawful)
    (hH : H.Lawful) (hN : 2 ≤ N) (hD : 1 ≤ MAX_DEPTH) (hc : HoldsCheckpoint W H N MAX_DEPTH disk L s)
    (hps : Appendable W N MAX_DEPTH (s + 1) 0 ps)
    (hwal : disk.wal.now = headerBytes W N MAX_DEPTH ++ framesFrom W (s + 1) ps)
    (ht : Tampered W.crc disk disk') (verify : Bool) (par : ℕ → ℕ → Bool) :
    ∃ r : RecoveryResult Hash N MAX_DEPTH, recoverWithCheckpoint W H par disk' verify = .ok r ∧
      Refines disk'.shards.fs H r.inner (ps.flatMap (·.leaves)) := by
  have hback : FallsBack W N MAX_DEPTH disk' := by
    cases ht with
    | metaFile dataDir file h =>
        refine .noMeta ?_
        unfold readMeta
        rw [readFrameFile_unreadable h]
        rfl
    | header dataDir file h =>
        obtain ⟨rootHash, hmeta, -⟩ := hc.metaFile
        refine .noHeader hmeta ?_
        unfold readHeader
        rw [readFrameFile_unreadable h]
        rfl
  have hsame : disk'.wal = disk.wal := by
    cases ht with
    | metaFile => rfl
    | header => rfl
  have hleaves : replayed none (entriesFrom (s + 1) ps) = ps.flatMap (·.leaves) :=
    replayed_entriesFrom (by rintro l ⟨⟩)
  have hok : LogOk W N MAX_DEPTH ([] : List Hash) none (s + 1) ps :=
    ⟨hps.fit, hps.brings, hps.seqs, show 0 < U64_SIZE by decide, by rw [hleaves]; exact hps.room⟩
  obtain ⟨r, hrec, hr⟩ := hok.recovers hW hH hN hD (.none hback) (torn_nil _)
    (by rw [hsame, List.append_nil]; exact hwal) verify par
  have htree := hr.tree
  rw [hleaves, List.nil_append] at htree
  exact ⟨r, hrec, htree⟩

/-- A leaf is inserted, flushed and synced, and the tree is closed. -/
def flushedRun : List (Action Hash32) :=
  [.reopen 0 true (fun _ _ => false), .call (.insert (testLeaf 1)) false, .flush false,
    .flushWrite .writes, .flushSync true, .close]

/-- A leaf is inserted, a checkpoint is made, and the tree is closed. -/
def checkpointedRun : List (Action Hash32) :=
  [.reopen 0 true (fun _ _ => false), .call (.insert (testLeaf 1)) false,
    .checkpoint false false .writes, .checkpointCapture true, .checkpointHeader, .checkpointWrite,
    .checkpointSync, .checkpointSync, .checkpointSync, .checkpointRemap .cuts,
    .checkpointTruncated true .writes, .close]

/-- A tree with one leaf is there, closed. -/
def World.closedWith (leaf : Hash32) (s : List Hash32 × World Hash32 N MAX_DEPTH) : Bool :=
  decide (s.1 = [leaf]) && match s.2.handle with
    | some ⟨_, [], _, _, _, _, _, true, _, _, .free⟩ => true
    | _ => false

theorem World.cleanlyClosed_of_closedWith {leaf : Hash32} {ls : List Hash32}
    {w : World Hash32 N MAX_DEPTH} (h : World.closedWith leaf (ls, w) = true) :
    ls = [leaf] ∧ w.CleanlyClosed := by
  rw [World.closedWith, Bool.and_eq_true, decide_eq_true_eq] at h
  refine ⟨h.1, ?_⟩
  have hh := h.2
  split at hh
  · exact ⟨_, ‹_›, rfl, rfl, rfl⟩
  · cases hh

theorem flushedRun_keeps_leaf :
    ∃ w : World Hash32 2 10, w.disk.wal.now ≠ headerBytes wincode 2 10 ∧
      ((∃ err, (openTree wincode xorHasher 0 true (fun _ _ => false)
        { w.disk with dataDir := true, metaFile := none } :
          Outcome StorageError (Shared Hash32 2 10 × Disk Hash32)) = .error err) ∨
      ∃ (t : Shared Hash32 2 10) (disk'' : Disk Hash32),
        openTree wincode xorHasher 0 true (fun _ _ => false)
          { w.disk with dataDir := true, metaFile := none } = .ok (t, disk'') ∧
        Refines w.disk.shards.fs xorHasher t.inner [testLeaf 1]) := by
  have hends : (World.history wincode xorHasher flushedRun :
      Option (List Hash32 × World Hash32 2 10)).any (fun s => World.closedWith (testLeaf 1) s &&
        decide (s.2.disk.wal.now ≠ headerBytes wincode 2 10)) = true := by
    decide +kernel
  obtain ⟨⟨ls, w⟩, hw, hends⟩ := (Option.any_eq_true _ _).mp hends
  rw [Bool.and_eq_true, decide_eq_true_eq] at hends
  obtain ⟨rfl, hclosed⟩ := World.cleanlyClosed_of_closedWith hends.1
  have hrun : World.Run wincode xorHasher (fun w a => w.Succeeds a ∧ w.LeavesLog a) [testLeaf 1] w :=
    .of_history (by simp [flushedRun, World.Succeeds, World.LeavesLog]) hw
  exact ⟨w, hends.2, fallback_keeps_leaves wincode_lawful (Hasher.scalar_lawful _) (by decide)
    (by decide) hrun hclosed (.metaFile true none (by rintro bytes ⟨⟩)) 0 true _⟩

/-- The checkpoint has cut the log; without `checkpoint.meta` the tree comes back empty. -/
theorem checkpointedRun_loses_leaf :
    ∃ (w : World Hash32 2 10) (t : Shared Hash32 2 10) (disk' : Disk Hash32),
      World.Run wincode xorHasher World.Succeeds [testLeaf 1] w ∧ w.CleanlyClosed ∧
      Tampered wincode.crc w.disk { w.disk with dataDir := true, metaFile := none } ∧
      openTree wincode xorHasher 0 true (fun _ _ => false)
        { w.disk with dataDir := true, metaFile := none } = .ok (t, disk') ∧ t.inner.size = 0 := by
  have hends : (World.history wincode xorHasher checkpointedRun :
      Option (List Hash32 × World Hash32 2 10)).any (fun s => World.closedWith (testLeaf 1) s &&
        match (openTree wincode xorHasher 0 true (fun _ _ => false)
            { s.2.disk with dataDir := true, metaFile := none } :
          Outcome StorageError (Shared Hash32 2 10 × Disk Hash32)) with
        | .ok (t, _) => decide (t.inner.size = 0)
        | .error _ => false) = true := by
    decide +kernel
  obtain ⟨⟨ls, w⟩, hw, hends⟩ := (Option.any_eq_true _ _).mp hends
  rw [Bool.and_eq_true] at hends
  obtain ⟨rfl, hclosed⟩ := World.cleanlyClosed_of_closedWith hends.1
  have hopen := hends.2
  split at hopen
  · rename_i t disk' ht
    refine ⟨w, t, disk', .of_history (by simp [checkpointedRun, World.Succeeds]) hw, hclosed,
      .metaFile true none (by rintro bytes ⟨⟩), ht, of_decide_eq_true hopen⟩
  · cases hopen

end Works.Rotortree
