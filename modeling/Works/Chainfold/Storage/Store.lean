import Works.Lib.Outcome
import Works.Lib.Prog
import Works.Chainfold.Storage.Manifest

/-! # The snapshot store

`vfs.rs` and `store.rs`.  A method of the store is a program over the filesystem: its queries are
the primitives of `Vfs`, and what they do is left to whoever answers.  All paths lie directly in
the directory of the store, so a path is a name. -/

namespace Works.Chainfold

open Works.Lib

/-- `io::Error`, by its kind. -/
inductive IoError where
  | notFound
  | other (kind : ℕ)
deriving DecidableEq, Repr

/-- The primitives of `Vfs`. -/
inductive VfsOp where
  | createDirAll
  | read (name : String)
  | write (name : String) (bytes : List UInt8)
  | writeAt (name : String) (offset : ℕ) (bytes : List UInt8)
  | fsyncFile (name : String)
  | rename (old new : String)
  | remove (name : String)
  | list
  | fsyncDir
deriving DecidableEq, Repr

/-- What a primitive yields. -/
def VfsOp.Yields : VfsOp → Type
  | .read _ => List UInt8
  | .list => List String
  | _ => Unit

/-- The answer to a primitive. -/
abbrev VfsOp.Answer (op : VfsOp) : Type := Except IoError op.Yields

/-- `StoreError`. -/
inductive StoreError where
  | io (error : IoError)
  | corruptManifest
  | missingSnapshot (id : ℕ)
  | retainZero
  | poisoned
deriving DecidableEq, Repr

/-- Programs over the filesystem. -/
abbrev VfsProg (α : Type) := Prog VfsOp VfsOp.Answer α

/-- Programs over the filesystem that may stop with an error. -/
abbrev StoreM (α : Type) := ExceptT StoreError (Prog VfsOp VfsOp.Answer) α

/-- One primitive, its error passed on. -/
def vfs (op : VfsOp) : StoreM op.Yields :=
  (Prog.query op >>= fun answer => pure (answer.mapError .io) : VfsProg (Except StoreError op.Yields))

/-- `missing_ok`: one primitive on a path that may be missing. -/
def missingOk (op : VfsOp) : StoreM (Option op.Yields) :=
  (Prog.query op >>= fun answer =>
    match answer with
    | .error .notFound => pure (.ok none)
    | .error error => pure (.error (.io error))
    | .ok a => pure (.ok (some a)) : VfsProg (Except StoreError (Option op.Yields)))

/-! ### File names -/

/-- `TEMP_FILE`. -/
def TEMP_FILE : String := "snap.tmp"

/-- `SNAPSHOT_PREFIX`. -/
def SNAPSHOT_PREFIX : String := "snap-"

/-- `SNAPSHOT_SUFFIX`. -/
def SNAPSHOT_SUFFIX : String := ".bin"

/-- `snapshot_file_name`. -/
def snapshotFileName (id : ℕ) : String := SNAPSHOT_PREFIX ++ toString id ++ SNAPSHOT_SUFFIX

/-- `str::parse::<u64>`. -/
def parseU64 (cs : List Char) : Option ℕ :=
  let digits := if cs.head? = some '+' then cs.tail else cs
  if digits = [] ∨ digits.any (fun c => !c.isDigit) then none
  else
    let n := digits.foldl (fun n c => 10 * n + (c.toNat - '0'.toNat)) 0
    if n ≤ U64_MAX then some n else none

/-- `strip_prefix` and `strip_suffix`. -/
def stripName (cs : List Char) : Option (List Char) :=
  let pre := SNAPSHOT_PREFIX.toList
  let suf := SNAPSHOT_SUFFIX.toList
  if pre.isPrefixOf cs then
    let cs := cs.drop pre.length
    if suf.isSuffixOf cs then some (cs.take (cs.length - suf.length)) else none
  else none

/-- `snapshot_id_from_path`. -/
def snapshotIdFromName (name : String) : Option ℕ :=
  ((stripName name.toList).bind parseU64).filter fun id => decide (snapshotFileName id = name)

/-- `manifest_is_uninitialized`. -/
def manifestIsUninitialized (bytes : List UInt8) : Bool :=
  bytes.length < SLOT_SIZE * 2 || bytes.all (· == 0)

/-! ### The store -/

/-- One proof for all the numerals of `Fin 2`. -/
instance neZero_two : NeZero 2 := ⟨by decide⟩

/-- `SnapshotStore`, less the directory and the filesystem. -/
structure SnapshotStore where
  retain : ℕ
  slots : Fin 2 → Option SlotRecord
  active : Fin 2
  poisoned : Bool

/-- `Recovered`. -/
structure Recovered where
  snapshot : List UInt8
  cursor : Cursor
deriving DecidableEq, Repr

namespace SnapshotStore

/-- `SnapshotStore::prune`. -/
def prune (s : SnapshotStore) : StoreM Unit := do
  let names ← vfs .list
  let unreferenced := ((names.filterMap snapshotIdFromName).filter fun id =>
    !decide ((s.slots 0).map (·.snapshotId) = some id) &&
      !decide ((s.slots 1).map (·.snapshotId) = some id)).insertionSort (· ≤ ·)
  let removeCount := unreferenced.length - s.retain
  (unreferenced.take removeCount).forM fun id => do
    let _ ← missingOk (.remove (snapshotFileName id))
  if removeCount > 0 then
    let _ ← vfs .fsyncDir

/-- `let _ = self.prune()`. -/
def tryPrune (s : SnapshotStore) : VfsProg Unit := s.prune.run >>= fun _ => pure ()

/-- The slots of a manifest. -/
def slotsOf (crc : Crc) (bytes : List UInt8) : Fin 2 → Option SlotRecord := fun i =>
  let start := i.val * SLOT_STRIDE
  if start + SLOT_SIZE ≤ bytes.length then decodeSlot crc ((bytes.drop start).take SLOT_SIZE)
  else none

/-- The slot with the higher version. -/
def newest (slots : Fin 2 → Option SlotRecord) : Fin 2 :=
  match slots 0, slots 1 with
  | some left, some right => if left.version < right.version then 1 else 0
  | none, some _ => 1
  | _, _ => 0

/-- `SnapshotStore::open`. -/
def openStore (crc : Crc) (retain : ℕ) : StoreM (SnapshotStore × Option Recovered) := do
  if retain = 0 then throw .retainZero
  let _ ← vfs .createDirAll
  let removed ← missingOk (.remove TEMP_FILE)
  if removed.isSome then
    let _ ← vfs .fsyncDir
  let manifest ← missingOk (.read MANIFEST_FILE)
  let slots ← match manifest with
    | some bytes => do
        let slots := slotsOf crc bytes
        if slots 0 = none ∧ slots 1 = none ∧ ¬ manifestIsUninitialized bytes then
          throw .corruptManifest
        pure slots
    | none => do
        let _ ← vfs (.write MANIFEST_FILE (List.replicate MANIFEST_SIZE 0))
        pure fun _ => none
  let active := newest slots
  let recovered ← match slots active with
    | none => pure none
    | some record => do
        let found ← missingOk (.read (snapshotFileName record.snapshotId))
        match found with
        | none => throw (.missingSnapshot record.snapshotId)
        | some snapshot => pure (some ⟨snapshot, record.cursor⟩)
  let store : SnapshotStore := ⟨retain, slots, active, false⟩
  let _ ← (ExceptT.lift store.tryPrune : StoreM Unit)
  pure (store, recovered)

/-- The version of the newest snapshot. -/
def currentVersion (s : SnapshotStore) : ℕ := (s.slots s.active).elim 0 (·.version)

/-- `SnapshotStore::commit_once` past the version counter: the store after it. -/
def commitAt (crc : Crc) (s : SnapshotStore) (version : ℕ) (snapshot : List UInt8)
    (cursor : Cursor) : StoreM SnapshotStore := do
  let older := 1 - s.active
  let _ ← vfs (.write TEMP_FILE snapshot)
  let _ ← vfs (.fsyncFile TEMP_FILE)
  let _ ← vfs (.rename TEMP_FILE (snapshotFileName version))
  let _ ← vfs .fsyncDir
  let record : SlotRecord := ⟨version, cursor, version⟩
  let _ ← vfs (.writeAt MANIFEST_FILE (older.val * SLOT_STRIDE) (encodeSlot crc record))
  let _ ← vfs (.fsyncFile MANIFEST_FILE)
  let store := { s with slots := Function.update s.slots older (some record), active := older }
  let _ ← (ExceptT.lift store.tryPrune : StoreM Unit)
  pure store

/-- `SnapshotStore::commit`: the store after it and the result.  A counter of versions that is at
its end stops the program. -/
def commit (crc : Crc) (s : SnapshotStore) (snapshot : List UInt8) (cursor : Cursor) :
    VfsProg (SnapshotStore × Outcome StoreError Unit) :=
  if s.poisoned then pure (s, .fail .poisoned)
  else if U64_MAX ≤ s.currentVersion then pure (s, .panic)
  else (s.commitAt crc (s.currentVersion + 1) snapshot cursor).run >>= fun result =>
    match result with
    | .ok store => pure (store, .ok ())
    | .error error => pure ({ s with poisoned := true }, .fail error)

/-- `SnapshotStore::durable_cursor`. -/
def durableCursor (s : SnapshotStore) : Cursor := (s.slots s.active).bind (·.cursor)

/-! ### What a commit leaves -/

section Runs

variable {α : Type} {op : VfsOp} {τ : List (Exchange VfsOp.Answer)}

/-- A primitive and what follows it. -/
theorem run_vfs_bind (f : op.Yields → StoreM α) :
    (vfs op >>= f).run = Prog.ask op fun answer =>
      match answer with
      | .ok a => (f a).run
      | .error error => .ret (.error (.io error)) := by
  show Prog.ask op _ = _
  congr 1
  funext answer
  cases answer with
  | ok a => rfl
  | error error => rfl

theorem runs_vfs_bind_ok {f : op.Yields → StoreM α} {a : α}
    (h : Prog.Runs (vfs op >>= f).run τ (.ok a)) :
    ∃ b τ', τ = ⟨op, .ok b⟩ :: τ' ∧ Prog.Runs (f b).run τ' (.ok a) := by
  rw [run_vfs_bind, Prog.runs_ask_iff] at h
  obtain ⟨answer, τ', rfl, h⟩ := h
  cases answer with
  | ok b => exact ⟨b, τ', rfl, h⟩
  | error error => cases h

/-- The store after a commit that succeeded. -/
def committed (s : SnapshotStore) (version : ℕ) (cursor : Cursor) : SnapshotStore :=
  { s with
    slots := Function.update s.slots (1 - s.active) (some ⟨version, cursor, version⟩)
    active := 1 - s.active }

theorem durableCursor_committed (s : SnapshotStore) (version : ℕ) (cursor : Cursor) :
    (s.committed version cursor).durableCursor = cursor := by
  simp [committed, durableCursor]

theorem commitAt_ok {crc : Crc} {s store : SnapshotStore} {version : ℕ} {snapshot : List UInt8}
    {cursor : Cursor} (h : Prog.Runs (s.commitAt crc version snapshot cursor).run τ (.ok store)) :
    store = s.committed version cursor := by
  unfold commitAt at h
  dsimp only at h
  obtain ⟨_, _, -, h⟩ := runs_vfs_bind_ok h
  obtain ⟨_, _, -, h⟩ := runs_vfs_bind_ok h
  obtain ⟨_, _, -, h⟩ := runs_vfs_bind_ok h
  obtain ⟨_, _, -, h⟩ := runs_vfs_bind_ok h
  obtain ⟨_, _, -, h⟩ := runs_vfs_bind_ok h
  obtain ⟨_, _, -, h⟩ := runs_vfs_bind_ok h
  rw [ExceptT.run_bind, ExceptT.run_lift] at h
  obtain ⟨_, result, _, -, hprune, h⟩ := Prog.runs_bind_iff.mp h
  obtain ⟨_, u, _, -, -, hu⟩ := Prog.runs_bind_iff.mp hprune
  cases Prog.runs_pure_iff.mp hu with
  | intro _ hresult =>
      subst hresult
      exact Except.ok.inj (Prog.runs_pure_iff.mp h).2

/-- A commit that succeeds moves the durable cursor to its own. -/
theorem commit_ok {crc : Crc} {s store : SnapshotStore} {snapshot : List UInt8} {cursor : Cursor}
    (h : Prog.Runs (s.commit crc snapshot cursor) τ (store, .ok ())) :
    store.durableCursor = cursor := by
  unfold commit at h
  by_cases hpoisoned : s.poisoned = true
  · rw [if_pos hpoisoned, Prog.runs_pure_iff] at h
    cases congrArg Prod.snd h.2
  · rw [if_neg hpoisoned] at h
    by_cases hversion : U64_MAX ≤ s.currentVersion
    · rw [if_pos hversion, Prog.runs_pure_iff] at h
      cases congrArg Prod.snd h.2
    · rw [if_neg hversion] at h
      obtain ⟨_, result, _, -, hrun, h⟩ := Prog.runs_bind_iff.mp h
      cases result with
      | error error => cases congrArg Prod.snd (Prog.runs_pure_iff.mp h).2
      | ok store' =>
          cases congrArg Prod.fst (Prog.runs_pure_iff.mp h).2
          rw [commitAt_ok hrun, durableCursor_committed]

end Runs

end SnapshotStore

end Works.Chainfold
