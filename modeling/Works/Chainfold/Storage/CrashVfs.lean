import Works.Lib.CrashDir
import Works.Lib.CrashRun
import Works.Chainfold.Storage.Store

/-! # The filesystem under the store

What the primitives of `Vfs` do on a directory that may crash, as `CrashVfs` does it.  A primitive
may also fail: its effect is then done, undone or torn, and what was not durable stays so.  A
missing file is the only reason for `NotFound`. -/

namespace Works.Chainfold

open Works.Lib

/-- The directory of the store. -/
abbrev Vfs := CrashDir String UInt8

/-- A primitive on a path that may be missing. -/
def orNotFound (d : Vfs) (r : Option Vfs) : Except IoError Unit × Vfs :=
  match r with
  | some d' => (.ok (), d')
  | none => (.error .notFound, d)

/-- What a primitive answers and does. -/
def VfsOp.respond (op : VfsOp) (d : Vfs) : op.Answer × Vfs :=
  match op with
  | .createDirAll => (.ok (), d)
  | .read name => (match d.read name with
      | some bytes => .ok bytes
      | none => .error .notFound, d)
  | .write name bytes => (.ok (), d.write name bytes)
  | .writeAt name offset bytes => (.ok (), d.writeAt name offset bytes)
  | .fsyncFile name => orNotFound d (d.fsyncFile name)
  | .rename old new => orNotFound d (d.rename old new)
  | .remove name => orNotFound d (d.remove name)
  | .list => (.ok d.list, d)
  | .fsyncDir => (.ok (), d.fsyncDir)

/-- The bytes of a slot. -/
def slotBytes (i : Fin 2) (bytes : List UInt8) : List UInt8 :=
  (bytes.drop (i.val * SLOT_STRIDE)).take SLOT_SIZE

/-- Every slot of `bytes` reads as in one of the states of the file, or fails its checksum: a torn
slot fails its checksum. -/
def TornFails (crc : Crc) (f : CrashFile UInt8) (bytes : List UInt8) : Prop :=
  ∀ i, decodeSlot crc (slotBytes i bytes) = none ∨
    ∃ v ∈ f.contents, decodeSlot crc (slotBytes i bytes) = decodeSlot crc (slotBytes i v)

/-- What a primitive that fails leaves. -/
inductive VfsOp.Leaves (crc : Crc) : VfsOp → Vfs → Vfs → Prop where
  | undone (op : VfsOp) (d : Vfs) : Leaves crc op d d
  | done (op : VfsOp) (d : Vfs) : Leaves crc op d (op.respond d).2
  | tornWrite (name : String) (bytes : List UInt8) (n : ℕ) (d : Vfs) :
      Leaves crc (.write name bytes) d (d.write name (bytes.take n))
  | tornWriteAt (name : String) (offset : ℕ) (bytes : List UInt8) (n : ℕ) (d : Vfs)
      (htorn : ∀ i, TornFails crc ((d.writeAt name offset bytes).files i)
        ((d.writeAt name offset (bytes.take n)).files i).now) :
      Leaves crc (.writeAt name offset bytes) d (d.writeAt name offset (bytes.take n))

/-- A primitive does what it should, or fails where that may happen. -/
def VfsOp.Exec (crc : Crc) (faulty : Prop) (op : VfsOp) (d : Vfs) (answer : op.Answer) (d' : Vfs) :
    Prop :=
  (answer, d') = op.respond d ∨
    faulty ∧ (∃ kind, answer = .error (.other kind)) ∧ op.Leaves crc d d'

/-- A crash, in which a torn slot fails its checksum. -/
structure Crash (crc : Crc) (d d' : Vfs) : Prop where
  survives : d.Survives d'
  torn : ∀ m ∈ d.states, ∀ i, m.find MANIFEST_FILE = some i →
    TornFails crc (d.files i) (d'.files i).now

theorem slotsOf_eq (crc : Crc) (bytes : List UInt8) (i : Fin 2) :
    SnapshotStore.slotsOf crc bytes i = decodeSlot crc (slotBytes i bytes) := by
  unfold SnapshotStore.slotsOf slotBytes
  dsimp only
  by_cases h : i.val * SLOT_STRIDE + SLOT_SIZE ≤ bytes.length
  · rw [if_pos h]
  · rw [if_neg h, decodeSlot, if_pos]
    simp only [List.length_take, List.length_drop]
    have : 0 < SLOT_SIZE := by decide
    omega

/-! ### Rules -/

section Rules

variable {crc : Crc} {faulty : Prop} {I : Vfs → Prop} {α : Type} {d d' : Vfs}

/-- A primitive that can be answered. -/
theorem ensures_vfs {op : VfsOp} {f : op.Yields → StoreM α}
    {post : Except StoreError α → Vfs → Prop} {a : op.Yields} (hI : I d)
    (hok : op.respond d = (.ok a, d'))
    (hnext : Prog.Ensures (VfsOp.Exec crc faulty) (f a).run d' I post)
    (hfails : faulty → ∀ kind d'', op.Leaves crc d d'' →
      I d'' ∧ post (.error (.io (.other kind))) d'') :
    Prog.Ensures (VfsOp.Exec crc faulty) (vfs op >>= f).run d I post := by
  rw [SnapshotStore.run_vfs_bind]
  refine Prog.ensures_ask hI ?_
  rintro r s (hr | ⟨hfaulty, ⟨kind, rfl⟩, hleaves⟩)
  · rw [hok] at hr
    cases hr
    exact hnext
  · obtain ⟨hI', hpost⟩ := hfails hfaulty kind s hleaves
    exact Prog.ensures_ret hI' hpost

theorem run_missingOk_bind {op : VfsOp} (f : Option op.Yields → StoreM α) :
    (missingOk op >>= f).run = Prog.ask op fun answer =>
      match answer with
      | .ok a => (f (some a)).run
      | .error .notFound => (f none).run
      | .error error => .ret (.error (.io error)) := by
  show Prog.ask op _ = _
  congr 1
  funext answer
  cases answer with
  | ok a => rfl
  | error error => cases error <;> rfl

/-- A primitive on a path that may be missing. -/
theorem ensures_missingOk {op : VfsOp} {f : Option op.Yields → StoreM α}
    {post : Except StoreError α → Vfs → Prop} (hI : I d)
    (hok : ∀ a d', op.respond d = (.ok a, d') →
      Prog.Ensures (VfsOp.Exec crc faulty) (f (some a)).run d' I post)
    (hmissing : ∀ d', op.respond d = (.error .notFound, d') →
      Prog.Ensures (VfsOp.Exec crc faulty) (f none).run d' I post)
    (hother : ∀ kind d', op.respond d ≠ (.error (.other kind), d'))
    (hfails : faulty → ∀ kind d'', op.Leaves crc d d'' →
      I d'' ∧ post (.error (.io (.other kind))) d'') :
    Prog.Ensures (VfsOp.Exec crc faulty) (missingOk op >>= f).run d I post := by
  rw [run_missingOk_bind]
  refine Prog.ensures_ask hI ?_
  rintro r s (hr | ⟨hfaulty, ⟨kind, rfl⟩, hleaves⟩)
  · cases r with
    | ok a => exact hok a s hr.symm
    | error e =>
        cases e with
        | notFound => exact hmissing s hr.symm
        | other kind => exact absurd hr.symm (hother kind s)
  · obtain ⟨hI', hpost⟩ := hfails hfaulty kind s hleaves
    exact Prog.ensures_ret hI' hpost

/-- A primitive that does not write to a file leaves what it found or what it does. -/
theorem VfsOp.Leaves.cases_of_not_write {op : VfsOp} (h : op.Leaves crc d d')
    (hw : ∀ name bytes, op ≠ .write name bytes) (hwa : ∀ name offset bytes,
      op ≠ .writeAt name offset bytes) : d' = d ∨ d' = (op.respond d).2 := by
  cases h with
  | undone => exact .inl rfl
  | done => exact .inr rfl
  | tornWrite name bytes => exact absurd rfl (hw name bytes)
  | tornWriteAt name offset bytes => exact absurd rfl (hwa name offset bytes)

end Rules

end Works.Chainfold
