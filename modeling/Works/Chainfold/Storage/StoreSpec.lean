import Works.Chainfold.Storage.Layout

/-! # What the store does to the directory

`prune`, `open` and `commit_once` over the layout of the directory, cut short at any primitive and
with or without primitives that fail. -/

namespace Works.Chainfold

open Works.Lib CrashDir Stored

variable {crc : Crc} {faulty : Prop} {b n : Option Stored} {d d' : Vfs} {α β : Type}

/-- The layout, with what the manifest reads. -/
def LaidOut (crc : Crc) (b n : Option Stored) (manifest : Option (List UInt8)) (d : Vfs) : Prop :=
  Layout crc b n d ∧ d.read MANIFEST_FILE = manifest

theorem LaidOut.away {manifest : Option (List UInt8)} (h : LaidOut crc b n manifest d)
    (ha : Away (SafeName b n) TEMP_FILE d d') : LaidOut crc b n manifest d' :=
  ⟨h.1.away ha, (ha.read safeName_manifest).trans h.2⟩

/-- One program after another. -/
theorem ensures_bind {x : StoreM α} {f : α → StoreM β} {I : Vfs → Prop}
    {post : Except StoreError β → Vfs → Prop}
    (h : Prog.Ensures (VfsOp.Exec crc faulty) x.run d I fun r d' => match r with
      | .ok a => Prog.Ensures (VfsOp.Exec crc faulty) (f a).run d' I post
      | .error e => I d' ∧ post (.error e) d') :
    Prog.Ensures (VfsOp.Exec crc faulty) (x >>= f).run d I post := by
  rw [ExceptT.run_bind]
  refine Prog.Ensures.bind (h.mono (fun _ hI => hI) ?_)
  intro r d' hr
  cases r with
  | ok a => exact hr
  | error e => exact Prog.ensures_ret hr.1 hr.2

/-- A part that cannot fail. -/
theorem ensures_lift_bind {p : VfsProg α} {f : α → StoreM β} {I : Vfs → Prop}
    {post : Except StoreError β → Vfs → Prop}
    (h : Prog.Ensures (VfsOp.Exec crc faulty) p d I fun a d' =>
      Prog.Ensures (VfsOp.Exec crc faulty) (f a).run d' I post) :
    Prog.Ensures (VfsOp.Exec crc faulty) (ExceptT.lift p >>= f).run d I post := by
  rw [ExceptT.run_bind, ExceptT.run_lift, map_eq_pure_bind, bind_assoc]
  simp only [pure_bind]
  exact h.bind

/-- A primitive has failed. -/
def Failed (faulty : Prop) (e : StoreError) : Prop := faulty ∧ ∃ kind, e = .io (.other kind)

/-- A manifest that was written to, and in which neither slot passes its checksum. -/
def Torn (crc : Crc) (manifest : Option (List UInt8)) : Prop :=
  ∃ v, manifest = some v ∧ (∀ i, SnapshotStore.slotsOf crc v i = none) ∧
    manifestIsUninitialized v = false

/-! ### `prune` -/

namespace SnapshotStore

/-- The snapshots of the layout are those of the slots. -/
def References (s : SnapshotStore) (b n : Option Stored) : Prop :=
  ∀ c, b = some c ∨ n = some c → ∃ i, s.slots i = some c.record

theorem not_safeName_of_unreferenced {s : SnapshotStore} (hs : s.References b n) {id : ℕ}
    (hid : ∀ i, (s.slots i).map (·.snapshotId) ≠ some id) :
    ¬ SafeName b n (snapshotFileName id) := by
  rintro (h | ⟨c, hc, h⟩)
  · exact snapshotFileName_ne_manifest _ h
  · obtain ⟨i, hi⟩ := hs c hc
    refine hid i ?_
    rw [hi, snapshotFileName_inj h]
    rfl

/-- Removing a file that is not referenced. -/
theorem away_remove (hw : Watch (SafeName b n) TEMP_FILE d) {name : String}
    (hname : ¬ SafeName b n name) :
    Away (SafeName b n) TEMP_FILE d ((VfsOp.remove name).respond d).2 := by
  cases hr : d.remove name with
  | none =>
      rw [VfsOp.respond, hr]
      exact .refl hw.fresh
  | some d' =>
      rw [VfsOp.respond, hr]
      exact hw.remove hname hr

theorem removeAll_ensures {manifest : Option (List UInt8)} (ids : List ℕ)
    (hids : ∀ id ∈ ids, ¬ SafeName b n (snapshotFileName id)) (h : LaidOut crc b n manifest d) :
    Prog.Ensures (VfsOp.Exec crc faulty) (ids.forM fun id => do
      let _ ← missingOk (.remove (snapshotFileName id)) : StoreM Unit).run d
      (LaidOut crc b n manifest) (fun _ => LaidOut crc b n manifest) := by
  induction ids generalizing d with
  | nil => exact Prog.ensures_ret h h
  | cons id ids ih =>
      have hname := hids id List.mem_cons_self
      have hnext := fun d' (h' : LaidOut crc b n manifest d') =>
        ih (fun id hid => hids id (List.mem_cons_of_mem _ hid)) h'
      have haway := away_remove h.1.watch hname
      change Prog.Ensures _ ((missingOk (.remove (snapshotFileName id)) >>= fun _ => pure ()) >>=
        fun _ => ids.forM fun id => do
          let _ ← missingOk (.remove (snapshotFileName id)) : StoreM Unit).run d _ _
      refine ensures_bind (ensures_missingOk h ?_ ?_ ?_ ?_)
      · intro a d' hd
        rw [hd] at haway
        exact Prog.ensures_ret (h.away haway) (hnext d' (h.away haway))
      · intro d' hd
        rw [hd] at haway
        exact Prog.ensures_ret (h.away haway) (hnext d' (h.away haway))
      · intro kind d' hd
        simp only [VfsOp.respond, orNotFound] at hd
        split at hd <;> cases hd
      · intro _ kind d' hleaves
        have h' : LaidOut crc b n manifest d' := by
          rcases hleaves.cases_of_not_write (by rintro _ _ ⟨⟩) (by rintro _ _ _ ⟨⟩) with rfl | rfl
          · exact h
          · exact h.away haway
        exact ⟨h', h', h'⟩

/-- **`prune`** keeps the snapshots that the slots name. -/
theorem prune_ensures {manifest : Option (List UInt8)} {s : SnapshotStore} (hs : s.References b n)
    (h : LaidOut crc b n manifest d) :
    Prog.Ensures (VfsOp.Exec crc faulty) s.prune.run d (LaidOut crc b n manifest)
      (fun _ => LaidOut crc b n manifest) := by
  unfold prune
  refine ensures_vfs h rfl ?_ ?_
  · dsimp only
    refine ensures_bind ((removeAll_ensures _ ?_ h).mono (fun _ h => h) ?_)
    · intro id hid
      refine not_safeName_of_unreferenced hs fun i => ?_
      have hmem := List.mem_of_mem_take hid
      rw [List.mem_insertionSort, List.mem_filter, Bool.and_eq_true, Bool.not_eq_true',
        Bool.not_eq_true', decide_eq_false_iff_not, decide_eq_false_iff_not] at hmem
      fin_cases i
      · exact hmem.2.1
      · exact hmem.2.2
    · intro r d' h'
      cases r with
      | error e => exact ⟨h', h'⟩
      | ok _ =>
          dsimp only
          split_ifs with hpos
          · refine ensures_vfs h' rfl ?_ ?_
            · have := h'.away h'.1.watch.fsyncDir
              exact Prog.ensures_ret this this
            · intro _ kind d'' hleaves
              have h'' : LaidOut crc b n manifest d'' := by
                rcases hleaves.cases_of_not_write (by rintro _ _ ⟨⟩) (by rintro _ _ _ ⟨⟩) with
                  rfl | rfl
                · exact h'
                · exact h'.away h'.1.watch.fsyncDir
              exact ⟨h'', h''⟩
          · exact Prog.ensures_ret h' h'
  · intro _ kind d' hleaves
    have h' : LaidOut crc b n manifest d' := by
      rcases hleaves.cases_of_not_write (by rintro _ _ ⟨⟩) (by rintro _ _ _ ⟨⟩) with rfl | rfl
      · exact h
      · exact h
    exact ⟨h', h'⟩

theorem tryPrune_ensures {manifest : Option (List UInt8)} {s : SnapshotStore} (hs : s.References b n)
    (h : LaidOut crc b n manifest d) :
    Prog.Ensures (VfsOp.Exec crc faulty) s.tryPrune d (LaidOut crc b n manifest)
      (fun _ => LaidOut crc b n manifest) :=
  Prog.Ensures.bind ((prune_ensures hs h).mono (fun _ h => h) fun _ _ h' =>
    Prog.ensures_ret h' h')

/-- The store is open on `t`, the newest snapshot it has found or made. -/
structure Serves (t : Option Stored) (s : SnapshotStore) : Prop where
  active : s.active = Stored.active t
  slot : s.slots s.active = t.map Stored.record
  poisoned : s.poisoned = false

theorem Serves.currentVersion {s : SnapshotStore} {t : Option Stored} (h : Serves t s) :
    s.currentVersion = Stored.currentVersion t := by
  unfold SnapshotStore.currentVersion
  rw [h.slot]
  cases t <;> rfl

/-! ### `open` -/

/-- `open`: remove what a commit has left. -/
def removeTemp : StoreM Unit := do
  let removed ← missingOk (.remove TEMP_FILE)
  if removed.isSome then
    let _ ← vfs .fsyncDir

/-- `open`: the slots of the manifest. -/
def readSlots (crc : Crc) : StoreM (Fin 2 → Option SlotRecord) := do
  let manifest ← missingOk (.read MANIFEST_FILE)
  match manifest with
  | some bytes => do
      let slots := slotsOf crc bytes
      if slots 0 = none ∧ slots 1 = none ∧ ¬ manifestIsUninitialized bytes then
        throw .corruptManifest
      pure slots
  | none => do
      let _ ← vfs (.write MANIFEST_FILE (List.replicate MANIFEST_SIZE 0))
      pure fun _ => none

/-- `open`: the snapshot of the newest slot. -/
def readSnapshot (slots : Fin 2 → Option SlotRecord) : StoreM (Option Recovered) :=
  match slots (newest slots) with
  | none => pure none
  | some record => do
      let found ← missingOk (.read (snapshotFileName record.snapshotId))
      match found with
      | none => throw (.missingSnapshot record.snapshotId)
      | some snapshot => pure (some ⟨snapshot, record.cursor⟩)

theorem throw_bind (e : StoreError) (f : α → StoreM β) : (throw e >>= f) = throw e := rfl

theorem removeTemp_bind (k : Unit → StoreM α) :
    (removeTemp >>= k) = (do
      let removed ← missingOk (.remove TEMP_FILE)
      if removed.isSome then do
        let _ ← vfs .fsyncDir
        k ()
      else k ()) := by
  unfold removeTemp
  simp only [bind_assoc]
  congr 1
  funext removed
  split_ifs
  · simp only [bind_assoc, pure_bind]
  · simp only [pure_bind]

theorem readSlots_bind (k : (Fin 2 → Option SlotRecord) → StoreM α) :
    (readSlots crc >>= k) = (do
      let manifest ← missingOk (.read MANIFEST_FILE)
      match manifest with
      | some bytes =>
          if slotsOf crc bytes 0 = none ∧ slotsOf crc bytes 1 = none ∧
              ¬ manifestIsUninitialized bytes then
            throw .corruptManifest
          else k (slotsOf crc bytes)
      | none => do
          let _ ← vfs (.write MANIFEST_FILE (List.replicate MANIFEST_SIZE 0))
          k fun _ => none) := by
  unfold readSlots
  simp only [bind_assoc]
  congr 1
  funext manifest
  cases manifest with
  | none => simp only [bind_assoc, pure_bind]
  | some bytes =>
      dsimp only
      split_ifs
      · rfl
      · simp only [pure_bind]

theorem readSnapshot_bind (slots : Fin 2 → Option SlotRecord)
    (k : Option Recovered → StoreM α) :
    (readSnapshot slots >>= k) = (match slots (newest slots) with
      | none => k none
      | some record => do
          let found ← missingOk (.read (snapshotFileName record.snapshotId))
          match found with
          | none => throw (.missingSnapshot record.snapshotId)
          | some snapshot => k (some ⟨snapshot, record.cursor⟩)) := by
  unfold readSnapshot
  cases slots (newest slots) with
  | none => simp only [pure_bind]
  | some record =>
      simp only [bind_assoc]
      congr 1
      funext found
      cases found with
      | none => rfl
      | some snapshot => simp only [pure_bind]

/-- `open` in its parts. -/
theorem openStore_eq (crc : Crc) {retain : ℕ} (hretain : 0 < retain) :
    openStore crc retain = (do
      let _ ← vfs .createDirAll
      removeTemp
      let slots ← readSlots crc
      let recovered ← readSnapshot slots
      let store : SnapshotStore := ⟨retain, slots, newest slots, false⟩
      let _ ← (ExceptT.lift store.tryPrune : StoreM Unit)
      pure (store, recovered)) := by
  unfold openStore
  rw [if_neg (by omega)]
  conv_lhs => simp only [pure_bind, throw_bind]
  refine congrArg _ (funext fun _ => Eq.trans ?_ (removeTemp_bind _).symm)
  refine congrArg _ (funext fun removed => ?_)
  split_ifs
  · refine congrArg _ (funext fun _ => Eq.trans ?_ (readSlots_bind _).symm)
    refine congrArg _ (funext fun manifest => ?_)
    cases manifest with
    | none => rfl
    | some bytes =>
        refine if_congr Iff.rfl rfl (Eq.trans ?_ (readSnapshot_bind _ _).symm)
        rfl
  · refine Eq.trans (congrArg _ (funext fun manifest => ?_)) (readSlots_bind _).symm
    cases manifest with
    | none => rfl
    | some bytes =>
        refine if_congr Iff.rfl rfl (Eq.trans ?_ (readSnapshot_bind _ _).symm)
        rfl

theorem removeTemp_ensures {manifest : Option (List UInt8)} (h : LaidOut crc b n manifest d) :
    Prog.Ensures (VfsOp.Exec crc faulty) removeTemp.run d (LaidOut crc b n manifest)
      (fun r d' => LaidOut crc b n manifest d' ∧ ∀ e, r = .error e → Failed faulty e) := by
  have haway := away_remove h.1.watch (not_safeName_temp (b := b) (n := n))
  unfold removeTemp
  refine ensures_missingOk h ?_ ?_ ?_ ?_
  · intro a d' hd
    rw [hd] at haway
    have h' := h.away haway
    refine ensures_vfs h' rfl ?_ ?_
    · have h'' := h'.away h'.1.watch.fsyncDir
      exact Prog.ensures_ret h'' ⟨h'', by rintro e ⟨⟩⟩
    · intro hf kind d'' hleaves
      have h'' : LaidOut crc b n manifest d'' := by
        rcases hleaves.cases_of_not_write (by rintro _ _ ⟨⟩) (by rintro _ _ _ ⟨⟩) with rfl | rfl
        · exact h'
        · exact h'.away h'.1.watch.fsyncDir
      exact ⟨h'', h'', by rintro e ⟨⟩; exact ⟨hf, kind, rfl⟩⟩
  · intro d' hd
    rw [hd] at haway
    exact Prog.ensures_ret (h.away haway) ⟨h.away haway, by rintro e ⟨⟩⟩
  · intro kind d' hd
    simp only [VfsOp.respond, orNotFound] at hd
    split at hd <;> cases hd
  · intro hf kind d' hleaves
    have h' : LaidOut crc b n manifest d' := by
      rcases hleaves.cases_of_not_write (by rintro _ _ ⟨⟩) (by rintro _ _ _ ⟨⟩) with rfl | rfl
      · exact h
      · exact h.away haway
    exact ⟨h', h', by rintro e ⟨⟩; exact ⟨hf, kind, rfl⟩⟩

theorem read_eq_some {name : String} {v : List UInt8} (h : d.read name = some v) :
    ∃ i, d.names.find name = some i ∧ v = (d.files i).now := by
  obtain ⟨i, hi, rfl⟩ := Option.map_eq_some_iff.mp h
  exact ⟨i, hi, rfl⟩

/-- The slots are those of a manifest that was read or made. -/
theorem readSlots_ensures (hzero : crc (List.replicate CRC_COVERED_LEN 0) ≠ 0)
    (h : Layout crc b n d) :
    Prog.Ensures (VfsOp.Exec crc faulty) (readSlots crc).run d (Layout crc b n)
      (fun r d' => match r with
        | .ok slots => ¬ Torn crc (d.read MANIFEST_FILE) ∧
            ∃ v, LaidOut crc b n (some v) d' ∧ slots = slotsOf crc v ∧ ¬ Torn crc (some v)
        | .error e => Layout crc b n d' ∧ (Failed faulty e ∨
            e = .corruptManifest ∧ b = none ∧ n = none ∧ Torn crc (d.read MANIFEST_FILE))) := by
  unfold readSlots
  refine ensures_missingOk h ?_ ?_ ?_ ?_
  · intro v d' hd
    have hread : d.read MANIFEST_FILE = some v ∧ d' = d := by
      simp only [VfsOp.respond] at hd
      cases hr : d.read MANIFEST_FILE with
      | none => simp [hr] at hd
      | some v' =>
          rw [hr] at hd
          cases hd
          exact ⟨rfl, rfl⟩
    obtain ⟨hread, rfl⟩ := hread
    dsimp only
    split_ifs with hbad
    · refine Prog.ensures_ret h ⟨h, .inr ⟨rfl, ?_⟩⟩
      obtain ⟨i, hi, rfl⟩ := read_eq_some hread
      have hslots : ∀ j, slotsOf crc (d'.files i).now j = none := by
        intro j
        fin_cases j
        · exact hbad.1
        · exact hbad.2.1
      have hno : ∀ c, ¬ (b = some c ∨ n = some c) := by
        intro c hc
        have := h.slot hi hc
        rw [hslots] at this
        cases this
      refine ⟨Option.eq_none_iff_forall_ne_some.mpr fun c hc => hno c (.inl hc),
        Option.eq_none_iff_forall_ne_some.mpr fun c hc => hno c (.inr hc), _, hread, hslots, ?_⟩
      simpa using hbad.2.2
    · have hwhole : ¬ Torn crc (some v) := by
        rintro ⟨v', hv', hslots, hinit⟩
        cases hv'
        exact hbad ⟨hslots 0, hslots 1, by simp [hinit]⟩
      refine Prog.ensures_ret h ⟨?_, v, ⟨h, hread⟩, rfl, hwhole⟩
      rw [hread]
      exact hwhole
  · intro d' hd
    have hread : d.names.find MANIFEST_FILE = none ∧ d' = d := by
      simp only [VfsOp.respond] at hd
      cases hr : d.names.find MANIFEST_FILE with
      | none =>
          rw [CrashDir.read, hr] at hd
          cases hd
          exact ⟨rfl, rfl⟩
      | some i => simp [CrashDir.read, hr] at hd
    obtain ⟨hnone, rfl⟩ := hread
    have hcreate : ∀ k, b = none ∧ n = none ∧ Layout crc b n
        (d'.write MANIFEST_FILE ((List.replicate MANIFEST_SIZE 0).take k)) := fun k =>
      h.create hzero hnone fun x hx => List.eq_of_mem_replicate (List.mem_of_mem_take hx)
    have hwhole : Layout crc b n (d'.write MANIFEST_FILE (List.replicate MANIFEST_SIZE 0)) := by
      have := (hcreate MANIFEST_SIZE).2.2
      rwa [List.take_of_length_le (by simp)] at this
    refine ensures_vfs h rfl ?_ ?_
    · refine Prog.ensures_ret hwhole ⟨?_, List.replicate MANIFEST_SIZE 0, ⟨hwhole, ?_⟩, ?_, ?_⟩
      · rintro ⟨v', hv', -, -⟩
        rw [CrashDir.read, hnone] at hv'
        cases hv'
      · obtain ⟨i, hi, hnow⟩ := write_spec d' MANIFEST_FILE (List.replicate MANIFEST_SIZE 0)
        unfold CrashDir.read
        rw [hi, Option.map_some, hnow]
      · funext j
        rw [slotsOf_eq, decodeSlot_zeros hzero]
        intro x hx
        exact List.eq_of_mem_replicate (List.mem_of_mem_drop (List.mem_of_mem_take hx))
      · rintro ⟨v', hv', -, hinit⟩
        cases hv'
        simp [manifestIsUninitialized] at hinit
    · intro hf kind d'' hleaves
      have h'' : Layout crc b n d'' := by
        cases hleaves with
        | undone => exact h
        | done => exact hwhole
        | tornWrite _ _ k => exact (hcreate k).2.2
      exact ⟨h'', h'', .inl ⟨hf, kind, rfl⟩⟩
  · intro kind d' hd
    simp only [VfsOp.respond] at hd
    split at hd <;> cases hd
  · intro hf kind d' hleaves
    have h' : Layout crc b n d' := by
      rcases hleaves.cases_of_not_write (by rintro _ _ ⟨⟩) (by rintro _ _ _ ⟨⟩) with rfl | rfl
      · exact h
      · exact h
    exact ⟨h', h', .inl ⟨hf, kind, rfl⟩⟩

/-- The newest snapshot is there. -/
theorem readSnapshot_ensures (hzero : crc (List.replicate CRC_COVERED_LEN 0) ≠ 0)
    {v : List UInt8} (h : LaidOut crc b n (some v) d) :
    Prog.Ensures (VfsOp.Exec crc faulty) (readSnapshot (slotsOf crc v)).run d
      (LaidOut crc b n (some v)) (fun r d' => LaidOut crc b n (some v) d' ∧ match r with
        | .ok recovered => recovered = (n.or b).map Stored.recovered
        | .error e => Failed faulty e) := by
  obtain ⟨i, hi, hv⟩ := read_eq_some h.2
  obtain ⟨hnewest, hslot⟩ := h.1.newest hzero hi
  rw [← hv] at hnewest hslot
  unfold readSnapshot
  rw [hnewest, hslot]
  cases ht : n.or b with
  | none => exact Prog.ensures_ret h ⟨h, rfl⟩
  | some c =>
      have hc : b = some c ∨ n = some c := by
        rcases Option.or_eq_some_iff.mp ht with hn | ⟨-, hb⟩
        · exact .inr hn
        · exact .inl hb
      obtain ⟨j, hj, hcont, -⟩ := h.1.snapshot c hc
      have hread : d.read (snapshotFileName c.version) = some c.snapshot := by
        unfold CrashDir.read
        rw [hj d.names List.mem_cons_self, Option.map_some, hcont _ (CrashFile.now_mem_contents _)]
      refine ensures_missingOk h ?_ ?_ ?_ ?_
      · intro bytes d' hd
        simp only [VfsOp.respond, Stored.record, hread, Prod.mk.injEq] at hd
        obtain ⟨hbytes, rfl⟩ := hd
        cases hbytes
        exact Prog.ensures_ret h ⟨h, rfl⟩
      · intro d' hd
        simp [VfsOp.respond, Stored.record, hread] at hd
      · intro kind d' hd
        simp [VfsOp.respond, Stored.record, hread] at hd
      · intro hf kind d' hleaves
        have h' : LaidOut crc b n (some v) d' := by
          rcases hleaves.cases_of_not_write (by rintro _ _ ⟨⟩) (by rintro _ _ _ ⟨⟩) with rfl | rfl
          · exact h
          · exact h
        exact ⟨h', h', hf, kind, rfl⟩

/-- **`open`** returns the newest snapshot, unless a primitive fails, or the manifest of a store
without snapshots is torn. -/
theorem openStore_ensures (hzero : crc (List.replicate CRC_COVERED_LEN 0) ≠ 0) {retain : ℕ}
    (hretain : 0 < retain) (h : Layout crc b n d) :
    Prog.Ensures (VfsOp.Exec crc faulty) (openStore crc retain).run d (Layout crc b n)
      (fun r d' => match r with
        | .ok (s, recovered) => ¬ Torn crc (d.read MANIFEST_FILE) ∧ Serves (n.or b) s ∧
            recovered = (n.or b).map Stored.recovered ∧
            ∃ v, LaidOut crc b n (some v) d' ∧ ¬ Torn crc (some v)
        | .error e => Layout crc b n d' ∧ (Failed faulty e ∨
            e = .corruptManifest ∧ b = none ∧ n = none ∧ Torn crc (d.read MANIFEST_FILE))) := by
  have h₀ : LaidOut crc b n (d.read MANIFEST_FILE) d := ⟨h, rfl⟩
  rw [openStore_eq crc hretain]
  refine ensures_vfs h rfl ?_ ?_
  · refine ensures_bind ((removeTemp_ensures h₀).mono (fun _ h' => h'.1) ?_)
    rintro r d₁ ⟨h₁, hr⟩
    cases r with
    | error e => exact ⟨h₁.1, h₁.1, .inl (hr e rfl)⟩
    | ok _ =>
        refine ensures_bind ((readSlots_ensures hzero h₁.1).mono (fun _ h' => h') ?_)
        intro r d₂ hslots
        cases r with
        | error e =>
            rw [h₁.2] at hslots
            exact ⟨hslots.1, hslots⟩
        | ok slots =>
            rw [h₁.2] at hslots
            obtain ⟨hwhole, v, h₂, rfl, hinit⟩ := hslots
            refine ensures_bind ((readSnapshot_ensures hzero h₂).mono (fun _ h' => h'.1) ?_)
            rintro r d₃ ⟨h₃, hr⟩
            cases r with
            | error e => exact ⟨h₃.1, h₃.1, .inl hr⟩
            | ok recovered =>
                obtain ⟨i, hi, hv⟩ := read_eq_some h₃.2
                obtain ⟨hnewest, hslot⟩ := h₃.1.newest hzero hi
                rw [← hv] at hnewest hslot
                have hserves : Serves (n.or b)
                    ⟨retain, slotsOf crc v, newest (slotsOf crc v), false⟩ := by
                  constructor
                  · dsimp only
                    exact hnewest
                  · dsimp only
                    rw [← hslot, ← hnewest]
                  · rfl
                have hrefs : (⟨retain, slotsOf crc v, newest (slotsOf crc v), false⟩ :
                    SnapshotStore).References b n := by
                  intro c hc
                  refine ⟨c.slot, ?_⟩
                  rw [hv]
                  exact h₃.1.slot hi hc
                refine ensures_lift_bind ((tryPrune_ensures hrefs h₃).mono (fun _ h' => h'.1) ?_)
                intro _ d₄ h₄
                exact Prog.ensures_ret h₄.1 ⟨hwhole, hserves, hr, v, h₄, hinit⟩
  · intro hf kind d' hleaves
    have h' : Layout crc b n d' := by
      rcases hleaves.cases_of_not_write (by rintro _ _ ⟨⟩) (by rintro _ _ _ ⟨⟩) with rfl | rfl
      · exact h
      · exact h
    exact ⟨h', h', .inl ⟨hf, kind, rfl⟩⟩

/-! ### `commit` -/

/-- The states of the directory while `c` is committed after `b`. -/
def Committing (crc : Crc) (b : Option Stored) (c : Stored) (d : Vfs) : Prop :=
  Layout crc b none d ∨ Layout crc b (some c) d ∨ Layout crc (some c) none d

/-- A snapshot is written to the temporary file, synced and renamed, and its name synced. -/
theorem fileOf_ensures {c : Stored} {mi : ℕ} {f : StoreM α} {post : Except StoreError α → Vfs → Prop}
    (h : Layout crc b none d) (hmi : d.names.find MANIFEST_FILE = some mi)
    (hslot : c.slot = 1 - Stored.active b) (hnewer : Stored.currentVersion b < c.version)
    (hfails : faulty → ∀ kind d', Layout crc b none d' →
      Committing crc b c d' ∧ post (.error (.io (.other kind))) d')
    (hnext : ∀ d', Layout crc b none d' → ReadyFor c mi b d' →
      Prog.Ensures (VfsOp.Exec crc faulty) f.run d' (Committing crc b c) post) :
    Prog.Ensures (VfsOp.Exec crc faulty) (do
      let _ ← vfs (.write TEMP_FILE c.snapshot)
      let _ ← vfs (.fsyncFile TEMP_FILE)
      let _ ← vfs (.rename TEMP_FILE (snapshotFileName c.version))
      let _ ← vfs .fsyncDir
      f : StoreM α).run d (Committing crc b c) post := by
  have hno : ¬ SafeName b none (snapshotFileName c.version) := by
    rintro (h0 | ⟨c', hc' | hc', h0⟩)
    · exact snapshotFileName_ne_manifest _ h0
    · rw [hc'] at hnewer
      have : c'.version < c.version := hnewer
      have := snapshotFileName_inj h0
      omega
    · cases hc'
  have hmove : ∀ {d d' : Vfs}, Layout crc b none d ∧ d.names.find MANIFEST_FILE = some mi →
      Away (SafeName b none) TEMP_FILE d d' →
      Layout crc b none d' ∧ d'.names.find MANIFEST_FILE = some mi := fun h ha =>
    ⟨h.1.away ha, (ha.now _ safeName_manifest).trans h.2⟩
  have hwrite : ∀ xs, Away (SafeName b none) TEMP_FILE d (d.write TEMP_FILE xs) :=
    h.watch.write not_safeName_temp
  -- write
  refine ensures_vfs (.inl h) rfl ?_ ?_
  · have h₁ := hmove ⟨h, hmi⟩ (hwrite c.snapshot)
    obtain ⟨j, hj, hnow⟩ := write_spec d TEMP_FILE c.snapshot
    have hne : j ≠ mi := by
      rintro rfl
      exact h₁.1.watch.apart _ List.mem_cons_self _ List.mem_cons_self _ safeName_manifest j h₁.2 hj
    generalize d.write TEMP_FILE c.snapshot = d₁ at h₁ hj hnow
    -- sync
    have hsync := fsyncFile_eq hj
    have h₂ := hmove h₁ (h₁.1.watch.fsyncFile hsync)
    have hresp₂ : (VfsOp.fsyncFile TEMP_FILE).respond d₁ =
        (.ok (), d₁.setFile j (d₁.files j).sync) := by
      rw [VfsOp.respond, hsync]
      rfl
    have hcont : ∀ v ∈ ((d₁.setFile j (d₁.files j).sync).files j).contents, v = c.snapshot := by
      rw [setFile_files_self, CrashFile.contents_sync, hnow]
      simp
    have hj₂ : (d₁.setFile j (d₁.files j).sync).names.find TEMP_FILE = some j := hj
    refine ensures_vfs (.inl h₁.1) hresp₂ ?_ ?_
    · generalize d₁.setFile j (d₁.files j).sync = d₂ at h₂ hcont hj₂
      -- rename
      have hne' : snapshotFileName c.version ≠ TEMP_FILE := snapshotFileName_ne_temp _
      have hren := rename_eq (snapshotFileName c.version) hj₂
      have h₃ := hmove h₂ (h₂.1.watch.rename not_safeName_temp hno hne' hren)
      have hresp₃ : (VfsOp.rename TEMP_FILE (snapshotFileName c.version)).respond d₂ =
          (.ok (), d₂.become ((d₂.names.erase TEMP_FILE).insert (snapshotFileName c.version) j)) := by
        rw [VfsOp.respond, hren]
        rfl
      refine ensures_vfs (.inl h₂.1) hresp₃ ?_ ?_
      · -- sync the names
        have h₄ := hmove h₃ h₃.1.watch.fsyncDir
        refine ensures_vfs (.inl h₃.1) rfl ?_ ?_
        · refine hnext _ h₄.1 ⟨rfl, h₄.2, ?_, ⟨j, ?_, hcont, hne⟩, hslot, hnewer⟩
          · show ((d₂.names.erase TEMP_FILE).insert _ j).find TEMP_FILE = none
            rw [Names.find_insert_of_ne _ hne'.symm, Names.find_erase_self]
          · exact Names.find_insert_self _ _ _
        · intro hf kind d' hleaves
          rcases hleaves.cases_of_not_write (by rintro _ _ ⟨⟩) (by rintro _ _ _ ⟨⟩) with rfl | rfl
          · exact hfails hf kind _ h₃.1
          · exact hfails hf kind _ h₄.1
      · intro hf kind d' hleaves
        rcases hleaves.cases_of_not_write (by rintro _ _ ⟨⟩) (by rintro _ _ _ ⟨⟩) with rfl | rfl
        · exact hfails hf kind _ h₂.1
        · rw [hresp₃]
          exact hfails hf kind _ h₃.1
    · intro hf kind d' hleaves
      rcases hleaves.cases_of_not_write (by rintro _ _ ⟨⟩) (by rintro _ _ _ ⟨⟩) with rfl | rfl
      · exact hfails hf kind _ h₁.1
      · rw [hresp₂]
        exact hfails hf kind _ h₂.1
  · intro hf kind d' hleaves
    cases hleaves with
    | undone => exact hfails hf kind _ h
    | done => exact hfails hf kind _ (h.away (hwrite _))
    | tornWrite => exact hfails hf kind _ (h.away (hwrite _))

/-- **`commit_once`**: the newer snapshot stands, or a primitive has failed. -/
theorem commitAt_ensures (hzero : crc (List.replicate CRC_COVERED_LEN 0) ≠ 0)
    {s : SnapshotStore} (hs : Serves b s) (h : Layout crc b none d) {mi : ℕ}
    (hmi : d.names.find MANIFEST_FILE = some mi) {x : Recovered}
    (hfits : (next b x).record.Fits) :
    Prog.Ensures (VfsOp.Exec crc faulty)
      (s.commitAt crc (Stored.currentVersion b + 1) x.snapshot x.cursor).run d
      (Committing crc b (next b x)) (fun r d' => match r with
        | .ok s' => Serves (some (next b x)) s' ∧ Layout crc (some (next b x)) none d'
        | .error e => Failed faulty e ∧ Committing crc b (next b x) d') := by
  have hslot : (next b x).slot = 1 - Stored.active b := rfl
  have holder : 1 - s.active = (next b x).slot := by
    rw [hs.active]
    rfl
  refine fileOf_ensures (c := next b x) h hmi hslot (Nat.lt_succ_self _) ?_ ?_
  · intro hf kind d' h'
    exact ⟨.inl h', ⟨hf, kind, rfl⟩, .inl h'⟩
  · intro d' h' hr
    rw [holder]
    have hok := h'.manifest d'.names List.mem_cons_self mi hr.manifest
    have hwriteAt := fun xs => writeAt_eq hr.manifest ((next b x).slot.val * SLOT_STRIDE) xs
    -- the slot
    have h₁ := h'.setManifest (n := some (next b x)) hr (by rintro c' ⟨⟩; rfl)
      (hok.write hslot hfits)
    have hresp : (VfsOp.writeAt MANIFEST_FILE ((next b x).slot.val * SLOT_STRIDE)
        (encodeSlot crc (next b x).record)).respond d' = (.ok (), d'.setFile mi
          ((d'.files mi).write ((next b x).slot.val * SLOT_STRIDE)
            (encodeSlot crc (next b x).record))) := by
      rw [VfsOp.respond, hwriteAt]
    refine ensures_vfs (.inl h') hresp ?_ ?_
    · generalize hd₁ : d'.setFile mi ((d'.files mi).write ((next b x).slot.val * SLOT_STRIDE)
        (encodeSlot crc (next b x).record)) = d₁ at h₁
      have hmi₁ : d₁.names.find MANIFEST_FILE = some mi := by
        rw [← hd₁]
        exact hr.manifest
      -- sync
      have h₂ := (h₁.syncManifest hmi₁).settle hzero
        (show (d₁.setFile mi (d₁.files mi).sync).names.find MANIFEST_FILE = some mi from hmi₁) (by
          rw [setFile_files_self]
          simp [CrashFile.sync])
      have hresp₂ : (VfsOp.fsyncFile MANIFEST_FILE).respond d₁ =
          (.ok (), d₁.setFile mi (d₁.files mi).sync) := by
        rw [VfsOp.respond, fsyncFile_eq hmi₁]
        rfl
      refine ensures_vfs (.inr (.inl h₁)) hresp₂ ?_ ?_
      · have hserves : Serves (some (next b x)) { s with
            slots := Function.update s.slots (next b x).slot (some (next b x).record)
            active := (next b x).slot } := by
          constructor
          · rfl
          · dsimp only
            rw [Function.update_self]
            rfl
          · exact hs.poisoned
        have hrefs : SnapshotStore.References { s with
            slots := Function.update s.slots (next b x).slot (some (next b x).record)
            active := (next b x).slot } (some (next b x)) none := by
          rintro c' (hc' | hc')
          · cases hc'
            exact ⟨(next b x).slot, Function.update_self _ _ _⟩
          · cases hc'
        refine ensures_lift_bind ((tryPrune_ensures hrefs ⟨h₂, rfl⟩).mono
          (fun _ h' => .inr (.inr h'.1)) ?_)
        intro _ d₃ h₃
        exact Prog.ensures_ret (.inr (.inr h₃.1)) ⟨hserves, h₃.1⟩
      · intro hf kind d'' hleaves
        rcases hleaves.cases_of_not_write (by rintro _ _ ⟨⟩) (by rintro _ _ _ ⟨⟩) with rfl | rfl
        · exact ⟨.inr (.inl h₁), ⟨hf, kind, rfl⟩, .inr (.inl h₁)⟩
        · rw [hresp₂]
          exact ⟨.inr (.inr h₂), ⟨hf, kind, rfl⟩, .inr (.inr h₂)⟩
    · intro hf kind d'' hleaves
      have h'' : Committing crc b (next b x) d'' := by
        cases hleaves with
        | undone => exact .inl h'
        | done =>
            show Committing crc b (next b x) ((VfsOp.writeAt MANIFEST_FILE
              ((next b x).slot.val * SLOT_STRIDE) (encodeSlot crc (next b x).record)).respond d').2
            rw [hresp]
            exact .inr (.inl h₁)
        | tornWriteAt _ _ _ k _ htorn =>
            have htorn := htorn mi
            rw [hwriteAt, hwriteAt, setFile_files_self, setFile_files_self] at htorn
            rw [hwriteAt]
            rcases hok.torn hslot hfits k htorn with hnone | hnew
            · exact .inl (h'.setManifest hr (by rintro c' ⟨⟩) hnone)
            · exact .inr (.inl (h'.setManifest hr (by rintro c' ⟨⟩; rfl) hnew))
      exact ⟨h'', ⟨hf, kind, rfl⟩, h''⟩

end SnapshotStore

end Works.Chainfold
