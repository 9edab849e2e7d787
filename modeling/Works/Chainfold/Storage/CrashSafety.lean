import Works.Chainfold.Storage.StoreRun
import Works.Lib.Crc32

/-! # What a crash leaves of the store

Three readings of the runs of the store.  Where no primitive fails, `open` finds the snapshot of
the last acknowledged commit or of the one that was in flight (`StoreRun.acked_recovered`).
Before the first acknowledgement it does so unless the first write to the manifest was torn
(`StoreRun.usable_iff`).  Where primitives fail it does so as long as no commit builds on a slot
that is not synced (`StoreRun.acked_kept`). -/

namespace Works.Chainfold

open Works.Lib CrashDir Stored SnapshotStore

variable {crc : Crc} {b n : Option Stored} {d d' : Vfs} {g : Ledger}

theorem crc32c_zeros : crc32c (List.replicate CRC_COVERED_LEN 0) ≠ 0 := by decide +kernel

/-- Every primitive has an answer. -/
theorem exec_respond {faulty : Prop} (op : VfsOp) (d : Vfs) :
    VfsOp.Exec crc faulty op d (op.respond d).1 (op.respond d).2 := .inl rfl

theorem exists_exec {faulty : Prop} (op : VfsOp) (d : Vfs) :
    ∃ answer d', VfsOp.Exec crc faulty op d answer d' := ⟨_, _, .inl rfl⟩

/-- `open`, no primitive failing: it comes to its end with a result that satisfies `post`. -/
def Opens (crc : Crc) (d : Vfs)
    (post : Except StoreError (SnapshotStore × Option Recovered) → Vfs → Prop) : Prop :=
  ∀ retain, 0 < retain → Prog.Ends (VfsOp.Exec crc False) (openStore crc retain).run d post

theorem Opens.mono {post post' : Except StoreError (SnapshotStore × Option Recovered) → Vfs → Prop}
    (h : Opens crc d post) (hpost : ∀ r d', post r d' → post' r d') : Opens crc d post' :=
  fun retain hretain => (h retain hretain).mono hpost

/-- `open` of a directory whose manifest is not torn. -/
theorem Layout.opens (hzero : crc (List.replicate CRC_COVERED_LEN 0) ≠ 0)
    (h : Layout crc b n d) (hwhole : ¬ Torn crc (d.read MANIFEST_FILE)) :
    Opens crc d fun r d' => ∃ s, r = .ok (s, (n.or b).map Stored.recovered) ∧
      Serves (n.or b) s ∧ Layout crc b n d' ∧ ∃ v, d'.read MANIFEST_FILE = some v := by
  intro retain hretain
  refine ((openStore_ensures hzero hretain h).ends exists_exec).mono ?_
  intro r d' hr
  cases r with
  | ok out =>
      obtain ⟨-, hserves, hfound, v, hl, -⟩ := hr
      exact ⟨out.1, by rw [← hfound], hserves, hl.1, v, hl.2⟩
  | error e =>
      obtain ⟨-, ⟨hfaulty, -⟩ | ⟨-, -, -, htorn⟩⟩ := hr
      · exact absurd hfaulty not_false
      · exact absurd htorn hwhole

/-- A torn manifest is refused. -/
theorem Layout.opens_torn (hzero : crc (List.replicate CRC_COVERED_LEN 0) ≠ 0)
    (h : Layout crc b n d) (htorn : Torn crc (d.read MANIFEST_FILE)) :
    Opens crc d fun r _ => r = .error .corruptManifest := by
  intro retain hretain
  refine ((openStore_ensures hzero hretain h).ends exists_exec).mono ?_
  intro r d' hr
  cases r with
  | ok out => exact absurd htorn hr.1
  | error e =>
      obtain ⟨-, ⟨hfaulty, -⟩ | ⟨rfl, -⟩⟩ := hr
      · exact absurd hfaulty not_false
      · rfl

/-- A snapshot that stands is found. -/
theorem Layout.opens_some (hzero : crc (List.replicate CRC_COVERED_LEN 0) ≠ 0) {c : Stored}
    (h : Layout crc b n d) (hc : n.or b = some c) :
    Opens crc d fun r _ => ∃ s, r = .ok (s, some c.recovered) := by
  have hstands : b = some c ∨ n = some c := by
    rcases Option.or_eq_some_iff.mp hc with hn | ⟨-, hb⟩
    · exact .inr hn
    · exact .inl hb
  obtain ⟨v, hv, hwhole⟩ := h.intact hstands
  refine (h.opens hzero (by rw [hv]; exact hwhole)).mono ?_
  rintro r d' ⟨s, rfl, -, -, -⟩
  exact ⟨s, by rw [hc]; rfl⟩

/-! ### A store with one commit -/

/-- What `open` makes of an empty directory. -/
def newStore : SnapshotStore := ⟨1, fun _ => none, 0, false⟩

/-- `open` of an empty directory. -/
def newRun : Option (Except StoreError (SnapshotStore × Option Recovered)) × Vfs :=
  Prog.runFor VfsOp.respond 9 (openStore crc32c 1).run CrashDir.empty

/-- The directory after it. -/
def newDir : Vfs := newRun.2

/-- A commit to it. -/
def firstRun : Option (SnapshotStore × Outcome StoreError Unit) × Vfs :=
  Prog.runFor VfsOp.respond 20 (newStore.commit crc32c [7] none) newDir

/-- The store after it. -/
def firstStore : SnapshotStore := (firstRun.1.map Prod.fst).getD newStore

section Sample

variable {faulty : Prop} {mayCommit : Vfs → SnapshotStore → Prop} {mayCrash : Vfs → Vfs → Prop}

theorem newDir_reached : StoreRun crc32c faulty mayCommit mayCrash newDir (some newStore)
    ⟨none, [], none, none⟩ := by
  have hopened : newRun.1 = some (.ok (newStore, none)) := rfl
  have hrun : Prog.Reaches (VfsOp.Exec crc32c faulty) (openStore crc32c 1).run CrashDir.empty
      newRun.1 newRun.2 := Prog.reaches_runFor exec_respond 9 _ CrashDir.empty
  rw [hopened] at hrun
  exact .opened .start one_pos hrun

theorem firstRun_reached (hmay : mayCommit newDir newStore) :
    StoreRun crc32c faulty mayCommit mayCrash firstRun.2 (some firstStore)
      ⟨some ⟨[7], none⟩, [], some ⟨[7], none⟩, none⟩ := by
  have hcommitted : firstRun.1.map Prod.snd = some (.ok ()) := rfl
  obtain ⟨⟨s, out⟩, hout, rfl⟩ := Option.map_eq_some_iff.mp hcommitted
  have hstore : firstStore = s := by
    rw [firstStore, hout]
    rfl
  have hrun : Prog.Reaches (VfsOp.Exec crc32c faulty) (newStore.commit crc32c [7] none) newDir
      firstRun.1 firstRun.2 := Prog.reaches_runFor exec_respond 20 _ newDir
  rw [hout] at hrun
  rw [hstore]
  exact .committed newDir_reached (x := ⟨[7], none⟩) (by rintro p ⟨⟩) hmay hrun

end Sample

/-! ### A crash with a torn manifest -/

/-- A crash that leaves the manifest with these bytes and everything else as it is. -/
def crashed (d : Vfs) (bytes : List UInt8) : Vfs where
  names := d.names
  past := []
  files := fun i => .synced (if d.names.find MANIFEST_FILE = some i then bytes else (d.files i).now)
  next := d.next

theorem crash_crashed {i : ℕ} {bytes : List UInt8} (hpast : d.past = []) (hnodup : d.list.Nodup)
    (hi : d.names.find MANIFEST_FILE = some i) (hs : (d.files i).Survives bytes)
    (htorn : TornFails crc (d.files i) bytes) : Crash crc d (crashed d bytes) where
  survives := by
    refine ⟨fun n => ⟨d.names, List.mem_cons_self, rfl⟩, hnodup, rfl, fun j => ?_, rfl⟩
    refine ⟨_, ?_, rfl⟩
    split_ifs with hj
    · rw [hi, Option.some.injEq] at hj
      rw [← hj]
      exact hs
    · exact CrashFile.survives_now _
  torn := by
    intro m hm j hj k
    unfold CrashDir.states at hm
    rw [hpast] at hm
    rw [List.mem_singleton.mp hm] at hj
    rw [hi, Option.some.injEq] at hj
    subst hj
    have hbytes : ((crashed d bytes).files i).now = bytes := if_pos hi
    rw [hbytes]
    exact htorn k

/-- A second commit, up to its write to the manifest. -/
def secondRun : Option (SnapshotStore × Outcome StoreError Unit) × Vfs :=
  Prog.runFor VfsOp.respond 5 (firstStore.commit crc32c [8] none) firstRun.2

/-- The manifest with the first byte of its slot. -/
def secondManifest : List UInt8 :=
  CrashFile.writeAt (firstRun.2.files 0).now 0 ((encodeSlot crc32c ⟨2, none, 2⟩).take 1)

theorem secondRun_cut : secondRun.1.isNone = true ∧ secondRun.2.past.isEmpty = true ∧
    secondRun.2.list.Nodup ∧ secondRun.2.names.find MANIFEST_FILE = some 0 ∧
    CrashFile.mixes secondManifest (secondRun.2.files 0).now (secondRun.2.files 0).durable = true ∧
    decodeSlot crc32c (slotBytes 0 secondManifest) = none ∧
    decodeSlot crc32c (slotBytes 1 secondManifest) =
      decodeSlot crc32c (slotBytes 1 (secondRun.2.files 0).now) := by
  decide +kernel

/-- A crash tears the slot of the second commit. -/
theorem secondRun_crashed : StoreRun crc32c False (fun _ _ => True) (Crash crc32c)
    (crashed secondRun.2 secondManifest) none
    ⟨some ⟨[7], none⟩, [⟨[8], none⟩], some ⟨[7], none⟩, some ⟨[8], none⟩⟩ := by
  obtain ⟨hcut, hpast, hnodup, hfind, hmixes, hfirst, hsecond⟩ := secondRun_cut
  have hrun : Prog.Reaches (VfsOp.Exec crc32c False) (firstStore.commit crc32c [8] none) firstRun.2
      secondRun.1 secondRun.2 := Prog.reaches_runFor exec_respond 5 _ firstRun.2
  rw [Option.isNone_iff_eq_none.mp hcut] at hrun
  have hslots : TornFails crc32c (secondRun.2.files 0) secondManifest :=
    Fin.forall_fin_two.mpr ⟨.inl hfirst, .inr ⟨_, CrashFile.now_mem_contents _, hsecond⟩⟩
  have hcrash : Crash crc32c secondRun.2 (crashed secondRun.2 secondManifest) :=
    crash_crashed (List.isEmpty_iff.mp hpast) hnodup hfind
      (CrashFile.survives_of_mixes (CrashFile.now_mem_contents _)
        (CrashFile.durable_mem_contents _) hmixes) hslots
  exact .commitCrashed (firstRun_reached trivial) (x := ⟨[8], none⟩) (by rintro p ⟨⟩) trivial hrun
    hcrash

/-! ### After an acknowledged commit -/

/-- **No crash loses an acknowledged snapshot.**  `open` succeeds and recovers what the last
acknowledged commit or the last `open` made of the store, or the commit that was in flight at a
crash since then; in any case no snapshot older than the last acknowledged one. -/
theorem StoreRun.acked_recovered
    (h : StoreRun crc32c False (fun _ _ => True) (Crash crc32c) d none g) (hacked : g.acked ≠ none) :
    Opens crc32c d fun r _ => ∃ s x, r = .ok (s, some x) ∧
      (g.held = some x ∨ g.pending = some x) ∧ (g.acked = some x ∨ x ∈ g.newer) := by
  obtain ⟨b, n, hs, hn⟩ := h.sound crc32c_zeros (fun _ _ _ hf => hf.elim) (fun _ _ hc => hc)
  obtain rfl : n = none := hn not_false
  obtain ⟨c, rfl⟩ := Option.ne_none_iff_exists'.mp (hs.acked hacked)
  refine (hs.layout.opens_some crc32c_zeros rfl).mono ?_
  rintro r d' ⟨s, rfl⟩
  refine ⟨s, c.recovered, rfl, ?_, hs.known c (.inl rfl)⟩
  rcases (hs.held not_false).1 with hheld | ⟨-, hpending⟩
  · exact .inl hheld.symm
  · exact .inr hpending.symm

theorem secondRun_recovered : Opens crc32c (crashed secondRun.2 secondManifest) fun r _ =>
    ∃ s x, r = .ok (s, some x) ∧ (some ⟨[7], none⟩ = some x ∨ some ⟨[8], none⟩ = some x) ∧
      (some ⟨[7], none⟩ = some x ∨ x ∈ [⟨[8], none⟩]) :=
  secondRun_crashed.acked_recovered (by simp)

/-! ### Before the first acknowledged commit -/

/-- The version of the newest slot of a manifest. -/
def manifestVersion (crc : Crc) (manifest : Option (List UInt8)) : ℕ :=
  manifest.elim 0 fun v => (slotsOf crc v (newest (slotsOf crc v))).elim 0 (·.version)

/-- A store without an acknowledged commit can be used: `open` succeeds and recovers nothing or
what was submitted, and a commit after it succeeds and is recovered. -/
def Usable (crc : Crc) (d : Vfs) (g : Ledger) : Prop :=
  Opens crc d fun r d₁ => ∃ s found, r = .ok (s, found) ∧ (∀ x, found = some x → x ∈ g.newer) ∧
    ∀ x : Recovered, x.Fits →
      Prog.Ends (VfsOp.Exec crc False) (s.commit crc x.snapshot x.cursor) d₁ fun out d₂ =>
        out.2 = .ok () ∧ Opens crc d₂ fun r' _ => ∃ s', r' = .ok (s', some x)

theorem Layout.manifestVersion_eq (hzero : crc (List.replicate CRC_COVERED_LEN 0) ≠ 0)
    (h : Layout crc b none d) :
    manifestVersion crc (d.read MANIFEST_FILE) = Stored.currentVersion b := by
  cases hfind : d.names.find MANIFEST_FILE with
  | none =>
      have hb : b = none := by
        refine Option.eq_none_iff_forall_ne_some.mpr fun c hc => ?_
        obtain ⟨i, hi⟩ := h.named c (.inl hc)
        rw [hi d.names List.mem_cons_self] at hfind
        cases hfind
      rw [CrashDir.read, hfind, hb]
      rfl
  | some i =>
      obtain ⟨hnewest, hslot⟩ := h.newest hzero hfind
      rw [CrashDir.read, hfind, Option.map_some, manifestVersion, Option.elim_some, hnewest, hslot]
      cases b <;> rfl

/-- A store without an acknowledged commit whose manifest is whole. -/
theorem StoreSound.usable (hs : StoreSound crc32c False b none d g) (hacked : g.acked = none)
    (hwhole : ¬ Torn crc32c (d.read MANIFEST_FILE)) (hend : Stored.currentVersion b < U64_MAX) :
    Usable crc32c d g := by
  refine (hs.layout.opens crc32c_zeros hwhole).mono ?_
  rintro r d₁ ⟨s, rfl, hserves, hl, v, hv⟩
  refine ⟨s, _, rfl, ?_, ?_⟩
  · intro x hx
    obtain ⟨c, hc, rfl⟩ := Option.map_eq_some_iff.mp hx
    rcases hs.known c (.inl hc) with hsame | hmem
    · rw [hacked] at hsame
      cases hsame
    · exact hmem
  · intro x hx
    refine ((commit_ensures crc32c_zeros hserves hl hv hx).ends exists_exec).mono ?_
    rintro ⟨s', out⟩ d₂ hout
    cases out with
    | ok u => exact ⟨rfl, hout.2.opens_some crc32c_zeros rfl⟩
    | error e =>
        rcases hout with ⟨hge, -⟩ | ⟨⟨e', -, hfaulty, -⟩, -⟩
        · exact absurd hend (not_lt.mpr hge)
        · exact hfaulty.elim

/-- **A fresh store survives crashes** exactly while its manifest is not torn and its counter of
versions is not at its end. -/
theorem StoreRun.usable_iff
    (h : StoreRun crc32c False (fun _ _ => True) (Crash crc32c) d none g) (hacked : g.acked = none) :
    Usable crc32c d g ↔ ¬ Torn crc32c (d.read MANIFEST_FILE) ∧
      manifestVersion crc32c (d.read MANIFEST_FILE) < U64_MAX := by
  obtain ⟨b, n, hs, hn⟩ := h.sound crc32c_zeros (fun _ _ _ hf => hf.elim) (fun _ _ hc => hc)
  obtain rfl : n = none := hn not_false
  rw [hs.layout.manifestVersion_eq crc32c_zeros]
  constructor
  · intro husable
    obtain ⟨r, d₁, hr, s, found, rfl, -, hcommit⟩ := (husable 1 one_pos).exists
    obtain ⟨hwhole, hserves, -⟩ :=
      (openStore_ensures crc32c_zeros one_pos hs.layout).2 _ _ hr
    refine ⟨hwhole, ?_⟩
    by_contra hend
    -- at its end the counter stops the commit
    have hstops : s.commit crc32c [] none = pure (s, .panic) := by
      unfold SnapshotStore.commit
      rw [if_neg (by rw [hserves.poisoned]; decide), hserves.currentVersion]
      exact if_pos (not_lt.mp hend)
    obtain ⟨-, hall⟩ := hcommit ⟨[], none⟩ (by rintro p ⟨⟩)
    have := (hall (s, .panic) d₁ (by
      show Prog.Reaches _ (s.commit crc32c [] none) _ _ _
      rw [hstops]
      exact .ret _ _)).1
    cases this
  · rintro ⟨hwhole, hend⟩
    exact hs.usable hacked hwhole hend

theorem newDir_usable_iff : Usable crc32c newDir ⟨none, [], none, none⟩ ↔
    ¬ Torn crc32c (newDir.read MANIFEST_FILE) ∧
      manifestVersion crc32c (newDir.read MANIFEST_FILE) < U64_MAX :=
  newDir_reached.closed.usable_iff rfl

/-- The first commit, up to its write to the manifest. -/
def tornRun : Option (SnapshotStore × Outcome StoreError Unit) × Vfs :=
  Prog.runFor VfsOp.respond 5 (newStore.commit crc32c [7] none) newDir

/-- The manifest with the first byte of the slot. -/
def tornManifest : List UInt8 :=
  CrashFile.writeAt (newDir.files 0).now SLOT_STRIDE ((encodeSlot crc32c ⟨1, none, 1⟩).take 1)

theorem torn_first_commit_refused : ∃ (d : Vfs) (g : Ledger),
    StoreRun crc32c False (fun _ _ => True) (Crash crc32c) d none g ∧ g.acked = none ∧
      ¬ Usable crc32c d g := by
  have hslots : ∀ j, decodeSlot crc32c (slotBytes j tornManifest) = none := by decide +kernel
  have hcut : tornRun.1 = none := rfl
  have hrun : Prog.Reaches (VfsOp.Exec crc32c False) (newStore.commit crc32c [7] none) newDir
      tornRun.1 tornRun.2 := Prog.reaches_runFor exec_respond 5 _ newDir
  rw [hcut] at hrun
  have hfile : (tornRun.2.files 0) =
      (newDir.files 0).write SLOT_STRIDE (encodeSlot crc32c ⟨1, none, 1⟩) := rfl
  obtain ⟨hnodup, hfind, hlen⟩ : tornRun.2.list.Nodup ∧
      tornRun.2.names.find MANIFEST_FILE = some 0 ∧
      SLOT_STRIDE + SLOT_SIZE ≤ (newDir.files 0).now.length := by
    decide +kernel
  have hcrash : Crash crc32c tornRun.2 (crashed tornRun.2 tornManifest) := by
    refine crash_crashed rfl hnodup hfind ?_ fun j => .inl (hslots j)
    rw [hfile]
    refine CrashFile.survives_torn _ (CrashFile.now_mem_contents _) 1 ?_
    rw [length_encodeSlot]
    exact hlen
  have hreached : StoreRun crc32c False (fun _ _ => True) (Crash crc32c)
      (crashed tornRun.2 tornManifest) none ⟨none, [⟨[7], none⟩], none, some ⟨[7], none⟩⟩ :=
    .commitCrashed newDir_reached (x := ⟨[7], none⟩) (by rintro p ⟨⟩) trivial hrun hcrash
  refine ⟨_, _, hreached, rfl, fun husable => ?_⟩
  obtain ⟨b, n, hs, -⟩ := hreached.sound crc32c_zeros (fun _ _ _ hf => hf.elim) (fun _ _ hc => hc)
  have htorn : Torn crc32c ((crashed tornRun.2 tornManifest).read MANIFEST_FILE) := by
    refine ⟨tornManifest, rfl, fun j => ?_, by decide +kernel⟩
    rw [slotsOf_eq]
    exact hslots j
  obtain ⟨r, d', hr, s, found, rfl, -⟩ := (husable 1 one_pos).exists
  have hrefused := (hs.layout.opens_torn crc32c_zeros htorn 1 one_pos).2 _ _ hr
  cases hrefused

/-! ### With primitives that fail -/

/-- **No failed commit loses an acknowledged snapshot**, while every commit builds on a slot that
is synced: `open` recovers the last acknowledged snapshot or a newer one. -/
theorem StoreRun.acked_kept (h : StoreRun crc32c True SlotSynced (Crash crc32c) d none g)
    (hacked : g.acked ≠ none) :
    Opens crc32c d fun r _ => ∃ s x, r = .ok (s, some x) ∧ (g.acked = some x ∨ x ∈ g.newer) := by
  obtain ⟨b, n, hs, -⟩ := h.sound crc32c_zeros (fun _ _ hc _ => hc) (fun _ _ hc => hc)
  obtain ⟨c, hc, hstands⟩ : ∃ c, n.or b = some c ∧ (b = some c ∨ n = some c) := by
    cases hn : n with
    | some c => exact ⟨c, rfl, .inr rfl⟩
    | none =>
        obtain ⟨c, hb⟩ := Option.ne_none_iff_exists'.mp (hs.acked hacked)
        exact ⟨c, hb, .inl hb⟩
  refine (hs.layout.opens_some crc32c_zeros hc).mono ?_
  rintro r d' ⟨s, rfl⟩
  exact ⟨s, c.recovered, rfl, hs.known c hstands⟩

/-- Primitives in the time of a commit whose sync of the manifest fails. -/
def failing (op : VfsOp) (d : Vfs) : op.Answer × Vfs :=
  if op = .fsyncFile MANIFEST_FILE then (.error (.other 0), d) else op.respond d

theorem exec_failing (op : VfsOp) (d : Vfs) :
    VfsOp.Exec crc True op d (failing op d).1 (failing op d).2 := by
  unfold failing
  split_ifs
  · exact .inr ⟨trivial, ⟨0, rfl⟩, .undone op d⟩
  · exact .inl rfl

/-- A commit that fails. -/
def failedRun : Option (SnapshotStore × Outcome StoreError Unit) × Vfs :=
  Prog.runFor failing 20 (firstStore.commit crc32c [8] none) firstRun.2

theorem failedRun_fails {mayCommit : Vfs → SnapshotStore → Prop} {mayCrash : Vfs → Vfs → Prop}
    (hnew : mayCommit newDir newStore) (hfirst : mayCommit firstRun.2 firstStore) : ∃ s,
    StoreRun crc32c True mayCommit mayCrash failedRun.2 (some s)
      ⟨some ⟨[7], none⟩, [⟨[8], none⟩], some ⟨[7], none⟩, none⟩ := by
  have hfailed : failedRun.1.map Prod.snd = some (.error (.err (.io (.other 0)))) := rfl
  obtain ⟨⟨s, out⟩, hout, rfl⟩ := Option.map_eq_some_iff.mp hfailed
  have hrun : Prog.Reaches (VfsOp.Exec crc32c True) (firstStore.commit crc32c [8] none) firstRun.2
      failedRun.1 failedRun.2 := Prog.reaches_runFor exec_failing 20 _ firstRun.2
  rw [hout] at hrun
  exact ⟨s, .commitFailed (firstRun_reached hnew) (x := ⟨[8], none⟩) (by rintro p ⟨⟩) hfirst hrun⟩

theorem firstRun_synced : SlotSynced firstRun.2 firstStore := by
  have hsynced : firstRun.2.names.find MANIFEST_FILE = some 0 ∧
      ∀ v ∈ (firstRun.2.files 0).contents,
        slotBytes firstStore.active v = slotBytes firstStore.active (firstRun.2.files 0).now := by
    decide +kernel
  intro record _ i hi v hv
  cases hsynced.1.symm.trans hi
  exact hsynced.2 v hv

theorem failedRun_kept : Opens crc32c failedRun.2 fun r _ => ∃ s x, r = .ok (s, some x) ∧
    (some ⟨[7], none⟩ = some x ∨ x ∈ [⟨[8], none⟩]) := by
  have hsynced : SlotSynced newDir newStore := by
    rintro record ⟨⟩
  obtain ⟨s, hreached⟩ := failedRun_fails hsynced firstRun_synced
  exact hreached.closed.acked_kept (by simp)

/-- `open` after it. -/
def reopenedRun : Option (Except StoreError (SnapshotStore × Option Recovered)) × Vfs :=
  Prog.runFor VfsOp.respond 9 (openStore crc32c 1).run failedRun.2

/-- What `open` recovers, where it succeeds. -/
def foundBy (r : Option (Except StoreError (SnapshotStore × Option Recovered))) :
    Option (Option Recovered) :=
  match r with
  | some (.ok (_, found)) => some found
  | _ => none

/-- The store that `open` makes, where it succeeds. -/
def storeOf (r : Option (Except StoreError (SnapshotStore × Option Recovered))) : SnapshotStore :=
  match r with
  | some (.ok (s, _)) => s
  | _ => newStore

theorem eq_of_foundBy {r : Option (Except StoreError (SnapshotStore × Option Recovered))}
    {found : Option Recovered} (h : foundBy r = some found) :
    r = some (.ok (storeOf r, found)) := by
  unfold foundBy at h
  split at h
  · cases h
    rfl
  · cases h

/-- The store that adopts the failed commit. -/
def reopenedStore : SnapshotStore := storeOf reopenedRun.1

/-- A commit to it, up to its write to the manifest. -/
def overwritingRun : Option (SnapshotStore × Outcome StoreError Unit) × Vfs :=
  Prog.runFor VfsOp.respond 5 (reopenedStore.commit crc32c [9] none) reopenedRun.2

/-- The manifest without the failed commit and with the first byte of the last one. -/
def lostManifest : List UInt8 :=
  CrashFile.writeAt (firstRun.2.files 0).now SLOT_STRIDE ((encodeSlot crc32c ⟨3, none, 3⟩).take 1)

/-- `open` after a crash that leaves it. -/
def lostRun : Option (Except StoreError (SnapshotStore × Option Recovered)) × Vfs :=
  Prog.runFor VfsOp.respond 9 (openStore crc32c 1).run (crashed overwritingRun.2 lostManifest)

theorem overwritingRun_cut : overwritingRun.1.isNone = true ∧ overwritingRun.2.past.isEmpty = true ∧
    overwritingRun.2.list.Nodup ∧ overwritingRun.2.names.find MANIFEST_FILE = some 0 ∧
    CrashFile.mixes lostManifest (overwritingRun.2.files 0).now
      (overwritingRun.2.files 0).durable = true := by
  decide +kernel

theorem acked_lost : ∃ (d : Vfs) (g : Ledger),
    StoreRun crc32c True (fun _ _ => True) (Crash crc32c) d none g ∧ g.acked ≠ none ∧
      ¬ Opens crc32c d fun r _ => ∃ s x, r = .ok (s, some x) ∧ (g.acked = some x ∨ x ∈ g.newer) := by
  have hslots : ∀ j, decodeSlot crc32c (slotBytes j lostManifest) = none := by decide +kernel
  -- the commit that fails
  obtain ⟨s, hfail⟩ := (@failedRun_fails (fun _ _ => True) (Crash crc32c)) trivial trivial
  -- `open` adopts it
  have hfound : foundBy reopenedRun.1 = some (some ⟨[8], none⟩) := by decide +kernel
  have hopen : Prog.Reaches (VfsOp.Exec crc32c True) (openStore crc32c 1).run failedRun.2
      reopenedRun.1 reopenedRun.2 := Prog.reaches_runFor exec_respond 9 _ failedRun.2
  rw [eq_of_foundBy hfound] at hopen
  -- the next commit overwrites the slot of the acknowledged one
  obtain ⟨hcut, hpast, hnodup, hfind, hmixes⟩ := overwritingRun_cut
  have hcommit : Prog.Reaches (VfsOp.Exec crc32c True) (reopenedStore.commit crc32c [9] none)
      reopenedRun.2 overwritingRun.1 overwritingRun.2 :=
    Prog.reaches_runFor exec_respond 5 _ reopenedRun.2
  rw [Option.isNone_iff_eq_none.mp hcut] at hcommit
  have hcrash : Crash crc32c overwritingRun.2 (crashed overwritingRun.2 lostManifest) :=
    crash_crashed (List.isEmpty_iff.mp hpast) hnodup hfind
      (CrashFile.survives_of_mixes (CrashFile.now_mem_contents _)
        (CrashFile.durable_mem_contents _) hmixes) fun j => .inl (hslots j)
  have hreached : StoreRun crc32c True (fun _ _ => True) (Crash crc32c)
      (crashed overwritingRun.2 lostManifest) none
      ⟨some ⟨[7], none⟩, [⟨[9], none⟩, ⟨[8], none⟩], some ⟨[8], none⟩, some ⟨[9], none⟩⟩ :=
    .commitCrashed (.opened hfail.closed one_pos hopen) (x := ⟨[9], none⟩) (by rintro p ⟨⟩) trivial
      hcommit hcrash
  refine ⟨_, _, hreached, by simp, fun hopens => ?_⟩
  -- neither slot passes its checksum
  obtain ⟨-, hall⟩ := hopens 1 one_pos
  obtain ⟨hends, hlost⟩ : lostRun.1.isSome = true ∧ foundBy lostRun.1 = none := by decide +kernel
  obtain ⟨r, hr⟩ := Option.isSome_iff_exists.mp hends
  have hrun : Prog.Reaches (VfsOp.Exec crc32c False) (openStore crc32c 1).run
      (crashed overwritingRun.2 lostManifest) lostRun.1 lostRun.2 :=
    Prog.reaches_runFor exec_respond 9 _ _
  rw [hr] at hrun hlost
  obtain ⟨s'', x, rfl, -⟩ := hall _ _ hrun
  cases hlost

end Works.Chainfold
