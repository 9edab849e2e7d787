import Works.Chainfold.Storage.CrashSafety

/-! # Opening again

What one `open` finds every later `open` finds, as long as nobody commits, and wherever crashes
come between and inside them (`StoreRun.recovery_stays`).  An `open` whose own primitives fail
may return their error and never a wrong snapshot (`StoreRun.failures_told`).  A store without
an acknowledged commit can be used after every run whose crashes leave the manifest whole
(`StoreRun.fresh_usable`). -/

namespace Works.Chainfold

open Works.Lib CrashDir Stored SnapshotStore

variable {crc : Crc} {b n : Option Stored} {d d' : Vfs} {g : Ledger}

/-! ### Without commits -/

/-- An `open` comes to its end, or a crash cuts it short. -/
inductive Reopening (crc : Crc) (d : Vfs) : Vfs → Prop where
  | ended {d' : Vfs} {retain : ℕ} {r : Except StoreError (SnapshotStore × Option Recovered)}
      (hretain : 0 < retain)
      (ho : Prog.Reaches (VfsOp.Exec crc False) (openStore crc retain).run d (some r) d') :
      Reopening crc d d'
  | crashed {d₁ d' : Vfs} {retain : ℕ} (hretain : 0 < retain)
      (ho : Prog.Reaches (VfsOp.Exec crc False) (openStore crc retain).run d none d₁)
      (hcrash : Crash crc d₁ d') : Reopening crc d d'

/-- What stands in the directory stays. -/
theorem Layout.reopening (hzero : crc (List.replicate CRC_COVERED_LEN 0) ≠ 0)
    (h : Layout crc b none d) (hr : Reopening crc d d') : Layout crc b none d' := by
  cases hr with
  | @ended _ _ r hretain ho =>
      have hpost := (openStore_ensures hzero hretain h).2 _ _ ho
      cases r with
      | ok out =>
          obtain ⟨-, -, -, v, hl, -⟩ := hpost
          exact hl.1
      | error e => exact hpost.1
  | crashed hretain ho hcrash =>
      have hcut := (openStore_ensures hzero hretain h).1 _ ho
      rcases hcut.crash hzero hcrash with hl | ⟨c, hc, -⟩
      · exact hl
      · cases hc

/-- **What `open` finds is settled.**  After every run with an acknowledged commit there is one
snapshot that `open` recovers, now and after any further opens and crashes: what the last
acknowledged commit or the last `open` made of the store, or the commit that was in flight at a
crash since then. -/
theorem StoreRun.recovery_stays
    (h : StoreRun crc32c False (fun _ _ => True) (Crash crc32c) d none g) (hacked : g.acked ≠ none) :
    ∃ x, (g.held = some x ∨ g.pending = some x) ∧ (g.acked = some x ∨ x ∈ g.newer) ∧
      ∀ d', Relation.ReflTransGen (Reopening crc32c) d d' →
        Opens crc32c d' fun r _ => ∃ s, r = .ok (s, some x) := by
  obtain ⟨b, n, hs, hn⟩ := h.sound crc32c_zeros (fun _ _ _ hf => hf.elim) (fun _ _ hc => hc)
  obtain rfl : n = none := hn not_false
  obtain ⟨c, rfl⟩ := Option.ne_none_iff_exists'.mp (hs.acked hacked)
  refine ⟨c.recovered, ?_, hs.known c (.inl rfl), ?_⟩
  · rcases (hs.held not_false).1 with hheld | ⟨-, hpending⟩
    · exact .inl hheld.symm
    · exact .inr hpending.symm
  · intro d' hd'
    have hlayout : Layout crc32c (some c) none d' := by
      induction hd' with
      | refl => exact hs.layout
      | tail _ hstep ih => exact ih.reopening crc32c_zeros hstep
    exact hlayout.opens_some crc32c_zeros rfl

/-! ### A commit that survives its crash -/

/-- A crash after which the manifest and the directory are as they were. -/
def crashedWhole (d : Vfs) : Vfs := crashed d (d.files 0).now

theorem crash_crashedWhole (hpast : d.past.isEmpty = true) (hnodup : d.list.Nodup)
    (hi : d.names.find MANIFEST_FILE = some 0) : Crash crc d (crashedWhole d) :=
  crash_crashed (List.isEmpty_iff.mp hpast) hnodup hi (CrashFile.survives_now _)
    fun _ => .inr ⟨_, CrashFile.now_mem_contents _, rfl⟩

/-- A second commit, up to its sync of the manifest. -/
def keptRun : Option (SnapshotStore × Outcome StoreError Unit) × Vfs :=
  Prog.runFor VfsOp.respond 6 (firstStore.commit crc32c [8] none) firstRun.2

/-- `open` after a crash. -/
def adoptingRun : Option (Except StoreError (SnapshotStore × Option Recovered)) × Vfs :=
  Prog.runFor VfsOp.respond 9 (openStore crc32c 1).run (crashedWhole keptRun.2)

/-- `open` after the next crash. -/
def laterRun : Option (Except StoreError (SnapshotStore × Option Recovered)) × Vfs :=
  Prog.runFor VfsOp.respond 9 (openStore crc32c 1).run (crashedWhole adoptingRun.2)

theorem keptRun_cut : keptRun.1.isNone = true ∧ keptRun.2.past.isEmpty = true ∧
    keptRun.2.list.Nodup ∧ keptRun.2.names.find MANIFEST_FILE = some 0 := by
  decide +kernel

theorem adoptingRun_found : foundBy adoptingRun.1 = some (some ⟨[8], none⟩) ∧
    adoptingRun.2.past.isEmpty = true ∧ adoptingRun.2.list.Nodup ∧
    adoptingRun.2.names.find MANIFEST_FILE = some 0 := by
  decide +kernel

theorem laterRun_found : foundBy laterRun.1 = some (some ⟨[8], none⟩) := by decide +kernel

/-- The run: a commit that comes to its end on the disk and is not acknowledged, an `open`, and
another commit that does not get to the disk. -/
theorem keptRun_reached : StoreRun crc32c False (fun _ _ => True) (Crash crc32c)
    (crashedWhole adoptingRun.2) none
    ⟨some ⟨[7], none⟩, [⟨[9], none⟩, ⟨[8], none⟩], some ⟨[8], none⟩, some ⟨[9], none⟩⟩ := by
  obtain ⟨hcut, hpast, hnodup, hfind⟩ := keptRun_cut
  have hrun : Prog.Reaches (VfsOp.Exec crc32c False) (firstStore.commit crc32c [8] none) firstRun.2
      keptRun.1 keptRun.2 := Prog.reaches_runFor exec_respond 6 _ firstRun.2
  rw [Option.isNone_iff_eq_none.mp hcut] at hrun
  have hkept : StoreRun crc32c False (fun _ _ => True) (Crash crc32c)
      (crashedWhole keptRun.2) none
      ⟨some ⟨[7], none⟩, [⟨[8], none⟩], some ⟨[7], none⟩, some ⟨[8], none⟩⟩ :=
    .commitCrashed (firstRun_reached trivial) (x := ⟨[8], none⟩) (by rintro p ⟨⟩) trivial hrun
      (crash_crashedWhole hpast hnodup hfind)
  -- `open` adopts it
  obtain ⟨hfound, hpast', hnodup', hfind'⟩ := adoptingRun_found
  have hopen : Prog.Reaches (VfsOp.Exec crc32c False) (openStore crc32c 1).run
      (crashedWhole keptRun.2) adoptingRun.1 adoptingRun.2 :=
    Prog.reaches_runFor exec_respond 9 _ _
  rw [eq_of_foundBy hfound] at hopen
  -- the next commit is cut short before its first primitive
  exact .commitCrashed (.opened hkept one_pos hopen) (x := ⟨[9], none⟩) (by rintro p ⟨⟩) trivial
    (.cut _ _) (crash_crashedWhole hpast' hnodup' hfind')

theorem keptRun_stays : ∃ x : Recovered, (some ⟨[8], none⟩ = some x ∨ some ⟨[9], none⟩ = some x) ∧
    (some ⟨[7], none⟩ = some x ∨ x ∈ [⟨[9], none⟩, ⟨[8], none⟩]) ∧
    ∀ d', Relation.ReflTransGen (Reopening crc32c) (crashedWhole adoptingRun.2) d' →
      Opens crc32c d' fun r _ => ∃ s, r = .ok (s, some x) :=
  keptRun_reached.recovery_stays (by simp)

/-- What an earlier `open` has adopted is neither acknowledged nor in flight. -/
theorem adopted_recovered : ∃ (d : Vfs) (g : Ledger),
    StoreRun crc32c False (fun _ _ => True) (Crash crc32c) d none g ∧ g.acked ≠ none ∧
      ¬ Opens crc32c d fun r _ => ∃ s x, r = .ok (s, some x) ∧
        (g.acked = some x ∨ g.pending = some x) := by
  refine ⟨_, _, keptRun_reached, by simp, fun hopens => ?_⟩
  obtain ⟨-, hall⟩ := hopens 1 one_pos
  have hrun : Prog.Reaches (VfsOp.Exec crc32c False) (openStore crc32c 1).run
      (crashedWhole adoptingRun.2) laterRun.1 laterRun.2 :=
    Prog.reaches_runFor exec_respond 9 _ _
  rw [eq_of_foundBy laterRun_found] at hrun
  obtain ⟨s, x, hr, hx⟩ := hall _ _ hrun
  rw [← (Prod.mk.inj (Except.ok.inj hr)).2] at hx
  revert hx
  decide

/-! ### An `open` whose primitives fail -/

/-- **`open` tells a failure from a loss.**  After every run with failing primitives in which each
commit builds on a slot that is synced, an `open` whose own primitives may fail as well recovers
the last acknowledged snapshot or a newer one, or returns the error of a primitive. -/
theorem StoreRun.failures_told (h : StoreRun crc32c True SlotSynced (Crash crc32c) d none g)
    (hacked : g.acked ≠ none) (faulty : Prop) {retain : ℕ} (hretain : 0 < retain) :
    Prog.Ends (VfsOp.Exec crc32c faulty) (openStore crc32c retain).run d fun r _ =>
      (∃ s x, r = .ok (s, some x) ∧ (g.acked = some x ∨ x ∈ g.newer)) ∨
        ∃ e, r = .error e ∧ Failed faulty e := by
  obtain ⟨b, n, hs, -⟩ := h.sound crc32c_zeros (fun _ _ hc _ => hc) (fun _ _ hc => hc)
  obtain ⟨c₀, hb⟩ := Option.ne_none_iff_exists'.mp (hs.acked hacked)
  refine ((openStore_ensures crc32c_zeros hretain hs.layout).ends exists_exec).mono ?_
  intro r d' hr
  cases r with
  | ok out =>
      obtain ⟨s, found⟩ := out
      obtain ⟨-, -, hfound, -⟩ := hr
      cases hn : n with
      | some c =>
          rw [hn] at hfound
          exact .inl ⟨s, c.recovered, by rw [hfound]; rfl, hs.known c (.inr hn)⟩
      | none =>
          rw [hn, hb] at hfound
          exact .inl ⟨s, c₀.recovered, by rw [hfound]; rfl, hs.known c₀ (.inl hb)⟩
  | error e =>
      obtain ⟨-, hfail | ⟨-, hnone, -⟩⟩ := hr
      · exact .inr ⟨e, rfl, hfail⟩
      · rw [hb] at hnone
        cases hnone

theorem failedRun_told : Prog.Ends (VfsOp.Exec crc32c True) (openStore crc32c 1).run failedRun.2
    fun r _ => (∃ s x, r = .ok (s, some x) ∧ (some ⟨[7], none⟩ = some x ∨ x ∈ [⟨[8], none⟩])) ∨
      ∃ e, r = .error e ∧ Failed True e := by
  have hsynced : SlotSynced newDir newStore := by
    rintro record ⟨⟩
  obtain ⟨s, hreached⟩ := failedRun_fails hsynced firstRun_synced
  exact hreached.closed.failures_told (by simp) True one_pos

/-! ### Before the first acknowledgement -/

/-- A crash that does not tear the manifest. -/
def CrashWhole (crc : Crc) (d d' : Vfs) : Prop :=
  Crash crc d d' ∧ ¬ Torn crc (d'.read MANIFEST_FILE)

section Fresh

variable {h : Option SnapshotStore} {s : SnapshotStore}

/-- What a run without failing primitives and torn manifests keeps. -/
theorem StoreRun.soundWhole (hzero : crc (List.replicate CRC_COVERED_LEN 0) ≠ 0)
    (hrun : StoreRun crc False (fun _ _ => True) (CrashWhole crc) d h g) :
    SoundState crc False d h g :=
  hrun.sound hzero (fun _ _ _ hf => hf.elim) (fun _ _ hc => hc.1)

/-- An open store has found its manifest whole. -/
theorem StoreRun.whole_of_open (hzero : crc (List.replicate CRC_COVERED_LEN 0) ≠ 0)
    (hrun : StoreRun crc False (fun _ _ => True) (CrashWhole crc) d (some s) g) :
    ¬ Torn crc (d.read MANIFEST_FILE) := by
  obtain ⟨b, n, hs⟩ := hrun.soundWhole hzero
  rcases hs.serves with ⟨hf, -⟩ | ⟨-, v, hv, hwhole⟩
  · exact hf.elim
  · rw [hv]
    exact hwhole

/-- While no crash tears the manifest it is not torn. -/
theorem StoreRun.whole (hzero : crc (List.replicate CRC_COVERED_LEN 0) ≠ 0)
    (hrun : StoreRun crc False (fun _ _ => True) (CrashWhole crc) d h g) :
    ¬ Torn crc (d.read MANIFEST_FILE) := by
  induction hrun with
  | start =>
      rintro ⟨v, hv, -⟩
      cases hv
  | opened hprev hretain ho => exact (StoreRun.opened hprev hretain ho).whole_of_open hzero
  | openFailed hprev hretain ho ih =>
      obtain ⟨b, n, hs, -⟩ := hprev.soundWhole hzero
      obtain ⟨-, ⟨hf, -⟩ | ⟨-, -, -, htorn⟩⟩ := (openStore_ensures hzero hretain hs.layout).2 _ _ ho
      · exact hf.elim
      · exact absurd htorn ih
  | openCrashed _ _ _ hcrash => exact hcrash.2
  | closed hprev => exact hprev.whole_of_open hzero
  | committed hprev hx hmay hc => exact (StoreRun.committed hprev hx hmay hc).whole_of_open hzero
  | commitFailed hprev hx hmay hc =>
      exact (StoreRun.commitFailed hprev hx hmay hc).whole_of_open hzero
  | commitCrashed _ _ _ _ hcrash => exact hcrash.2

/-- **A fresh store survives crashes** that leave its manifest whole, while fewer commits were
submitted than its counter of versions has values. -/
theorem StoreRun.fresh_usable
    (hrun : StoreRun crc32c False (fun _ _ => True) (CrashWhole crc32c) d none g)
    (hacked : g.acked = none) (hshort : g.newer.length < U64_MAX) : Usable crc32c d g := by
  obtain ⟨b, n, hs, hn⟩ := hrun.soundWhole crc32c_zeros
  obtain rfl : n = none := hn not_false
  refine hs.usable hacked (hrun.whole crc32c_zeros) ?_
  cases hb : b with
  | none => exact lt_of_le_of_lt (Nat.zero_le _) hshort
  | some c => exact lt_of_le_of_lt (hs.counted hacked c (.inl hb)) hshort

end Fresh

/-- A crash that loses the slot of the first commit. -/
theorem tornRun_lost : StoreRun crc32c False (fun _ _ => True) (CrashWhole crc32c)
    (crashed tornRun.2 (newDir.files 0).now) none
    ⟨none, [⟨[7], none⟩], none, some ⟨[7], none⟩⟩ := by
  have hcut : tornRun.1 = none := rfl
  have hrun : Prog.Reaches (VfsOp.Exec crc32c False) (newStore.commit crc32c [7] none) newDir
      tornRun.1 tornRun.2 := Prog.reaches_runFor exec_respond 5 _ newDir
  rw [hcut] at hrun
  have hfile : (tornRun.2.files 0) =
      (newDir.files 0).write SLOT_STRIDE (encodeSlot crc32c ⟨1, none, 1⟩) := rfl
  obtain ⟨hnodup, hfind, hfresh⟩ : tornRun.2.list.Nodup ∧
      tornRun.2.names.find MANIFEST_FILE = some 0 ∧
      manifestIsUninitialized (newDir.files 0).now = true := by
    decide +kernel
  have hold : (newDir.files 0).now ∈ (tornRun.2.files 0).contents := by
    rw [hfile]
    exact List.mem_cons_of_mem _ (CrashFile.now_mem_contents _)
  refine .commitCrashed newDir_reached (x := ⟨[7], none⟩) (by rintro p ⟨⟩) trivial hrun
    ⟨crash_crashed rfl hnodup hfind (CrashFile.survives_of_mem hold)
      fun j => .inr ⟨_, hold, rfl⟩, ?_⟩
  rintro ⟨v, hv, -, hwritten⟩
  obtain rfl : (newDir.files 0).now = v := Option.some.inj hv
  rw [hfresh] at hwritten
  cases hwritten

theorem tornRun_usable : Usable crc32c (crashed tornRun.2 (newDir.files 0).now)
    ⟨none, [⟨[7], none⟩], none, some ⟨[7], none⟩⟩ :=
  tornRun_lost.fresh_usable rfl (by decide)

end Works.Chainfold
