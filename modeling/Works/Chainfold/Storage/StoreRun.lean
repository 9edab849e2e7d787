import Works.Chainfold.Storage.StoreSpec

/-! # Runs of the store

A directory is opened, committed to, closed and opened again, and every program over it may be cut
short by a crash.  `Ledger` keeps the books of such a run, and `StoreSound` says what the
directory holds of it: after the first acknowledged commit always a snapshot that is not older than
the last acknowledged one (`StoreRun.sound`). -/

namespace Works.Chainfold

open Works.Lib CrashDir Stored SnapshotStore

/-- A commit's cursor consists of 64-bit words. -/
def Recovered.Fits (x : Recovered) : Prop :=
  ∀ p, x.cursor = some p → p.block ≤ U64_MAX ∧ p.logIndex ≤ U64_MAX

/-- The books of a run. -/
structure Ledger where
  /-- The last commit that was acknowledged. -/
  acked : Option Recovered
  /-- The commits that were submitted after it, the latest first. -/
  newer : List Recovered
  /-- What the last commit that was acknowledged or the last `open` made of the store. -/
  held : Option Recovered
  /-- The commit that was in flight at a crash since then. -/
  pending : Option Recovered

/-- The states that the system leads to from an empty directory: the directory, the store that is
open on it, and the books.  Commits and crashes may be restricted. -/
inductive StoreRun (crc : Crc) (faulty : Prop) (mayCommit : Vfs → SnapshotStore → Prop)
    (mayCrash : Vfs → Vfs → Prop) : Vfs → Option SnapshotStore → Ledger → Prop where
  | start : StoreRun crc faulty mayCommit mayCrash CrashDir.empty none ⟨none, [], none, none⟩
  | opened {d d' : Vfs} {g : Ledger} {retain : ℕ} {s : SnapshotStore} {r : Option Recovered}
      (h : StoreRun crc faulty mayCommit mayCrash d none g) (hretain : 0 < retain)
      (ho : Prog.Reaches (VfsOp.Exec crc faulty) (openStore crc retain).run d
        (some (.ok (s, r))) d') :
      StoreRun crc faulty mayCommit mayCrash d' (some s) { g with held := r, pending := none }
  | openFailed {d d' : Vfs} {g : Ledger} {retain : ℕ} {e : StoreError}
      (h : StoreRun crc faulty mayCommit mayCrash d none g) (hretain : 0 < retain)
      (ho : Prog.Reaches (VfsOp.Exec crc faulty) (openStore crc retain).run d
        (some (.error e)) d') :
      StoreRun crc faulty mayCommit mayCrash d' none g
  | openCrashed {d d₁ d' : Vfs} {g : Ledger} {retain : ℕ}
      (h : StoreRun crc faulty mayCommit mayCrash d none g) (hretain : 0 < retain)
      (ho : Prog.Reaches (VfsOp.Exec crc faulty) (openStore crc retain).run d none d₁)
      (hcrash : mayCrash d₁ d') : StoreRun crc faulty mayCommit mayCrash d' none g
  | closed {d : Vfs} {s : SnapshotStore} {g : Ledger}
      (h : StoreRun crc faulty mayCommit mayCrash d (some s) g) :
      StoreRun crc faulty mayCommit mayCrash d none g
  | committed {d d' : Vfs} {s s' : SnapshotStore} {g : Ledger} {x : Recovered}
      (h : StoreRun crc faulty mayCommit mayCrash d (some s) g) (hx : x.Fits)
      (hmay : mayCommit d s)
      (hc : Prog.Reaches (VfsOp.Exec crc faulty) (s.commit crc x.snapshot x.cursor) d
        (some (s', .ok ())) d') :
      StoreRun crc faulty mayCommit mayCrash d' (some s') ⟨some x, [], some x, none⟩
  | commitFailed {d d' : Vfs} {s s' : SnapshotStore} {g : Ledger} {x : Recovered}
      {e : Fault StoreError}
      (h : StoreRun crc faulty mayCommit mayCrash d (some s) g) (hx : x.Fits)
      (hmay : mayCommit d s)
      (hc : Prog.Reaches (VfsOp.Exec crc faulty) (s.commit crc x.snapshot x.cursor) d
        (some (s', .error e)) d') :
      StoreRun crc faulty mayCommit mayCrash d' (some s') { g with newer := x :: g.newer }
  | commitCrashed {d d₁ d' : Vfs} {s : SnapshotStore} {g : Ledger} {x : Recovered}
      (h : StoreRun crc faulty mayCommit mayCrash d (some s) g) (hx : x.Fits)
      (hmay : mayCommit d s)
      (hc : Prog.Reaches (VfsOp.Exec crc faulty) (s.commit crc x.snapshot x.cursor) d none d₁)
      (hcrash : mayCrash d₁ d') :
      StoreRun crc faulty mayCommit mayCrash d' none
        { g with newer := x :: g.newer, pending := some x }

section Commit

variable {crc : Crc} {faulty : Prop} {b : Option Stored} {d : Vfs}

/-- `commit`: a poisoned store does nothing, and otherwise `commit_once` runs unless the counter of
versions is at its end. -/
theorem commit_ensures (hzero : crc (List.replicate CRC_COVERED_LEN 0) ≠ 0)
    {s : SnapshotStore} (hs : Serves b s) (h : Layout crc b none d) {v : List UInt8}
    (hv : d.read MANIFEST_FILE = some v) {x : Recovered} (hx : x.Fits) :
    Prog.Ensures (VfsOp.Exec crc faulty) (s.commit crc x.snapshot x.cursor) d
      (Committing crc b (next b x)) (fun r d' => match r.2 with
        | .ok _ => Serves (some (next b x)) r.1 ∧ Layout crc (some (next b x)) none d'
        | .error e => U64_MAX ≤ Stored.currentVersion b ∧ r.1 = s ∧ d' = d ∨
            (∃ e', e = .err e' ∧ Failed faulty e') ∧ r.1.poisoned = true ∧
              Committing crc b (next b x) d') := by
  unfold SnapshotStore.commit
  rw [if_neg (by rw [hs.poisoned]; decide), hs.currentVersion]
  by_cases hend : U64_MAX ≤ Stored.currentVersion b
  · rw [if_pos hend]
    exact Prog.ensures_ret (.inl h) (.inl ⟨hend, rfl, rfl⟩)
  · rw [if_neg hend]
    obtain ⟨mi, hmi, -⟩ := read_eq_some hv
    have hfits : (next b x).record.Fits := by
      refine ⟨?_, ?_, hx⟩
      · show Stored.currentVersion b + 1 ≤ U64_MAX
        omega
      · show Stored.currentVersion b + 1 ≤ U64_MAX
        omega
    refine Prog.Ensures.bind ((commitAt_ensures hzero hs h hmi hfits).mono (fun _ h' => h') ?_)
    intro r d' hr
    cases r with
    | ok s' => exact Prog.ensures_ret (.inr (.inr hr.2)) hr
    | error e => exact Prog.ensures_ret hr.2 (.inr ⟨⟨e, rfl, hr.1⟩, rfl, hr.2⟩)

theorem commit_poisoned {s : SnapshotStore} (hs : s.poisoned = true) (x : Recovered) :
    s.commit crc x.snapshot x.cursor = pure (s, .fail .poisoned) := if_pos hs

end Commit

/-! ### What the directory holds -/

/-- The slot that a store builds on is the same in every state of the manifest since it was last
synced. -/
def SlotSynced (d : Vfs) (s : SnapshotStore) : Prop :=
  ∀ record, s.slots s.active = some record → ∀ i, d.names.find MANIFEST_FILE = some i →
    ∀ v ∈ (d.files i).contents, slotBytes s.active v = slotBytes s.active (d.files i).now

/-- The directory and the books: every snapshot in the directory was submitted, and one stands once
a commit was acknowledged.  Where primitives do not fail it is the one that is held or the one that
was in flight. -/
structure StoreSound (crc : Crc) (faulty : Prop) (b n : Option Stored) (d : Vfs) (g : Ledger) :
    Prop where
  layout : Layout crc b n d
  known : ∀ c, b = some c ∨ n = some c → g.acked = some c.recovered ∨ c.recovered ∈ g.newer
  acked : g.acked ≠ none → b ≠ none
  counted : g.acked = none → ∀ c, b = some c ∨ n = some c → c.version ≤ g.newer.length
  held : ¬ faulty → (b.map recovered = g.held ∨ g.pending ≠ none ∧ b.map recovered = g.pending) ∧
    ∀ c, n = some c → g.pending = some c.recovered

/-- The open store is poisoned, or serves the newest snapshot. -/
structure OpenSound (crc : Crc) (faulty : Prop) (b n : Option Stored) (d : Vfs)
    (s : SnapshotStore) (g : Ledger) : Prop where
  sound : StoreSound crc faulty b n d g
  serves : faulty ∧ s.poisoned = true ∨ Serves (n.or b) s ∧
    ∃ v, d.read MANIFEST_FILE = some v ∧ ¬ Torn crc (some v)
  pending : ¬ faulty → g.pending = none

/-- A state of a run.  Where primitives do not fail nothing is left unsynced. -/
def SoundState (crc : Crc) (faulty : Prop) (d : Vfs) (h : Option SnapshotStore) (g : Ledger) :
    Prop :=
  ∃ b n, match h with
    | none => StoreSound crc faulty b n d g ∧ (¬ faulty → n = none)
    | some s => OpenSound crc faulty b n d s g

section Sound

variable {crc : Crc} {faulty : Prop} {b n : Option Stored} {d d' : Vfs} {s : SnapshotStore}
variable {g : Ledger} {x : Recovered}

/-- A crash while nobody commits. -/
theorem StoreSound.crash (hzero : crc (List.replicate CRC_COVERED_LEN 0) ≠ 0)
    (h : StoreSound crc faulty b n d g) (hc : Crash crc d d') :
    ∃ b', StoreSound crc faulty b' none d' g := by
  rcases h.layout.crash hzero hc with hl | ⟨c, hn, hl⟩
  · refine ⟨b, hl, ?_, h.acked, ?_, fun hf => ⟨(h.held hf).1, by rintro c ⟨⟩⟩⟩
    · rintro c (hc' | hc')
      · exact h.known c (.inl hc')
      · cases hc'
    · rintro hacked c (hc' | hc')
      · exact h.counted hacked c (.inl hc')
      · cases hc'
  · refine ⟨some c, hl, ?_, by simp, ?_, ?_⟩
    · rintro c' (hc' | hc')
      · cases hc'
        exact h.known c (.inr hn)
      · cases hc'
    · rintro hacked c' (hc' | hc')
      · cases hc'
        exact h.counted hacked c (.inr hn)
      · cases hc'
    · intro hf
      have := (h.held hf).2 c hn
      refine ⟨.inr ⟨by simp [this], ?_⟩, by rintro c' ⟨⟩⟩
      rw [this]
      rfl

/-- Where a snapshot stands the manifest is not torn. -/
theorem Layout.intact {c : Stored} (h : Layout crc b n d) (hc : b = some c ∨ n = some c) :
    ∃ v, d.read MANIFEST_FILE = some v ∧ ¬ Torn crc (some v) := by
  obtain ⟨i, hi⟩ := h.named c hc
  have hfind := hi d.names List.mem_cons_self
  refine ⟨(d.files i).now, by rw [CrashDir.read, hfind]; rfl, ?_⟩
  rintro ⟨_, hv, hslots, -⟩
  cases hv
  have := h.slot hfind hc
  rw [hslots] at this
  cases this

/-- The snapshot that a store serves stands. -/
theorem OpenSound.standing (hzero : crc (List.replicate CRC_COVERED_LEN 0) ≠ 0)
    (h : OpenSound crc faulty b n d s g) (hs : Serves (n.or b) s) {v : List UInt8}
    (hv : d.read MANIFEST_FILE = some v) (hsynced : faulty → SlotSynced d s) :
    Layout crc (n.or b) none d := by
  have hlayout := h.sound.layout
  cases hn : n with
  | none =>
      rw [hn] at hlayout
      exact hlayout
  | some c =>
      have hfaulty : faulty := by
        by_contra hf
        have := (h.sound.held hf).2 c hn
        rw [h.pending hf] at this
        cases this
      rw [hn] at hlayout hs
      obtain ⟨i, hi, -⟩ := read_eq_some hv
      have hactive : s.active = c.slot := hs.active
      have hsame := hsynced hfaulty c.record hs.slot i hi
      rw [hactive] at hsame
      exact hlayout.settle hzero hi hsame

/-- The directory while `x` is committed, for the books in which `x` is in flight. -/
theorem OpenSound.committing (h : OpenSound crc faulty b n d s g)
    (hc : Committing crc (n.or b) (next (n.or b) x) d') :
    ∃ b' n', StoreSound crc faulty b' n' d'
      { g with newer := x :: g.newer, pending := some x } := by
  have hor : ∀ c, n.or b = some c → b = some c ∨ n = some c := by
    intro c hc
    rcases Option.or_eq_some_iff.mp hc with hn | ⟨-, hb⟩
    · exact .inr hn
    · exact .inl hb
  have hknown : ∀ c, n.or b = some c → g.acked = some c.recovered ∨ c.recovered ∈ x :: g.newer := by
    intro c hc
    rcases h.sound.known c (hor c hc) with h1 | h1
    · exact .inl h1
    · exact .inr (List.mem_cons_of_mem _ h1)
  have hacked : g.acked ≠ none → n.or b ≠ none := by
    intro h1 h2
    exact h.sound.acked h1 (Option.or_eq_none_iff.mp h2).2
  have hcounted : g.acked = none → Stored.currentVersion (n.or b) ≤ g.newer.length := by
    intro h1
    cases ht : n.or b with
    | none => exact Nat.zero_le _
    | some c => exact h.sound.counted h1 c (hor c ht)
  have hheld : ¬ faulty → (n.or b).map recovered = g.held := by
    intro hf
    have hpending := h.pending hf
    obtain ⟨hb | ⟨h1, -⟩, hn⟩ := h.sound.held hf
    · have hnone : n = none := by
        cases hn' : n with
        | none => rfl
        | some c =>
            have := hn c hn'
            rw [hpending] at this
            cases this
      rw [hnone]
      exact hb
    · exact absurd hpending h1
  have hold : g.acked = none → ∀ c, n.or b = some c → c.version ≤ g.newer.length + 1 := by
    intro h1 c hc
    have := hcounted h1
    rw [hc] at this
    exact Nat.le_succ_of_le this
  have hnext : g.acked = none → (next (n.or b) x).version ≤ g.newer.length + 1 :=
    fun h1 => Nat.succ_le_succ (hcounted h1)
  rcases hc with hl | hl | hl
  · refine ⟨n.or b, none, hl, ?_, hacked, ?_, fun hf => ⟨.inl (hheld hf), by rintro c ⟨⟩⟩⟩
    · rintro c (hc | hc)
      · exact hknown c hc
      · cases hc
    · rintro h1 c (hc | hc)
      · exact hold h1 c hc
      · cases hc
  · refine ⟨n.or b, some (next (n.or b) x), hl, ?_, hacked, ?_, fun hf => ⟨.inl (hheld hf), ?_⟩⟩
    · rintro c (hc | hc)
      · exact hknown c hc
      · cases hc
        exact .inr List.mem_cons_self
    · rintro h1 c (hc | hc)
      · exact hold h1 c hc
      · cases hc
        exact hnext h1
    · rintro c ⟨⟩
      rfl
  · refine ⟨some (next (n.or b) x), none, hl, ?_, by simp, ?_, fun hf =>
      ⟨.inr ⟨by simp, rfl⟩, by rintro c ⟨⟩⟩⟩
    · rintro c (hc | hc)
      · cases hc
        exact .inr List.mem_cons_self
      · cases hc
    · rintro h1 c (hc | hc)
      · cases hc
        exact hnext h1
      · cases hc

/-- A commit that failed or changed nothing leaves the books with one more submission. -/
theorem StoreSound.submitted (h : StoreSound crc faulty b n d g) (x : Recovered) :
    StoreSound crc faulty b n d { g with newer := x :: g.newer } where
  layout := h.layout
  known := by
    intro c hc
    rcases h.known c hc with h1 | h1
    · exact .inl h1
    · exact .inr (List.mem_cons_of_mem _ h1)
  acked := h.acked
  counted := by
    intro h1 c hc
    exact Nat.le_succ_of_le (h.counted h1 c hc)
  held := h.held

/-- **Every state of a run is sound**, when under primitives that fail no commit builds on a slot
that is not synced. -/
theorem StoreRun.sound (hzero : crc (List.replicate CRC_COVERED_LEN 0) ≠ 0)
    {mayCommit : Vfs → SnapshotStore → Prop} {mayCrash : Vfs → Vfs → Prop}
    (hcommit : ∀ d s, mayCommit d s → faulty → SlotSynced d s)
    (hcrash : ∀ d d', mayCrash d d' → Crash crc d d') {h : Option SnapshotStore}
    (hrun : StoreRun crc faulty mayCommit mayCrash d h g) : SoundState crc faulty d h g := by
  induction hrun with
  | start =>
      refine ⟨none, none, ⟨layout_empty crc, ?_, by simp, ?_, fun _ => ⟨.inl rfl, by
        rintro c ⟨⟩⟩⟩, fun _ => rfl⟩
      · rintro c (hc | hc) <;> cases hc
      · rintro - c (hc | hc) <;> cases hc
  | opened _ hretain ho ih =>
      obtain ⟨b, n, hs, hn⟩ := ih
      obtain ⟨-, hserves, hr, v, hl, htorn⟩ :=
        (openStore_ensures hzero hretain hs.layout).2 _ _ ho
      refine ⟨b, n, ⟨⟨hl.1, hs.known, hs.acked, hs.counted, ?_⟩, .inr ⟨hserves, v, hl.2, htorn⟩,
        fun _ => rfl⟩⟩
      intro hf
      refine ⟨.inl ?_, ?_⟩
      · rw [hr, hn hf]
        rfl
      · intro c hc
        rw [hn hf] at hc
        cases hc
  | openFailed _ hretain ho ih =>
      obtain ⟨b, n, hs, hn⟩ := ih
      obtain ⟨hl, -⟩ := (openStore_ensures hzero hretain hs.layout).2 _ _ ho
      exact ⟨b, n, { hs with layout := hl }, hn⟩
  | openCrashed _ hretain ho hc ih =>
      obtain ⟨b, n, hs, -⟩ := ih
      have hl := (openStore_ensures hzero hretain hs.layout).1 _ ho
      obtain ⟨b', hs'⟩ := StoreSound.crash hzero { hs with layout := hl } (hcrash _ _ hc)
      exact ⟨b', none, hs', fun _ => rfl⟩
  | closed _ ih =>
      obtain ⟨b, n, hs⟩ := ih
      refine ⟨b, n, hs.sound, fun hf => ?_⟩
      cases hn : n with
      | none => rfl
      | some c =>
          have := (hs.sound.held hf).2 c hn
          rw [hs.pending hf] at this
          cases this
  | @committed _ _ s _ _ x _ hx hmay hc ih =>
      obtain ⟨b, n, hs⟩ := ih
      rcases hs.serves with ⟨-, hpoisoned⟩ | ⟨hserves, v, hv, -⟩
      · rw [commit_poisoned hpoisoned] at hc
        cases hc
      · have hl := hs.standing hzero hserves hv (hcommit _ _ hmay)
        obtain ⟨hserves', hl'⟩ := (commit_ensures hzero hserves hl hv hx).2 _ _ hc
        refine ⟨some (next (n.or b) x), none, ⟨⟨hl', ?_, by simp, by rintro ⟨⟩, fun _ =>
          ⟨.inl rfl, by rintro c ⟨⟩⟩⟩, .inr ⟨hserves', ?_⟩, fun _ => rfl⟩⟩
        · rintro c (hc' | hc')
          · cases hc'
            exact .inl rfl
          · cases hc'
        · exact hl'.intact (.inl rfl)
  | @commitFailed _ _ s _ _ x _ _ hx hmay hc ih =>
      obtain ⟨b, n, hs⟩ := ih
      rcases hs.serves with ⟨hf, hpoisoned⟩ | ⟨hserves, v, hv, htorn⟩
      · rw [commit_poisoned hpoisoned] at hc
        cases hc
        exact ⟨b, n, hs.sound.submitted x, .inl ⟨hf, hpoisoned⟩, hs.pending⟩
      · have hl := hs.standing hzero hserves hv (hcommit _ _ hmay)
        rcases (commit_ensures hzero hserves hl hv hx).2 _ _ hc with
          ⟨-, hsame, rfl⟩ | ⟨⟨e, -, hf, -⟩, hpoisoned, hc'⟩
        · dsimp only at hsame
          rw [hsame]
          exact ⟨b, n, hs.sound.submitted x, .inr ⟨hserves, v, hv, htorn⟩, hs.pending⟩
        · obtain ⟨b', n', hs'⟩ := hs.committing hc'
          exact ⟨b', n', ⟨hs'.layout, hs'.known, hs'.acked, hs'.counted,
            fun hno => absurd hf hno⟩, .inl ⟨hf, hpoisoned⟩, hs.pending⟩
  | @commitCrashed _ d₁ _ s g x _ hx hmay hc hcr ih =>
      obtain ⟨b, n, hs⟩ := ih
      have hcommitting : ∃ b' n', StoreSound crc faulty b' n' d₁
          { g with newer := x :: g.newer, pending := some x } := by
        rcases hs.serves with ⟨hf, hpoisoned⟩ | ⟨hserves, v, hv, -⟩
        · rw [commit_poisoned hpoisoned] at hc
          cases hc
          have := hs.sound.submitted x
          exact ⟨b, n, this.layout, this.known, this.acked, this.counted,
            fun hno => absurd hf hno⟩
        · have hl := hs.standing hzero hserves hv (hcommit _ _ hmay)
          exact hs.committing ((commit_ensures hzero hserves hl hv hx).1 _ hc)
      obtain ⟨b', n', hs'⟩ := hcommitting
      obtain ⟨b'', hs''⟩ := hs'.crash hzero (hcrash _ _ hcr)
      exact ⟨b'', none, hs'', fun _ => rfl⟩

end Sound

end Works.Chainfold
