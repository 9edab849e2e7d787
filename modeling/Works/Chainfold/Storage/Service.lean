import Works.Chainfold.Durable
import Works.Chainfold.SnapshotExact
import Works.Chainfold.Storage.CrashSafety

/-! # A service that is restarted

A process opens the snapshot store, resumes its driver from the snapshot that is recovered or
starts a new one, ticks, and commits durable snapshots of its engine, until it stops or the power
fails; then the next process does the same on the same directory.  Whatever is recovered was
encoded from an engine whose fold follows a chain, so a restart goes on where that engine was
(`Service.resumes`), and in every process the fold is what one run over the chain would have made
of it (`Service.fold_follows`). -/

namespace Works.Chainfold

open Works.Lib Prog Engine BlockRing CrashDir Stored SnapshotStore

variable {σ E ε κ π : Type}

/-! ### Engines of one configuration -/

/-- An engine of a run under `config`. -/
def Engine.Under (config : EngineConfig) (e : Engine σ) : Prop :=
  ∃ t, Inv config t ∧ t.engine = e

section Under

variable {A : Fold σ E ε} {K : Sink κ σ} {config : EngineConfig} {e e' : Engine σ}

theorem Engine.Under.reaches (h : e.Under config) (hr : e.Reaches A e') : e'.Under config := by
  obtain ⟨t, hinv, rfl⟩ := h
  obtain ⟨ops, -, rfl⟩ := hr
  rw [← Tracked.run_engine]
  exact ⟨_, hinv.run A ops, rfl⟩

theorem Engine.Under.reset (h : e.Under config) (fold : σ) : (e.reset fold).Under config := by
  obtain ⟨t, hinv, rfl⟩ := h
  exact ⟨_, hinv.reset fold, rfl⟩

/-- What happens to a driver leaves its engine under its configuration. -/
theorem Next.under {chains : Set (Chain E)} {rule : Trace E → Prop} {d d' : Driver σ κ}
    (hnext : Next A K chains rule d d') (h : d.engine.Under config) : d'.engine.Under config := by
  cases hnext with
  | tick run honest obeys =>
      obtain ⟨d₂, hpolled, rfl⟩ := step_polled run
      have h : (d.catchCaller K).engine.Under config := by
        rw [(catchCaller_sink K d).1]
        exact h
      cases hpolled with
      | quiet engine sink seen tick => exact h.reaches engine
      | resynced e before fold engine sink seen tick =>
          show d₂.engine.Under config
          rw [engine]
          exact (h.reaches before).reset fold
      | offered engine sink seen tick => exact h.reaches engine
  | rollback block => exact h.reaches (.op A _ (.rollbackAtOrBelow block) trivial)
  | engineCheckpoint => exact h.reaches (.op A _ .checkpoint trivial)
  | checkpoint => exact h.reaches (.op A _ .checkpoint trivial)
  | reset => exact h.reset d.initial
  | sourceMut => exact h

end Under

/-! ### Snapshots -/

section Saved

variable {A : Fold σ E ε} {chains : Set (Chain E)} {P : Persist σ π} {W : Wincode} {start : ℕ}
  {fold : σ} {config : EngineConfig} {x : Recovered}

/-- The snapshot `x` was encoded from `e`, whose fold follows a chain. -/
structure SavedFrom (A : Fold σ E ε) (chains : Set (Chain E)) (P : Persist σ π) (W : Wincode)
    (start : ℕ) (fold : σ) (config : EngineConfig) (x : Recovered) (e : Engine σ) : Prop where
  ringOk : e.RingOk
  active : e.status = .active
  capacity : e.ring.capacity = config.ringCapacity
  encoded : e.encodeSnapshot P W crc32c [] = (x.snapshot, .ok ())
  cursor : e.cursor = x.cursor
  backed : Backed A chains start fold e.fold e.cursor e.observed
  top : ∀ p, e.cursor = some p → p.block ≤ U64_MAX

/-- A snapshot of an engine whose fold follows a chain. -/
def Saved (A : Fold σ E ε) (chains : Set (Chain E)) (P : Persist σ π) (W : Wincode) (start : ℕ)
    (fold : σ) (config : EngineConfig) (x : Recovered) : Prop :=
  ∃ e, SavedFrom A chains P W start fold config x e

/-- What `encode_durable_snapshot` writes is the snapshot of the engine restored to its oldest live
slot. -/
theorem Sound.saved {e : Engine σ} (hs : Sound A chains start fold e) (hu : e.Under config)
    (htop : ∀ p, e.cursor = some p → p.block ≤ U64_MAX) {bytes : List UInt8} {p : Position}
    (henc : e.encodeDurableSnapshot P W crc32c [] = (bytes, .ok (some p))) :
    Saved A chains P W start fold config ⟨bytes, some p⟩ := by
  unfold Engine.encodeDurableSnapshot at henc
  cases holdest : e.checkpoints.oldest e.ring with
  | none =>
      rw [holdest] at henc
      cases henc
  | some slot =>
      cases hp : slot.cursor with
      | none =>
          simp only [holdest, hp] at henc
          cases henc
      | some point =>
          simp only [holdest, hp] at henc
          cases henv : encodeEnvelope P W crc32c slot.fold (some point)
              (e.ring.iterAtOrBelow point.block) [] with
          | mk written res =>
              rw [henv] at henc
              cases res with
              | error err => cases henc
              | ok u =>
                  cases henc
                  obtain ⟨hmem, hlive⟩ := CheckpointRing.mem_of_oldest holdest
                  obtain ⟨hle, hbacked⟩ := hs.slots slot hmem
                  obtain ⟨t, hinv, rfl⟩ := hu
                  have hiter := RingOk.iter_restore hs.ringOk hp
                  refine ⟨t.engine.restore slot, RingOk.restore hs.ringOk hlive, rfl,
                    (t.engine.capacity_restore slot).trans hinv.capacity, ?_, hp, ?_, ?_⟩
                  · have hstate : (t.engine.restore slot).encodeSnapshot P W crc32c [] =
                        encodeEnvelope P W crc32c slot.fold slot.cursor
                          (t.engine.restore slot).ring.iter [] := rfl
                    rw [hstate, hiter, hp, ← iterAtOrBelow_eq hs.ringOk.ascending]
                    exact henv
                  · exact hbacked.mono fun _ _ b hb _ => observed_restore hs.ringOk slot b hb
                  · intro q hq
                    cases hp.symm.trans hq
                    rw [hp] at hle
                    cases hc : t.engine.cursor with
                    | none =>
                        rw [hc] at hle
                        exact absurd hle (by simp)
                    | some c =>
                        rw [hc, Option.some_le_some] at hle
                        exact (Position.block_le hle).trans (htop c hc)

/-- A process can start from such a snapshot. -/
theorem Saved.decodes (hW : W.Lawful) (hP : ∀ s, P.decodeState (P.encodeState s) = .ok s)
    (hv : config.validate = .ok ()) (h : Saved A chains P W start fold config x) :
    ∃ e, Engine.decodeSnapshot P W crc32c x.snapshot config = .ok e ∧ e.status = .active ∧
      e.cursor = x.cursor ∧ Sound A chains start fold e ∧
      ∀ p, e.cursor = some p → p.block ≤ U64_MAX := by
  obtain ⟨e, hsaved⟩ := h
  obtain ⟨e', hdec, hsim⟩ := decode_encode hW hP hv hsaved.ringOk hsaved.capacity hsaved.active
    hsaved.encoded
  obtain ⟨env, -, -, hd⟩ := decodeSnapshot_cases hdec
  refine ⟨e', hdec, hd.status, hsim.cursor.symm.trans hsaved.cursor,
    ⟨hsim.ringOk₂, fun _ => ?_, ?_⟩, ?_⟩
  · have hbacked := hsaved.backed
    rw [hsim.fold, hsim.cursor, hsim.observed] at hbacked
    exact hbacked
  · rw [hd.checkpoints, CheckpointRing.stored_new]
    simp
  · intro p hp
    exact hsaved.top p (hsim.cursor.trans hp)

end Saved

/-! ### Runs of the service -/

/-- The engine a process starts with, as `Indexer::open` picks it. -/
def bootEngine (P : Persist σ π) (W : Wincode) (fold : σ) (config : EngineConfig) :
    Option Recovered → Option (Engine σ)
  | none => (Engine.new fold config).toOption
  | some recovered => (Engine.decodeSnapshot P W crc32c recovered.snapshot config).toOption

/-- The states of a service: the driver and the store of the process, if one runs, the snapshots it
has encoded, the directory, and the books of the store. -/
inductive Service (A : Fold σ E ε) (K : Sink κ σ) (chains : Set (Chain E)) (P : Persist σ π)
    (W : Wincode) (fold : σ) (engineConfig : EngineConfig) (config : DriverConfig) :
    Option (Driver σ κ × SnapshotStore) → List Recovered → Vfs → Ledger → Prop where
  | start : Service A K chains P W fold engineConfig config none [] CrashDir.empty
      ⟨none, [], none, none⟩
  | booted {queue : List Recovered} {d d' : Vfs} {g : Ledger} {retain : ℕ} {s : SnapshotStore}
      {r : Option Recovered} {e : Engine σ} {sink : κ} {τ : Trace E} {driver : Driver σ κ}
      (h : Service A K chains P W fold engineConfig config none queue d g) (hretain : 0 < retain)
      (ho : Prog.Reaches (VfsOp.Exec crc32c False) (openStore crc32c retain).run d
        (some (.ok (s, r))) d')
      (he : bootEngine P W fold engineConfig r = some e)
      (hd : RunsOn (Driver.around K e sink fold config) τ (.ok driver)) :
      Service A K chains P W fold engineConfig config (some (driver, s)) [] d'
        { g with held := r, pending := none }
  /-- The store opens, and the process ends before it has a driver. -/
  | bootFailed {queue : List Recovered} {d d' : Vfs} {g : Ledger} {retain : ℕ} {s : SnapshotStore}
      {r : Option Recovered}
      (h : Service A K chains P W fold engineConfig config none queue d g) (hretain : 0 < retain)
      (ho : Prog.Reaches (VfsOp.Exec crc32c False) (openStore crc32c retain).run d
        (some (.ok (s, r))) d') :
      Service A K chains P W fold engineConfig config none [] d'
        { g with held := r, pending := none }
  | openFailed {queue : List Recovered} {d d' : Vfs} {g : Ledger} {retain : ℕ} {error : StoreError}
      (h : Service A K chains P W fold engineConfig config none queue d g) (hretain : 0 < retain)
      (ho : Prog.Reaches (VfsOp.Exec crc32c False) (openStore crc32c retain).run d
        (some (.error error)) d') :
      Service A K chains P W fold engineConfig config none [] d' g
  /-- The power fails, perhaps while the store is opened. -/
  | openCrashed {queue : List Recovered} {d d₁ d' : Vfs} {g : Ledger} {retain : ℕ}
      (h : Service A K chains P W fold engineConfig config none queue d g) (hretain : 0 < retain)
      (ho : Prog.Reaches (VfsOp.Exec crc32c False) (openStore crc32c retain).run d none d₁)
      (hcrash : Crash crc32c d₁ d') :
      Service A K chains P W fold engineConfig config none [] d' g
  /-- A tick of the driver, or an action of the caller. -/
  | driven {queue : List Recovered} {d : Vfs} {g : Ledger} {s : SnapshotStore}
      {driver driver' : Driver σ κ}
      (h : Service A K chains P W fold engineConfig config (some (driver, s)) queue d g)
      (hnext : Next A K chains Bracketed driver driver') :
      Service A K chains P W fold engineConfig config (some (driver', s)) queue d g
  | encoded {queue : List Recovered} {d : Vfs} {g : Ledger} {s : SnapshotStore}
      {driver : Driver σ κ} {bytes : List UInt8} {p : Position}
      (h : Service A K chains P W fold engineConfig config (some (driver, s)) queue d g)
      (henc : driver.engine.encodeDurableSnapshot P W crc32c [] = (bytes, .ok (some p))) :
      Service A K chains P W fold engineConfig config (some (driver, s))
        (⟨bytes, some p⟩ :: queue) d g
  | committed {queue : List Recovered} {d d' : Vfs} {g : Ledger} {s s' : SnapshotStore}
      {driver : Driver σ κ} {x : Recovered}
      (h : Service A K chains P W fold engineConfig config (some (driver, s)) queue d g)
      (hx : x ∈ queue) (hfits : x.Fits)
      (hc : Prog.Reaches (VfsOp.Exec crc32c False) (s.commit crc32c x.snapshot x.cursor) d
        (some (s', .ok ())) d') :
      Service A K chains P W fold engineConfig config (some (driver, s')) queue d'
        ⟨some x, [], some x, none⟩
  | commitFailed {queue : List Recovered} {d d' : Vfs} {g : Ledger} {s s' : SnapshotStore}
      {driver : Driver σ κ} {x : Recovered} {error : Fault StoreError}
      (h : Service A K chains P W fold engineConfig config (some (driver, s)) queue d g)
      (hx : x ∈ queue) (hfits : x.Fits)
      (hc : Prog.Reaches (VfsOp.Exec crc32c False) (s.commit crc32c x.snapshot x.cursor) d
        (some (s', .error error)) d') :
      Service A K chains P W fold engineConfig config (some (driver, s')) queue d'
        { g with newer := x :: g.newer }
  /-- The power fails during a commit. -/
  | commitCrashed {queue : List Recovered} {d d₁ d' : Vfs} {g : Ledger} {s : SnapshotStore}
      {driver : Driver σ κ} {x : Recovered}
      (h : Service A K chains P W fold engineConfig config (some (driver, s)) queue d g)
      (hx : x ∈ queue) (hfits : x.Fits)
      (hc : Prog.Reaches (VfsOp.Exec crc32c False) (s.commit crc32c x.snapshot x.cursor) d none d₁)
      (hcrash : Crash crc32c d₁ d') :
      Service A K chains P W fold engineConfig config none [] d'
        { g with newer := x :: g.newer, pending := some x }
  /-- The process ends between two commits. -/
  | stopped {queue : List Recovered} {d : Vfs} {g : Ledger} {s : SnapshotStore}
      {driver : Driver σ κ}
      (h : Service A K chains P W fold engineConfig config (some (driver, s)) queue d g) :
      Service A K chains P W fold engineConfig config none [] d g

section Run

variable {A : Fold σ E ε} {K : Sink κ σ} {chains : Set (Chain E)} {P : Persist σ π} {W : Wincode}
  {fold : σ} {engineConfig : EngineConfig} {config : DriverConfig}
  {process : Option (Driver σ κ × SnapshotStore)} {queue : List Recovered} {d : Vfs} {g : Ledger}

/-- The run of the store in a run of the service. -/
theorem Service.storeRun (h : Service A K chains P W fold engineConfig config process queue d g) :
    StoreRun crc32c False (fun _ _ => True) (Crash crc32c) d (process.map Prod.snd) g := by
  induction h with
  | start => exact .start
  | booted _ hretain ho _ _ ih => exact .opened ih hretain ho
  | bootFailed _ hretain ho ih => exact .closed (.opened ih hretain ho)
  | openFailed _ hretain ho ih => exact .openFailed ih hretain ho
  | openCrashed _ hretain ho hcrash ih => exact .openCrashed ih hretain ho hcrash
  | driven _ _ ih => exact ih
  | encoded _ _ ih => exact ih
  | committed _ _ hfits hc ih => exact .committed ih hfits trivial hc
  | commitFailed _ _ hfits hc ih => exact .commitFailed ih hfits trivial hc
  | commitCrashed _ _ hfits hc hcrash ih => exact .commitCrashed ih hfits trivial hc hcrash
  | stopped _ ih => exact .closed ih

/-- The directory of a run whose primitives do not fail. -/
theorem StoreRun.reliable {s : Option SnapshotStore}
    (h : StoreRun crc32c False (fun _ _ => True) (Crash crc32c) d s g) :
    SoundState crc32c False d s g :=
  h.sound crc32c_zeros (fun _ _ _ hf => hf.elim) (fun _ _ hc => hc)

/-- What an open store has recovered was submitted. -/
theorem StoreRun.held_known {s : SnapshotStore}
    (h : StoreRun crc32c False (fun _ _ => True) (Crash crc32c) d (some s) g) {x : Recovered}
    (hx : g.held = some x) : g.acked = some x ∨ x ∈ g.newer := by
  obtain ⟨b, n, ho⟩ := h.reliable
  rcases (ho.sound.held not_false).1 with hb | ⟨hpending, -⟩
  · rw [hx] at hb
    obtain ⟨c, hc, rfl⟩ := Option.map_eq_some_iff.mp hb
    exact ho.sound.known c (.inl hc)
  · exact absurd (ho.pending not_false) hpending

/-- What holds in every state. -/
structure Serving (A : Fold σ E ε) (chains : Set (Chain E)) (P : Persist σ π) (W : Wincode)
    (fold : σ) (engineConfig : EngineConfig) (config : DriverConfig)
    (process : Option (Driver σ κ × SnapshotStore)) (queue : List Recovered) (g : Ledger) :
    Prop where
  driver : ∀ r, process = some r → (Kept A chains U64_MAX r.1 ∧ r.1.config = config ∧
    r.1.initial = fold) ∧ r.1.engine.Under engineConfig ∧ engineConfig.validate = .ok ()
  queued : ∀ x ∈ queue, Saved A chains P W config.startBlock fold engineConfig x
  written : ∀ x, g.acked = some x ∨ x ∈ g.newer →
    Saved A chains P W config.startBlock fold engineConfig x ∧ engineConfig.validate = .ok ()

/-- One more snapshot may have reached the directory. -/
theorem Serving.written_cons
    (h : Serving A chains P W fold engineConfig config process queue g) {x : Recovered}
    (hx : Saved A chains P W config.startBlock fold engineConfig x)
    (hv : engineConfig.validate = .ok ()) (y : Recovered)
    (hy : g.acked = some y ∨ y ∈ x :: g.newer) :
    Saved A chains P W config.startBlock fold engineConfig y ∧ engineConfig.validate = .ok () := by
  rcases hy with hacked | hnewer
  · exact h.written y (.inl hacked)
  · rcases List.mem_cons.mp hnewer with rfl | hnewer
    · exact ⟨hx, hv⟩
    · exact h.written y (.inr hnewer)

/-- A process starts with an engine whose fold follows a chain. -/
theorem bootEngine_sound (hW : W.Lawful) (hP : ∀ s, P.decodeState (P.encodeState s) = .ok s)
    {r : Option Recovered} {e : Engine σ} {start : ℕ}
    (hr : ∀ x, r = some x → Saved A chains P W start fold engineConfig x)
    (he : bootEngine P W fold engineConfig r = some e) :
    Sound A chains start fold e ∧ (∀ p, e.cursor = some p → p.block ≤ U64_MAX) ∧
      e.Under engineConfig ∧ engineConfig.validate = .ok () := by
  have hstarted : Started P W crc32c engineConfig e →
      e.Under engineConfig ∧ engineConfig.validate = .ok () :=
    fun hs => ⟨⟨_, hs.inv, rfl⟩, hs.validate⟩
  cases r with
  | none =>
      have hnew : Engine.new fold engineConfig = .ok e := eq_ok_of_toOption he
      obtain ⟨hp, rfl⟩ := new_eq_ok hnew
      exact ⟨Sound.fresh engineConfig hp, by simp [Engine.fresh], hstarted (.new hnew)⟩
  | some x =>
      have hdec : Engine.decodeSnapshot P W crc32c x.snapshot engineConfig = .ok e :=
        eq_ok_of_toOption he
      have hv := hstarted (.decoded hdec)
      obtain ⟨e', hdec', -, -, hs, htop⟩ := (hr x rfl).decodes hW hP hv.2
      obtain rfl : e = e' := by
        rw [hdec, Except.ok.injEq] at hdec'
        exact hdec'
      exact ⟨hs, htop, hv⟩

theorem Service.serving (hW : W.Lawful) (hP : ∀ s, P.decodeState (P.encodeState s) = .ok s)
    (hcom : Committed chains)
    (h : Service A K chains P W fold engineConfig config process queue d g) :
    Serving A chains P W fold engineConfig config process queue g := by
  induction h with
  | start => exact ⟨by simp, by simp, by simp⟩
  | booted h hretain ho he hd ih =>
      have hrun := (Service.booted h hretain ho he hd).storeRun
      obtain ⟨hs, htop, hunder⟩ := bootEngine_sound hW hP
        (fun x hx => (ih.written x (hrun.held_known hx)).1) he
      refine ⟨?_, by simp, ih.written⟩
      rintro r ⟨⟩
      refine ⟨Kept.around hs htop (Driver.around_spec hd), ?_, hunder.2⟩
      rcases (Driver.around_spec hd).engine with he | he
      · rw [he]
        exact hunder.1
      · rw [he]
        exact hunder.1.reaches (.op A _ .checkpoint trivial)
  | bootFailed _ _ _ ih => exact ⟨by simp, by simp, ih.written⟩
  | openFailed _ _ _ ih => exact ⟨by simp, by simp, ih.written⟩
  | openCrashed _ _ _ _ ih => exact ⟨by simp, by simp, ih.written⟩
  | driven _ hnext ih =>
      refine ⟨?_, ih.queued, ih.written⟩
      rintro r ⟨⟩
      obtain ⟨⟨hkept, hconfig, hinit⟩, hunder, hv⟩ := ih.driver _ rfl
      obtain ⟨hkept', hconfig', hinit'⟩ := hkept.next hcom
        (fun τ hτ hb => bracketed_rule hτ hb) hnext
      exact ⟨⟨hkept', hconfig'.trans hconfig, hinit'.trans hinit⟩, hnext.under hunder, hv⟩
  | encoded _ henc ih =>
      refine ⟨ih.driver, ?_, ih.written⟩
      obtain ⟨⟨hkept, hconfig, hinit⟩, hunder, -⟩ := ih.driver _ rfl
      rintro x hx
      rcases List.mem_cons.mp hx with rfl | hx
      · have hs := hkept.sound
        rw [hconfig, hinit] at hs
        exact hs.saved hunder hkept.cursor_top henc
      · exact ih.queued x hx
  | committed _ hx _ _ ih =>
      obtain ⟨hdriver, hunder, hv⟩ := ih.driver _ rfl
      refine ⟨?_, ih.queued, ?_⟩
      · rintro r ⟨⟩
        exact ⟨hdriver, hunder, hv⟩
      · rintro x (hacked | hnewer)
        · cases hacked
          exact ⟨ih.queued _ hx, hv⟩
        · cases hnewer
  | commitFailed _ hx _ _ ih =>
      obtain ⟨hdriver, hunder, hv⟩ := ih.driver _ rfl
      refine ⟨?_, ih.queued, ih.written_cons (ih.queued _ hx) hv⟩
      rintro r ⟨⟩
      exact ⟨hdriver, hunder, hv⟩
  | commitCrashed _ hx _ _ _ ih =>
      obtain ⟨-, -, hv⟩ := ih.driver _ rfl
      exact ⟨by simp, by simp, ih.written_cons (ih.queued _ hx) hv⟩
  | stopped _ ih => exact ⟨by simp, by simp, ih.written⟩

/-- **The fold of a service follows a chain.**  After any number of restarts and power failures,
the fold has seen exactly the events that the cursor covers, in order and once each. -/
theorem Service.fold_follows (hA : TidyFold A) (hW : W.Lawful)
    (hP : ∀ s, P.decodeState (P.encodeState s) = .ok s) (hcom : Committed chains)
    {driver : Driver σ κ} {s : SnapshotStore}
    (h : Service A K chains P W fold engineConfig config (some (driver, s)) queue d g) :
    Follows A chains config.startBlock fold driver.engine := by
  obtain ⟨⟨hkept, hconfig, hinit⟩, -⟩ := (h.serving hW hP hcom).driver _ rfl
  have hs := hkept.sound
  rw [hconfig, hinit] at hs
  exact hs.follows_chain hcom (.inr hA)

/-- What `open` finds once a commit was acknowledged, and what it decodes to. -/
theorem Service.recovers (hW : W.Lawful) (hP : ∀ s, P.decodeState (P.encodeState s) = .ok s)
    (hcom : Committed chains)
    (h : Service A K chains P W fold engineConfig config none queue d g) (hacked : g.acked ≠ none) :
    ∃ x e, Opens crc32c d (fun r _ => ∃ s, r = .ok (s, some x)) ∧
      (g.held = some x ∨ g.pending = some x) ∧
      Engine.decodeSnapshot P W crc32c x.snapshot engineConfig = .ok e ∧ e.cursor = x.cursor ∧
      e.status = .active ∧ Sound A chains config.startBlock fold e := by
  obtain ⟨b, n, hs, hn⟩ := h.storeRun.reliable
  obtain rfl : n = none := hn not_false
  obtain ⟨c, rfl⟩ := Option.ne_none_iff_exists'.mp (hs.acked hacked)
  obtain ⟨hsaved, hv⟩ := (h.serving hW hP hcom).written c.recovered (hs.known c (.inl rfl))
  obtain ⟨e, hdec, hactive, hcursor, hsound, -⟩ := hsaved.decodes hW hP hv
  refine ⟨c.recovered, e, hs.layout.opens_some crc32c_zeros rfl, ?_, hdec, hcursor, hactive,
    hsound⟩
  rcases (hs.held not_false).1 with hheld | ⟨-, hpending⟩
  · exact .inl hheld.symm
  · exact .inr hpending.symm

/-- **A restart goes on where the last commit was.**  Once a commit was acknowledged, `open` of a
service that is down succeeds and recovers that snapshot, or the one that was in flight at a power
failure since then; it decodes, and the engine is active, stands at its cursor, and has folded what
the cursor covers. -/
theorem Service.resumes (hW : W.Lawful) (hP : ∀ s, P.decodeState (P.encodeState s) = .ok s)
    (hcom : Committed chains)
    (h : Service A K chains P W fold engineConfig config none queue d g) (hacked : g.acked ≠ none) :
    Opens crc32c d fun r _ => ∃ s x e, r = .ok (s, some x) ∧
      (g.held = some x ∨ g.pending = some x) ∧
      Engine.decodeSnapshot P W crc32c x.snapshot engineConfig = .ok e ∧ e.cursor = x.cursor ∧
      e.status = .active ∧ Follows A chains config.startBlock fold e := by
  obtain ⟨x, e, hopens, hfound, hdec, hcursor, hactive, hsound⟩ := h.recovers hW hP hcom hacked
  refine hopens.mono ?_
  rintro r d' ⟨s, rfl⟩
  exact ⟨s, x, e, rfl, hfound, hdec, hcursor, hactive,
    hsound.follows_chain hcom (.inl hactive)⟩

end Run

/-! ### A small run -/

/-- The driver after a tick on the long chain. -/
def tickedDriver : Driver UInt64 Unit :=
  sampleDriver.ticked sumFold noSink 1 (List.replicate 8 (true, longChain))

theorem tickedDriver_encodes : ∃ bytes,
    tickedDriver.engine.encodeDurableSnapshot sumPersist fixint crc32c [] =
      (bytes, .ok (some ⟨0, 0⟩)) := by
  refine ⟨_, Prod.ext rfl ?_⟩
  rfl

/-- A commit to a store that is open succeeds while its counter of versions goes on. -/
theorem OpenSound.commits {b n : Option Stored} {d : Vfs} {s : SnapshotStore} {g : Ledger}
    (h : OpenSound crc32c False b n d s g) (hend : s.currentVersion < U64_MAX) {x : Recovered}
    (hx : x.Fits) : ∃ s' d', Prog.Reaches (VfsOp.Exec crc32c False)
      (s.commit crc32c x.snapshot x.cursor) d (some (s', .ok ())) d' := by
  rcases h.serves with ⟨hf, -⟩ | ⟨hserves, v, hv, -⟩
  · exact hf.elim
  · have hl := h.standing crc32c_zeros hserves hv False.elim
    obtain ⟨⟨s', out⟩, d', hr, hpost⟩ :=
      ((commit_ensures crc32c_zeros hserves hl hv hx).ends exists_exec).exists
    cases out with
    | ok u => exact ⟨s', d', hr⟩
    | error e =>
        rcases hpost with ⟨hge, -⟩ | ⟨⟨e', -, hfaulty, -⟩, -⟩
        · rw [hserves.currentVersion] at hend
          exact absurd hend (not_lt.mpr hge)
        · exact hfaulty.elim

/-- A process that has encoded the snapshot of its first block. -/
theorem tickedDriver_served : ∃ bytes, Service sumFold noSink sampleChains sumPersist fixint 0
    sampleConfig ⟨0, some 1, none⟩ (some (tickedDriver, newStore)) [⟨bytes, some ⟨0, 0⟩⟩] newDir
      ⟨none, [], none, none⟩ := by
  obtain ⟨bytes, hbytes⟩ := tickedDriver_encodes
  have hopened : newRun.1 = some (.ok (newStore, none)) := rfl
  have hopen : Prog.Reaches (VfsOp.Exec crc32c False) (openStore crc32c 1).run CrashDir.empty
      newRun.1 newRun.2 := Prog.reaches_runFor exec_respond 9 _ CrashDir.empty
  rw [hopened] at hopen
  have haround : (scripted (α := Except ConfigError (Driver UInt64 Unit)) (E := ℕ) .genesis 1
      [(true, longChain)] (Driver.around noSink (Engine.fresh 0 sampleConfig
        sampleConfig_ringCapacity) () 0 ⟨0, some 1, none⟩)).2 = some (.ok sampleDriver) := rfl
  have hboot : bootEngine sumPersist fixint 0 sampleConfig none =
      some (Engine.fresh 0 sampleConfig sampleConfig_ringCapacity) := rfl
  have hbooted : Service sumFold noSink sampleChains sumPersist fixint 0 sampleConfig
      ⟨0, some 1, none⟩ (some (sampleDriver, newStore)) [] newDir ⟨none, [], none, none⟩ :=
    .booted .start one_pos hopen hboot (runsOn_scripted .genesis 1 haround).1
  exact ⟨bytes, (hbooted.driven (Next.tickedOn (.inl rfl) rfl)).encoded hbytes⟩

/-- The same after the commit of that snapshot, down. -/
theorem tickedDriver_stopped : ∃ bytes d, Service sumFold noSink sampleChains sumPersist fixint 0
    sampleConfig ⟨0, some 1, none⟩ none [] d
      ⟨some ⟨bytes, some ⟨0, 0⟩⟩, [], some ⟨bytes, some ⟨0, 0⟩⟩, none⟩ := by
  obtain ⟨bytes, hserved⟩ := tickedDriver_served
  have hfits : (⟨bytes, some ⟨0, 0⟩⟩ : Recovered).Fits := by
    rintro p ⟨⟩
    exact ⟨Nat.zero_le _, Nat.zero_le _⟩
  obtain ⟨b, n, hopen⟩ := hserved.storeRun.reliable
  obtain ⟨s, d, hcommit⟩ := hopen.commits (by decide) hfits
  exact ⟨bytes, d, (hserved.committed List.mem_cons_self hfits hcommit).stopped⟩

theorem tickedDriver_resumes : ∃ x d, Opens crc32c d fun r _ => ∃ s y e, r = .ok (s, some y) ∧
    (some x = some y ∨ none = some y) ∧
    Engine.decodeSnapshot sumPersist fixint crc32c y.snapshot sampleConfig = .ok e ∧
    e.cursor = y.cursor ∧ e.status = .active ∧ Follows sumFold sampleChains 0 0 e := by
  obtain ⟨bytes, d, h⟩ := tickedDriver_stopped
  exact ⟨⟨bytes, some ⟨0, 0⟩⟩, d,
    h.resumes fixint_lawful sumPersist_round_trip sampleChains_committed (by simp)⟩

/-- The driver of the process that is started after that. -/
theorem restartedDriver_served : ∃ (driver : Driver UInt64 Unit) (s : SnapshotStore) (d : Vfs)
    (g : Ledger), Service sumFold noSink sampleChains sumPersist fixint 0 sampleConfig
      ⟨0, some 1, none⟩ (some (driver, s)) [] d g ∧ driver.engine.cursor = some ⟨0, 0⟩ := by
  obtain ⟨bytes, d, h⟩ := tickedDriver_stopped
  obtain ⟨x, e, hopens, hfound, hdec, hcursor, -⟩ :=
    h.recovers fixint_lawful sumPersist_round_trip sampleChains_committed (by simp)
  obtain rfl : x = ⟨bytes, some ⟨0, 0⟩⟩ := by
    rcases hfound with hheld | hpending
    · exact (Option.some.inj hheld).symm
    · cases hpending
  obtain ⟨r, d', hopen, s, rfl⟩ := (hopens 1 one_pos).exists
  have hboot : bootEngine sumPersist fixint 0 sampleConfig (some ⟨bytes, some ⟨0, 0⟩⟩) =
      some e := by
    show (Engine.decodeSnapshot sumPersist fixint crc32c bytes sampleConfig).toOption = some e
    rw [hdec]
    rfl
  obtain ⟨driver, haround⟩ : ∃ driver, (scripted (α := Except ConfigError (Driver UInt64 Unit))
      (E := ℕ) .genesis 1 [(true, longChain)]
      (Driver.around noSink e () 0 ⟨0, some 1, none⟩)).2 = some (.ok driver) := ⟨_, rfl⟩
  have hrun := (runsOn_scripted .genesis 1 haround).1
  refine ⟨driver, s, d', _, .booted h one_pos hopen hboot hrun, ?_⟩
  rw [(Driver.around_spec hrun).cursor]
  exact hcursor

theorem restartedDriver_follows : ∃ driver : Driver UInt64 Unit,
    driver.engine.cursor = some ⟨0, 0⟩ ∧ Follows sumFold sampleChains 0 0 driver.engine := by
  obtain ⟨driver, s, d, g, h, hcursor⟩ := restartedDriver_served
  exact ⟨driver, hcursor, h.fold_follows sumFold_tidy fixint_lawful sumPersist_round_trip
    sampleChains_committed⟩

end Works.Chainfold
