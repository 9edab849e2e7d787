import Works.Rotortree.Storage.DurableState

/-! # Failing calls on the log

`World.SucceedsAll` are the steps in which all operations succeed, and `World.Tolerates` those in
which an operation on the log fails, if at all, where nothing is lost by it.  In runs of the first
kind the log is `Calm`: it is synced outside of a write, and ends where it is written next; so
that their steps are of the second kind as well. -/

namespace Works.Rotortree

open Works.Lib

variable {Hash : Type} {N MAX_DEPTH : ℕ}

namespace World

/-- The operations of the file system succeed, and a call does not panic.  A crash leaves what the
files allow. -/
def SucceedsAll (W : Wire Hash) [Zero Hash] (w : World Hash N MAX_DEPTH) : Action Hash → Prop
  | .call c _ => ∀ h, w.handle = some h → c.TurnedDown N MAX_DEPTH h.inner.size ∨
      c.payload.Fits W h.nextSeq ∧ h.nextSeq + 1 < U64_SIZE
  | .flushWrite res => res = .writes
  | .flushSync ok => ok = true
  | .checkpoint _ _ res => res = .writes
  | .checkpointCapture ok => ok = true
  | .checkpointRemap res => res = .cuts
  | .checkpointTruncated ok res => ok = true ∧ res = .writes
  | .checkpointFinish ok => ok = true
  | .crash wal shards => w.disk.wal.Survives wal ∧ TearsShow W.crc w.disk.wal.now wal ∧
      w.disk.shards.Survive shards
  | _ => True

/-- An operation on the log fails, if at all, where nothing is lost by it: a flush that cannot write
takes the write back, or cannot sync; a checkpoint fails before it writes anything to the log.
Where a checkpoint has nothing to write, the log is synced. -/
def Tolerates (W : Wire Hash) (w : World Hash N MAX_DEPTH) : Action Hash → Prop
  | .call c _ => ∀ h, w.handle = some h → c.TurnedDown N MAX_DEPTH h.inner.size ∨
      c.payload.Fits W h.nextSeq ∧ h.nextSeq + 1 < U64_SIZE
  | .flushWrite res => res.Restores
  | .checkpoint _ _ res => ∀ h, w.handle = some h → h.buffer = [] ∨ res.Whole
  | .checkpointCapture ok => ∀ h background, w.handle = some h →
      h.holder = .checkpoint background .flush →
      (h.buffer = [] → w.disk.wal.past = []) ∧ (h.buffer ≠ [] → ok = true)
  | .checkpointRemap res => res = .cuts ∨ res = .seekFails
  | .checkpointTruncated ok res => ok = true ∧ ∀ h, w.handle = some h → h.buffer = [] ∨ res.Whole
  | .checkpointFinish ok => ok = true
  | _ => True

end World

/-- The log ends where it is written next.  All its states since the last sync are beginnings of
it, and outside of a write there is only one. -/
def Calm (wal : CrashFile UInt8) (h : Shared Hash N MAX_DEPTH) : Prop :=
  wal.now.length = h.cursor ∧ match h.holder with
    | .flush _ _ true => ∀ v ∈ wal.past, v <+: wal.now
    | .checkpoint _ .flush => (h.buffer = [] → wal.past = []) ∧ ∀ v ∈ wal.past, v <+: wal.now
    | .checkpoint _ .tail => (h.buffer = [] → wal.past = []) ∧ ∀ v ∈ wal.past, v <+: wal.now
    | .checkpoint _ .truncate => True
    | _ => wal.past = []

section Calm

variable {W : Wire Hash} {H : Hasher Hash} {wal wal' : CrashFile UInt8}
variable {h h' : Shared Hash N MAX_DEPTH} {disk : Disk Hash}

theorem Calm.grown (hc : Calm wal h) (hcut : h.holder.cuts = false) :
    ∀ v ∈ wal.contents, v <+: wal.now := by
  have hpast : ∀ v ∈ wal.past, v <+: wal.now := by
    have hnone : wal.past = [] → ∀ v ∈ wal.past, v <+: wal.now := by
      intro h0
      rw [h0]
      rintro v ⟨⟩
    obtain ⟨-, hc⟩ := hc
    revert hc hcut
    generalize h.holder = holder
    intro hcut hc
    cases holder with
    | free => exact hnone hc
    | flush buf lastSeq written =>
        cases written with
        | false => exact hnone hc
        | true => exact hc
    | checkpoint background stage =>
        cases stage with
        | flush => exact hc.2
        | tail => exact hc.2
        | truncate => cases hcut
        | _ => exact hnone hc
  intro v hv
  rcases List.mem_cons.mp hv with rfl | hv
  · exact List.prefix_rfl
  · exact hpast v hv

/-- What is written goes behind the log. -/
theorem Calm.write (hlen : wal.now.length = h.cursor) (hpast : wal.past = []) (xs : List UInt8) :
    (wal.write h.cursor xs).now.length = h.cursor + xs.length ∧
      ∀ v ∈ (wal.write h.cursor xs).past, v <+: (wal.write h.cursor xs).now := by
  have hnow : (wal.write h.cursor xs).now = wal.now ++ xs := write_end hlen.symm xs
  rw [hnow]
  refine ⟨by rw [List.length_append, hlen], ?_⟩
  intro v hv
  rw [show (wal.write h.cursor xs).past = wal.contents from rfl, CrashFile.contents, hpast,
    List.mem_singleton] at hv
  rw [hv]
  exact List.prefix_append _ _

theorem Calm.lockedWrite (hlen : wal.now.length = h.cursor) (hpast : wal.past = [])
    (background : Bool) {stage : CheckpointStage Hash} (hstage : stage = .flush ∨ stage = .tail) :
    Calm (h.lockedWrite background stage .writes wal).1
      (h.lockedWrite background stage .writes wal).2 := by
  have hcalm : ∀ {wal' : CrashFile UInt8} {h' : Shared Hash N MAX_DEPTH},
      wal'.now.length = h'.cursor → h'.holder = .checkpoint background stage →
      (h'.buffer = [] → wal'.past = []) → (∀ v ∈ wal'.past, v <+: wal'.now) → Calm wal' h' := by
    intro wal' h' h1 h2 h3 h4
    refine ⟨h1, ?_⟩
    rw [h2]
    rcases hstage with rfl | rfl <;> exact ⟨h3, h4⟩
  unfold Shared.lockedWrite
  split_ifs with hempty
  · refine hcalm hlen rfl (fun _ => hpast) ?_
    rw [hpast]
    rintro v ⟨⟩
  · obtain ⟨h1, h2⟩ := Calm.write hlen hpast h.buffer
    exact hcalm h1 rfl (fun h0 => absurd (List.isEmpty_iff.mpr h0) hempty) h2

theorem lockedSync_isSome {ok : Bool} (hok : ok = true) : h.lockedSync ok wal ≠ none := by
  unfold Shared.lockedSync
  rw [if_pos hok]
  split_ifs
  · exact Option.some_ne_none _
  · exact Option.some_ne_none _

theorem Calm.lockedSync (hlen : wal.now.length = h.cursor) (hpast : h.buffer = [] → wal.past = [])
    {ok : Bool} (hok : ok = true) (hsync : h.lockedSync ok wal = some (wal', h')) :
    wal'.now.length = h'.cursor ∧ wal'.past = [] := by
  subst hok
  unfold Shared.lockedSync at hsync
  split_ifs at hsync with hempty
  · cases hsync
    exact ⟨hlen, hpast (List.isEmpty_iff.mp hempty)⟩
  · cases hsync
    exact ⟨hlen, rfl⟩

variable [Zero Hash]

/-- **A checkpoint goes on.** -/
theorem Calm.checkpointStep {background : Bool} {stage : CheckpointStage Hash}
    (hc : Calm disk.wal h) (hst : h.holder = .checkpoint background stage) {a : Action Hash}
    (ha : World.SucceedsAll W ⟨disk, some h⟩ a) {w' : World Hash N MAX_DEPTH}
    (hstep : World.checkpointStep W ⟨disk, some h⟩ h background stage a = some w')
    (hh' : w'.handle = some h') : Calm w'.disk.wal h' := by
  obtain ⟨hlen, hc⟩ := hc
  rw [hst] at hc
  cases stage with
  | flush =>
      cases a with
      | checkpointCapture ok =>
          simp only [World.checkpointStep] at hstep
          cases hsync : h.lockedSync ok disk.wal with
          | none => exact absurd hsync (lockedSync_isSome ha)
          | some r =>
              obtain ⟨wal, h₁⟩ := r
              obtain ⟨hlen₁, hpast⟩ := Calm.lockedSync hlen hc.1 ha hsync
              rw [hsync] at hstep
              dsimp only at hstep
              split_ifs at hstep
              · cases hstep
                cases hh'
                exact ⟨hlen₁, hpast⟩
              · cases hcap : h₁.capture with
                | error e =>
                    rw [hcap] at hstep
                    cases hstep
                | ok snap =>
                    rw [hcap] at hstep
                    cases hstep
                    cases hh'
                    exact ⟨hlen₁, hpast⟩
      | _ => cases hstep
  | header snap =>
      cases a with
      | checkpointHeader =>
          simp only [World.checkpointStep] at hstep
          cases hfile : writeHeader W N MAX_DEPTH with
          | error e =>
              rw [hfile] at hstep
              cases hstep
          | ok file =>
              rw [hfile] at hstep
              cases hstep
              cases hh'
              exact ⟨hlen, hc⟩
      | _ => cases hstep
  | write snap ws =>
      cases ws with
      | nil =>
          cases a with
          | checkpointSync =>
              cases hstep
              cases hh'
              exact ⟨hlen, hc⟩
          | _ => cases hstep
      | cons c ws =>
          cases a with
          | checkpointWrite =>
              cases hstep
              cases hh'
              exact ⟨hlen, hc⟩
          | _ => cases hstep
  | sync snap fl =>
      cases fl with
      | nil =>
          cases a with
          | checkpointSync =>
              simp only [World.checkpointStep] at hstep
              cases hfile : writeMeta W N MAX_DEPTH snap.lastSeq snap.leafCount snap.depth
                  snap.rootHash with
              | error e =>
                  rw [hfile] at hstep
                  cases hstep
              | ok file =>
                  rw [hfile] at hstep
                  cases hstep
                  cases hh'
                  exact ⟨hlen, hc⟩
          | _ => cases hstep
      | cons f fl =>
          cases a with
          | checkpointSync =>
              cases hstep
              cases hh'
              exact ⟨hlen, hc⟩
          | _ => cases hstep
  | remap snap =>
      cases a with
      | checkpointRemap res =>
          obtain rfl : res = .cuts := ha
          obtain ⟨inner, chunks, hframe⟩ := Shared.remapLevels_frame disk.shards snap.levelData 0
            { h with checkpointedChunks := resize h.checkpointedChunks snap.levelData.length }
          simp only [World.checkpointStep] at hstep
          rcases hremap : Shared.remapLevels disk.shards 0 snap.levelData
            { h with checkpointedChunks := resize h.checkpointedChunks snap.levelData.length } with
            ⟨r, h₁⟩
          rw [hremap] at hstep hframe
          obtain rfl : h₁ = _ := hframe
          cases r with
          | error e =>
              cases e with
              | panic => cases hstep
              | err e =>
                  cases hstep
                  cases hh'
                  exact ⟨hlen, hc⟩
          | ok u =>
              dsimp only at hstep
              cases hheader : serializeHeader W N MAX_DEPTH with
              | error e =>
                  rw [hheader] at hstep
                  cases hstep
              | ok header =>
                  rw [hheader] at hstep
                  cases hstep
                  cases hh'
                  exact ⟨CrashFile.length_setLen _ _, trivial⟩
      | _ => cases hstep
  | truncate =>
      cases a with
      | checkpointTruncated ok res =>
          obtain ⟨rfl, rfl⟩ := ha
          simp only [World.checkpointStep] at hstep
          rw [if_pos trivial] at hstep
          split_ifs at hstep
          · cases hstep
            cases hh'
            exact ⟨hlen, rfl⟩
          · cases hstep
            cases hh'
            have hsynced : disk.wal.sync.now.length = h.cursor := hlen
            exact Calm.lockedWrite hsynced rfl background (.inr rfl)
      | _ => cases hstep
  | tail =>
      cases a with
      | checkpointFinish ok =>
          simp only [World.checkpointStep] at hstep
          cases hsync : h.lockedSync ok disk.wal with
          | none => exact absurd hsync (lockedSync_isSome ha)
          | some r =>
              obtain ⟨wal, h₁⟩ := r
              have hdone := Calm.lockedSync hlen hc.1 ha hsync
              rw [hsync] at hstep
              cases hstep
              cases hh'
              exact hdone
      | _ => cases hstep

/-- **One step** in which all operations succeed. -/
theorem Calm.step (hc : Calm disk.wal h) {a : Action Hash}
    {w' : World Hash N MAX_DEPTH} (ha : World.SucceedsAll W ⟨disk, some h⟩ a)
    (hstep : World.handleStep W H ⟨disk, some h⟩ h a = some w') (hh' : w'.handle = some h') :
    Calm w'.disk.wal h' := by
  have hstay : some (⟨disk, some h⟩ : World Hash N MAX_DEPTH) = some w' → Calm w'.disk.wal h' := by
    intro hw
    cases hw
    cases hh'
    exact hc
  have hcheckpoint : a.Advances → Calm w'.disk.wal h' := by
    intro hadv
    obtain ⟨background, stage, hst, hgo⟩ := hadv.step hstep
    exact hc.checkpointStep hst ha hgo hh'
  cases a with
  | call c admitted =>
      simp only [World.handleStep] at hstep
      split_ifs at hstep with hlock
      · cases hstep
        cases hh'
        obtain ⟨-, -, hholder, hcursor, -⟩ := Shared.insertCall_frame W H disk.shards.fs c h
        refine ⟨hc.1.trans hcursor.symm, ?_⟩
        have hrest := hc.2
        rw [hholder]
        revert hlock hrest
        generalize h.holder = holder
        intro hlock hrest
        cases holder with
        | free => exact hrest
        | flush buf lastSeq written => cases written <;> exact hrest
        | checkpoint background stage =>
            cases stage with
            | flush => exact absurd rfl hlock
            | tail => exact absurd rfl hlock
            | _ => exact hrest
      · exact hstay hstep
  | flush admitted =>
      simp only [World.handleStep] at hstep
      split at hstep
      · rename_i hst
        split_ifs at hstep
        · cases hstep
          cases hh'
          have hrest := hc.2
          rw [hst] at hrest
          unfold Shared.flushTake
          split_ifs
          · exact hc
          · exact ⟨hc.1, hrest⟩
        · exact hstay hstep
      · cases hstep
  | flushWrite res =>
      obtain rfl : res = .writes := ha
      simp only [World.handleStep] at hstep
      split at hstep
      · rename_i hst
        cases hstep
        cases hh'
        have hrest := hc.2
        rw [hst] at hrest
        exact Calm.write hc.1 hrest _
      · cases hstep
  | flushSync ok =>
      obtain rfl : ok = true := ha
      simp only [World.handleStep] at hstep
      split at hstep
      · cases hstep
        cases hh'
        exact ⟨hc.1, rfl⟩
      · cases hstep
  | checkpoint background admitted res =>
      obtain rfl : res = .writes := ha
      simp only [World.handleStep] at hstep
      split at hstep
      · rename_i hst
        split_ifs at hstep
        · cases hstep
          cases hh'
          have hrest := hc.2
          rw [hst] at hrest
          exact Calm.lockedWrite hc.1 hrest background (.inl rfl)
        · exact hstay hstep
      · cases hstep
  | close =>
      cases hstep
      cases hh'
      exact hc
  | crash wal shards =>
      cases hstep
      cases hh'
  | reopen _ _ _ => cases hstep
  | checkpointCapture ok => exact hcheckpoint (.capture ok)
  | checkpointHeader => exact hcheckpoint .header
  | checkpointWrite => exact hcheckpoint .write
  | checkpointSync => exact hcheckpoint .sync
  | checkpointRemap res => exact hcheckpoint (.remap res)
  | checkpointTruncated ok res => exact hcheckpoint (.truncated ok res)
  | checkpointFinish ok => exact hcheckpoint (.finish ok)

theorem Calm.tolerates (hc : Calm disk.wal h) {a : Action Hash}
    (ha : World.SucceedsAll W ⟨disk, some h⟩ a) : World.Tolerates W ⟨disk, some h⟩ a := by
  cases a with
  | call c admitted => exact ha
  | flushWrite res =>
      obtain rfl : res = .writes := ha
      trivial
  | checkpoint background admitted res =>
      obtain rfl : res = .writes := ha
      exact fun _ _ => .inr trivial
  | checkpointCapture ok =>
      intro _ background hh hst
      cases hh
      have hrest := hc.2
      rw [hst] at hrest
      exact ⟨hrest.1, fun _ => ha⟩
  | checkpointRemap res => exact .inl ha
  | checkpointTruncated ok res =>
      obtain ⟨rfl, rfl⟩ := ha
      exact ⟨rfl, fun _ _ => .inr trivial⟩
  | checkpointFinish ok => exact ha
  | _ => trivial

omit [Zero Hash] in
/-- What a crash leaves of a calm log. -/
theorem Calm.remains {pc ps p0 pd pu pf pb : List (WalPayload Hash)} (hc : Calm wal h)
    (hi : LogPart W wal h pc ps p0 pd pu pf pb) (hfit : AllFit W 0 ps) {s : List UInt8}
    (hs : wal.Survives s) (ht : TearsShow W.crc wal.now s) :
    Remains W N MAX_DEPTH pc (p0 ++ pd) ps s := by
  cases hcut : h.holder.cuts with
  | true => exact hi.cut hcut s hs
  | false =>
      have hfit' := hi.allFit hfit
      rw [List.append_assoc (pd ++ pu)] at hfit'
      have hrem := remains_grown (allFit_append.mp hfit').1 hi.start (hi.now_eq hc.1)
        (fun v hv => ⟨(hi.between hcut v hv).1, hc.grown hcut v hv⟩) hs ht
      refine hrem.mono ?_
      rw [hi.parts, ← List.append_assoc p0, List.append_assoc (p0 ++ pd ++ pu)]
      exact List.prefix_append _ _

end Calm

end Works.Rotortree
