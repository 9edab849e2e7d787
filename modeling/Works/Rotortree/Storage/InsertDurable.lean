import Works.Rotortree.Storage.DurableRun

/-! # Durable insertions

`insert_durable` inserts a leaf, flushes, and waits for its token.  Its flush may find the buffer
empty, because another thread took the entry; then the entry must be durable by the time the log
is free again, or the caller waits for ever.  `Shared.Moves` says once what a step may do to the
buffer, the numbers and the holder of the log; `Accounted` says that no entry is lost between the
buffer and the tracker as long as no background error is recorded. -/

namespace Works.Rotortree

open Works.Lib

variable {Hash : Type} {N MAX_DEPTH : ℕ}

/-- `flush_inner` does not lose the buffer it took: `stream_position` succeeds. -/
def Action.keepsBuffer : Action Hash → Bool
  | .flushWrite .positionFails => false
  | _ => true

/-- `flush_inner` has taken the buffer. -/
def Holder.flushing : Holder Hash → Bool
  | .flush _ _ _ => true
  | _ => false

/-- No `flush_inner` has taken the buffer. -/
def Shared.NoFlush (h : Shared Hash N MAX_DEPTH) : Prop := h.holder.flushing = false

/-- The steps of an open tree, as the buffer, the numbers and the holder of the log see them. -/
inductive Shared.Moves (h h' : Shared Hash N MAX_DEPTH) : Prop where
  /-- Nothing changes here. -/
  | stays (holder : h'.holder = h.holder) (buffer : h'.buffer = h.buffer)
      (nextSeq : h'.nextSeq = h.nextSeq) (flushed : h'.flushed = h.flushed)
      (bgError : h'.bgError = h.bgError)
  /-- A call writes its entry into the buffer. -/
  | fills (holder : h'.holder = h.holder) (buffer : h'.buffer ≠ [])
      (nextSeq : h.nextSeq ≤ h'.nextSeq) (flushed : h'.flushed = h.flushed)
      (bgError : h'.bgError = h.bgError)
  | flushTakes (full : h.buffer ≠ []) (holder : h'.holder = .flush h.buffer (h.nextSeq - 1) false)
      (nextSeq : h'.nextSeq = h.nextSeq) (flushed : h'.flushed = h.flushed)
      (bgError : h'.bgError = h.bgError)
  | flushWrites (buf : List UInt8) (lastSeq : ℕ) (old : h.holder = .flush buf lastSeq false)
      (holder : h'.holder = .flush buf lastSeq true) (buffer : h'.buffer = h.buffer)
      (nextSeq : h'.nextSeq = h.nextSeq) (flushed : h'.flushed = h.flushed)
      (bgError : h'.bgError = h.bgError)
  | flushSyncs (buf : List UInt8) (lastSeq : ℕ) (old : h.holder = .flush buf lastSeq true)
      (holder : h'.holder = .free) (buffer : h'.buffer = h.buffer)
      (nextSeq : h'.nextSeq = h.nextSeq) (flushed : h'.flushed = markFlushed h.flushed lastSeq)
      (bgError : h'.bgError = h.bgError)
  /-- A write or a sync of `flush_inner` fails. -/
  | flushFails (nextSeq : h'.nextSeq = h.nextSeq) (flushed : h'.flushed = h.flushed)
      (bgError : h'.bgError ≠ none)
  /-- A checkpoint goes from one stage to another, or fails. -/
  | checkpoints (old : h.NoFlush) (new : h'.NoFlush) (buffer : h'.buffer = h.buffer)
      (nextSeq : h'.nextSeq = h.nextSeq) (flushed : h'.flushed = h.flushed)
      (bgError : h'.bgError = none → h.bgError = none)
  /-- A checkpoint has synced the buffer with the log. -/
  | checkpointSyncs (old : h.NoFlush) (new : h'.NoFlush) (buffer : h'.buffer = [])
      (nextSeq : h'.nextSeq = h.nextSeq)
      (flushed : h'.flushed = markFlushed h.flushed (h.nextSeq - 1))
      (bgError : h'.bgError = h.bgError)

variable {h h' : Shared Hash N MAX_DEPTH}

theorem Shared.NoFlush.ne (hno : h.NoFlush) {buf : List UInt8} {lastSeq : ℕ} {written : Bool} :
    h.holder ≠ .flush buf lastSeq written := by
  intro hh
  rw [Shared.NoFlush, hh] at hno
  cases hno

theorem Shared.noFlush_of_free (hfree : h.holder = .free) : h.NoFlush := by
  rw [Shared.NoFlush, hfree]
  rfl

theorem Shared.noFlush_of_checkpoint {background : Bool} {stage : CheckpointStage Hash}
    (hst : h.holder = .checkpoint background stage) : h.NoFlush := by
  rw [Shared.NoFlush, hst]
  rfl

theorem le_durable_markFlushed (h : Shared Hash N MAX_DEPTH) (seq : ℕ) :
    seq + 1 ≤ { h with flushed := markFlushed h.flushed seq }.durable := by
  unfold Shared.durable markFlushed
  cases h.flushed with
  | none => exact le_rfl
  | some prev =>
      dsimp only
      split_ifs with hle
      · exact Nat.succ_le_succ hle
      · exact le_rfl

theorem durable_le_markFlushed (h : Shared Hash N MAX_DEPTH) (seq : ℕ) :
    h.durable ≤ { h with flushed := markFlushed h.flushed seq }.durable := by
  unfold Shared.durable markFlushed
  cases h.flushed with
  | none => exact Nat.zero_le _
  | some prev =>
      dsimp only
      split_ifs with hle
      · exact le_rfl
      · exact Nat.succ_le_succ (Nat.le_of_not_le hle)

/-! ### What a step does -/

section Step

variable [Zero Hash] {W : Wire Hash} {H : Hasher Hash} {disk : Disk Hash}

omit [Zero Hash] in
/-- A checkpoint returns an error. -/
theorem Shared.checkpointFails_moves (h₁ : Shared Hash N MAX_DEPTH) (hold : h.NoFlush)
    (hbuffer : h₁.buffer = h.buffer) (hseq : h₁.nextSeq = h.nextSeq)
    (hflushed : h₁.flushed = h.flushed) (herror : h₁.bgError = h.bgError) (background : Bool) :
    h.Moves (h₁.checkpointFails background) := by
  refine .checkpoints hold rfl hbuffer hseq hflushed fun he => ?_
  cases background with
  | true => cases he
  | false => exact herror ▸ he

omit [Zero Hash] in
/-- The sync of `flush_buffer_locked`, with what the checkpoint does after it. -/
theorem Shared.lockedSync_moves (hold : h.NoFlush) {ok : Bool} {wal wal' : CrashFile UInt8}
    {h₁ : Shared Hash N MAX_DEPTH} (hsync : h.lockedSync ok wal = some (wal', h₁))
    (hnew : h'.NoFlush) (hbuffer : h'.buffer = h₁.buffer) (hseq : h'.nextSeq = h₁.nextSeq)
    (hflushed : h'.flushed = h₁.flushed) (herror : h'.bgError = h₁.bgError) : h.Moves h' := by
  unfold Shared.lockedSync at hsync
  split_ifs at hsync
  · cases hsync
    exact .checkpoints hold hnew hbuffer hseq hflushed herror.symm.trans
  · cases hsync
    exact .checkpointSyncs hold hnew hbuffer hseq hflushed herror

omit [Zero Hash] in
/-- The write of `flush_buffer_locked`. -/
theorem Shared.lockedWrite_moves (hold : h.NoFlush) (background : Bool)
    (stage : CheckpointStage Hash) (res : WriteResult) (wal : CrashFile UInt8) :
    h.Moves (h.lockedWrite background stage res wal).2 := by
  unfold Shared.lockedWrite
  split_ifs
  · exact .checkpoints hold rfl rfl rfl rfl id
  · cases res with
    | writes => exact .checkpoints hold rfl rfl rfl rfl id
    | fails written =>
        exact Shared.checkpointFails_moves
          { h with cursor := h.cursor + (h.buffer.take written).length } hold rfl rfl rfl rfl
          background

/-- A checkpoint goes on. -/
theorem Shared.checkpointStep_moves {background : Bool} {stage : CheckpointStage Hash}
    (hst : h.holder = .checkpoint background stage) {a : Action Hash}
    {w' : World Hash N MAX_DEPTH}
    (hstep : World.checkpointStep W ⟨disk, some h⟩ h background stage a = some w')
    (hh' : w'.handle = some h') : h.Moves h' := by
  have hold : h.NoFlush := Shared.noFlush_of_checkpoint hst
  have hfails : ∀ {h₁ : Shared Hash N MAX_DEPTH}, h₁.buffer = h.buffer → h₁.nextSeq = h.nextSeq →
      h₁.flushed = h.flushed → h₁.bgError = h.bgError → h.Moves (h₁.checkpointFails background) :=
    fun hb hs hf he => Shared.checkpointFails_moves _ hold hb hs hf he background
  cases stage with
  | flush =>
      cases a with
      | checkpointCapture ok =>
          simp only [World.checkpointStep] at hstep
          cases hsync : h.lockedSync ok disk.wal with
          | none =>
              rw [hsync] at hstep
              cases hstep
              cases hh'
              exact hfails rfl rfl rfl rfl
          | some r =>
              obtain ⟨wal, h₁⟩ := r
              rw [hsync] at hstep
              dsimp only at hstep
              split_ifs at hstep with hsize
              · cases hstep
                cases hh'
                exact Shared.lockedSync_moves hold hsync rfl rfl rfl rfl rfl
              · cases hcap : h₁.capture with
                | error e =>
                    rw [hcap] at hstep
                    cases hstep
                | ok snap =>
                    rw [hcap] at hstep
                    cases hstep
                    cases hh'
                    exact Shared.lockedSync_moves hold hsync rfl rfl rfl rfl rfl
      | _ => cases hstep
  | header snap =>
      cases a with
      | checkpointHeader =>
          simp only [World.checkpointStep] at hstep
          cases hfile : writeHeader W N MAX_DEPTH with
          | error e =>
              rw [hfile] at hstep
              cases hstep
          | ok file =>
              rw [hfile] at hstep
              cases hstep
              cases hh'
              exact .checkpoints hold rfl rfl rfl rfl id
      | _ => cases hstep
  | write snap ws =>
      cases ws with
      | nil =>
          cases a with
          | checkpointSync =>
              cases hstep
              cases hh'
              exact .checkpoints hold rfl rfl rfl rfl id
          | _ => cases hstep
      | cons c ws =>
          cases a with
          | checkpointWrite =>
              cases hstep
              cases hh'
              exact .checkpoints hold rfl rfl rfl rfl id
          | _ => cases hstep
  | sync snap fl =>
      cases fl with
      | nil =>
          cases a with
          | checkpointSync =>
              simp only [World.checkpointStep] at hstep
              cases hfile : writeMeta W N MAX_DEPTH snap.lastSeq snap.leafCount snap.depth
                  snap.rootHash with
              | error e =>
                  rw [hfile] at hstep
                  cases hstep
              | ok file =>
                  rw [hfile] at hstep
                  cases hstep
                  cases hh'
                  exact .checkpoints hold rfl rfl rfl rfl id
          | _ => cases hstep
      | cons f fl =>
          cases a with
          | checkpointSync =>
              cases hstep
              cases hh'
              exact .checkpoints hold rfl rfl rfl rfl id
          | _ => cases hstep
  | remap snap =>
      cases a with
      | checkpointRemap res =>
          simp only [World.checkpointStep] at hstep
          obtain ⟨inner, chunks, hframe⟩ := Shared.remapLevels_frame disk.shards snap.levelData 0
            { h with checkpointedChunks := resize h.checkpointedChunks snap.levelData.length }
          rcases hremap : Shared.remapLevels disk.shards 0 snap.levelData
            { h with checkpointedChunks := resize h.checkpointedChunks snap.levelData.length } with
            ⟨r, h₁⟩
          rw [hremap] at hstep hframe
          obtain rfl : h₁ = _ := hframe
          cases r with
          | error e =>
              cases e with
              | panic => cases hstep
              | err e =>
                  cases hstep
                  cases hh'
                  exact hfails rfl rfl rfl rfl
          | ok u =>
              dsimp only at hstep
              cases hheader : serializeHeader W N MAX_DEPTH with
              | error e =>
                  rw [hheader] at hstep
                  cases hstep
              | ok header =>
                  rw [hheader] at hstep
                  cases hstep
                  cases res with
                  | cuts =>
                      cases hh'
                      exact .checkpoints hold rfl rfl rfl rfl id
                  | seekFails =>
                      cases hh'
                      exact hfails rfl rfl rfl rfl
                  | headerFails written =>
                      cases hh'
                      exact hfails rfl rfl rfl rfl
                  | setLenFails =>
                      cases hh'
                      exact hfails rfl rfl rfl rfl
      | _ => cases hstep
  | truncate =>
      cases a with
      | checkpointTruncated ok res =>
          simp only [World.checkpointStep] at hstep
          split_ifs at hstep
          · cases hstep
            cases hh'
            exact .checkpoints hold rfl rfl rfl rfl id
          · cases hstep
            cases hh'
            exact Shared.lockedWrite_moves hold background .tail res _
          · cases hstep
            cases hh'
            exact hfails rfl rfl rfl rfl
      | _ => cases hstep
  | tail =>
      cases a with
      | checkpointFinish ok =>
          simp only [World.checkpointStep] at hstep
          cases hsync : h.lockedSync ok disk.wal with
          | none =>
              rw [hsync] at hstep
              cases hstep
              cases hh'
              exact hfails rfl rfl rfl rfl
          | some r =>
              obtain ⟨wal, h₁⟩ := r
              rw [hsync] at hstep
              cases hstep
              cases hh'
              exact Shared.lockedSync_moves hold hsync rfl rfl rfl rfl rfl
      | _ => cases hstep

omit [Zero Hash] in
/-- An entry is never empty in the log. -/
theorem serializeEntry_ne_nil {buf : List UInt8} {seq : ℕ} {payload : WalPayload Hash}
    {buffer : List UInt8} (hser : serializeEntry W buf seq payload = .ok buffer) : buffer ≠ [] := by
  unfold serializeEntry writeFrame at hser
  obtain ⟨_, -, hpure⟩ := Outcome.bind_eq_ok.mp hser
  cases hpure
  refine List.ne_nil_of_length_pos ?_
  rw [List.length_append, length_frameOf]
  omega

/-- A call. -/
theorem Shared.insertCall_moves (fs : ShardFs Hash) (c : Call Hash) (h : Shared Hash N MAX_DEPTH) :
    h.Moves (h.insertCall W H fs c).2 := by
  unfold Shared.insertCall
  split
  · exact .stays rfl rfl rfl rfl rfl
  · exact .stays rfl rfl rfl rfl rfl
  · split
    · exact .stays rfl rfl rfl rfl rfl
    · rename_i buffer hser
      split_ifs
      · exact .fills rfl (serializeEntry_ne_nil hser) (Nat.le_succ _) rfl rfl
      · exact .fills rfl (serializeEntry_ne_nil hser) le_rfl rfl rfl

/-- The token of a call. -/
theorem Shared.insertCall_token {fs : ShardFs Hash} {c : Call Hash} {root : Hash} {seq : ℕ}
    (hcall : h.insertCall W H fs c = (.ok (root, seq), h')) : seq < h'.nextSeq := by
  unfold Shared.insertCall at hcall
  split at hcall
  · cases hcall
  · cases hcall
  · split at hcall
    · cases hcall
    · split_ifs at hcall
      · cases hcall
        exact Nat.lt_succ_self _
      · cases hcall

omit [Zero Hash] in
/-- `flush_inner` takes the buffer. -/
theorem Shared.flushTake_moves (h : Shared Hash N MAX_DEPTH) : h.Moves h.flushTake := by
  unfold Shared.flushTake
  split_ifs with hempty
  · exact .stays rfl rfl rfl rfl rfl
  · exact .flushTakes (by simpa using hempty) rfl rfl rfl rfl

omit [Zero Hash] in
/-- `flush_inner` writes what it took. -/
theorem Shared.flushWrite_moves {buf : List UInt8} {lastSeq : ℕ}
    (hfl : h.holder = .flush buf lastSeq false) {res : FlushResult}
    (hkeeps : (.flushWrite res : Action Hash).keepsBuffer = true) (wal : CrashFile UInt8) :
    h.Moves (h.flushWrite buf lastSeq res wal).2 := by
  cases res with
  | positionFails => cases hkeeps
  | writes => exact .flushWrites buf lastSeq hfl rfl rfl rfl rfl rfl
  | fails written seekOk setLenOk => exact .flushFails rfl rfl (Option.some_ne_none _)

omit [Zero Hash] in
/-- `flush_inner` syncs the log. -/
theorem Shared.flushSync_moves {buf : List UInt8} {lastSeq : ℕ}
    (hfl : h.holder = .flush buf lastSeq true) (ok : Bool) (wal : CrashFile UInt8) :
    h.Moves (h.flushSync lastSeq ok wal).2 := by
  cases ok with
  | true => exact .flushSyncs buf lastSeq hfl rfl rfl rfl rfl rfl
  | false => exact .flushFails rfl rfl (Option.some_ne_none _)

/-- One step of an open tree. -/
theorem Shared.handleStep_moves {a : Action Hash} {w' : World Hash N MAX_DEPTH}
    (hkeeps : a.keepsBuffer = true)
    (hstep : World.handleStep W H ⟨disk, some h⟩ h a = some w') (hh' : w'.handle = some h') :
    h.Moves h' := by
  have hstay : ∀ {w'}, some (⟨disk, some h⟩ : World Hash N MAX_DEPTH) = some w' →
      w'.handle = some h' → h.Moves h' := by
    intro w' hw hh
    cases hw
    cases hh
    exact .stays rfl rfl rfl rfl rfl
  have hcheckpoint : a.Advances → h.Moves h' := by
    intro hadv
    obtain ⟨background, stage, hst, hgo⟩ := hadv.step hstep
    exact Shared.checkpointStep_moves hst hgo hh'
  cases a with
  | call c admitted =>
      simp only [World.handleStep] at hstep
      split_ifs at hstep
      · cases hstep
        cases hh'
        exact Shared.insertCall_moves _ c h
      · exact hstay hstep hh'
  | flush admitted =>
      simp only [World.handleStep] at hstep
      split at hstep
      · split_ifs at hstep
        · cases hstep
          cases hh'
          exact h.flushTake_moves
        · exact hstay hstep hh'
      · cases hstep
  | flushWrite res =>
      simp only [World.handleStep] at hstep
      split at hstep
      · rename_i buf lastSeq hfl
        cases hstep
        cases hh'
        exact Shared.flushWrite_moves hfl hkeeps _
      · cases hstep
  | flushSync ok =>
      simp only [World.handleStep] at hstep
      split at hstep
      · rename_i buf lastSeq hfl
        cases hstep
        cases hh'
        exact Shared.flushSync_moves hfl ok _
      · cases hstep
  | checkpoint background admitted res =>
      simp only [World.handleStep] at hstep
      split at hstep
      · rename_i hfree
        split_ifs at hstep
        · cases hstep
          cases hh'
          exact Shared.lockedWrite_moves (Shared.noFlush_of_free hfree) background .flush res _
        · exact hstay hstep hh'
      · cases hstep
  | close =>
      cases hstep
      cases hh'
      exact .stays rfl rfl rfl rfl rfl
  | crash wal shards =>
      cases hstep
      cases hh'
  | reopen _ _ _ => cases hstep
  | checkpointCapture ok => exact hcheckpoint (.capture ok)
  | checkpointHeader => exact hcheckpoint .header
  | checkpointWrite => exact hcheckpoint .write
  | checkpointSync => exact hcheckpoint .sync
  | checkpointRemap res => exact hcheckpoint (.remap res)
  | checkpointTruncated ok res => exact hcheckpoint (.truncated ok res)
  | checkpointFinish ok => exact hcheckpoint (.finish ok)

end Step

/-! ### No entry is lost -/

/-- Every entry is in the buffer, on its way to the log, or durable. -/
structure Accounted (h : Shared Hash N MAX_DEPTH) : Prop where
  taken : ∀ buf lastSeq written, h.holder = .flush buf lastSeq written → h.buffer = [] →
    h.nextSeq ≤ lastSeq + 1
  idle : h.NoFlush → h.buffer = [] → h.nextSeq ≤ h.durable

/-- What later states of an open tree have reached. -/
structure Shared.Onward (h h' : Shared Hash N MAX_DEPTH) : Prop where
  nextSeq : h.nextSeq ≤ h'.nextSeq
  durable : h.durable ≤ h'.durable
  bgError : h'.bgError = none → h.bgError = none

theorem Shared.durable_congr (hflushed : h'.flushed = h.flushed) : h'.durable = h.durable := by
  unfold Shared.durable
  rw [hflushed]

theorem Shared.Moves.onward (hm : h.Moves h') : h.Onward h' := by
  have hmark : ∀ seq, h'.flushed = markFlushed h.flushed seq → h.durable ≤ h'.durable := by
    intro seq hflushed
    rw [show h'.durable = { h with flushed := markFlushed h.flushed seq }.durable from
      Shared.durable_congr hflushed]
    exact durable_le_markFlushed h seq
  cases hm with
  | stays _ _ hseq hflushed herror =>
      exact ⟨hseq.ge, (Shared.durable_congr hflushed).ge, herror.symm.trans⟩
  | fills _ _ hseq hflushed herror =>
      exact ⟨hseq, (Shared.durable_congr hflushed).ge, herror.symm.trans⟩
  | flushTakes _ _ hseq hflushed herror =>
      exact ⟨hseq.ge, (Shared.durable_congr hflushed).ge, herror.symm.trans⟩
  | flushWrites _ _ _ _ _ hseq hflushed herror =>
      exact ⟨hseq.ge, (Shared.durable_congr hflushed).ge, herror.symm.trans⟩
  | flushSyncs _ lastSeq _ _ _ hseq hflushed herror =>
      exact ⟨hseq.ge, hmark lastSeq hflushed, herror.symm.trans⟩
  | flushFails hseq hflushed herror =>
      exact ⟨hseq.ge, (Shared.durable_congr hflushed).ge, fun he => absurd he herror⟩
  | checkpoints _ _ _ hseq hflushed herror =>
      exact ⟨hseq.ge, (Shared.durable_congr hflushed).ge, herror⟩
  | checkpointSyncs _ _ _ hseq hflushed herror =>
      exact ⟨hseq.ge, hmark _ hflushed, herror.symm.trans⟩

theorem Accounted.moves (ha : Accounted h) (hm : h.Moves h') (hok : h'.bgError = none) :
    Accounted h' := by
  cases hm with
  | stays hholder hbuffer hseq hflushed _ =>
      refine ⟨?_, ?_⟩
      · intro buf lastSeq written hh hempty
        rw [hseq]
        exact ha.taken buf lastSeq written (hholder ▸ hh) (hbuffer ▸ hempty)
      · intro hno hempty
        rw [hseq, Shared.durable_congr hflushed]
        refine ha.idle ?_ (hbuffer ▸ hempty)
        unfold Shared.NoFlush at hno ⊢
        exact hholder ▸ hno
  | fills _ hfull _ _ _ =>
      exact ⟨fun _ _ _ _ hempty => absurd hempty hfull, fun _ hempty => absurd hempty hfull⟩
  | flushTakes _ hholder hseq _ _ =>
      refine ⟨?_, fun hno => absurd hholder hno.ne⟩
      intro buf lastSeq written hh _
      cases hholder.symm.trans hh
      rw [hseq]
      exact Nat.le_add_of_sub_le le_rfl
  | flushWrites buf lastSeq hold hholder hbuffer hseq _ _ =>
      refine ⟨?_, fun hno => absurd hholder hno.ne⟩
      intro buf' lastSeq' written hh hempty
      cases hholder.symm.trans hh
      rw [hseq]
      exact ha.taken buf lastSeq false hold (hbuffer ▸ hempty)
  | flushSyncs buf lastSeq hold hholder hbuffer hseq hflushed _ =>
      refine ⟨fun _ _ _ hh => (nomatch hholder.symm.trans hh), ?_⟩
      intro _ hempty
      calc h'.nextSeq = h.nextSeq := hseq
        _ ≤ lastSeq + 1 := ha.taken buf lastSeq true hold (hbuffer ▸ hempty)
        _ ≤ { h with flushed := markFlushed h.flushed lastSeq }.durable :=
            le_durable_markFlushed h lastSeq
        _ = h'.durable := (Shared.durable_congr hflushed).symm
  | flushFails _ _ herror => exact absurd hok herror
  | checkpoints hold hnew hbuffer hseq hflushed _ =>
      refine ⟨fun _ _ _ hh => absurd hh hnew.ne, ?_⟩
      intro _ hempty
      rw [hseq, Shared.durable_congr hflushed]
      exact ha.idle hold (hbuffer ▸ hempty)
  | checkpointSyncs _ hnew _ hseq hflushed _ =>
      refine ⟨fun _ _ _ hh => absurd hh hnew.ne, ?_⟩
      intro _ _
      calc h'.nextSeq = h.nextSeq := hseq
        _ ≤ h.nextSeq - 1 + 1 := Nat.le_add_of_sub_le le_rfl
        _ ≤ { h with flushed := markFlushed h.flushed (h.nextSeq - 1) }.durable :=
            le_durable_markFlushed h _
        _ = h'.durable := (Shared.durable_congr hflushed).symm

section Run

variable [Zero Hash] [DecidableEq Hash] {W : Wire Hash} {H : Hasher Hash}
variable {cs : List (Call Hash)} {w : World Hash N MAX_DEPTH}

/-- A tree that was just opened. -/
theorem accounted_of_open {pinAboveLevel : ℕ} {verify : Bool} {par : ℕ → ℕ → Bool}
    {disk disk' : Disk Hash} (hopen : openTree W H pinAboveLevel verify par disk = .ok (h, disk')) :
    Accounted h := by
  have hopen : ∃ r : RecoveryResult Hash N MAX_DEPTH, ∃ checkpointedChunks,
      h = ⟨r.inner, [], r.nextSeq, checkpointedChunks, r.cursor, r.inner.snapshot,
        if 0 < r.nextSeq then some (r.nextSeq - 1) else none, false, none, pinAboveLevel,
        .free⟩ := by
    unfold openTree at hopen
    dsimp only at hopen
    split_ifs at hopen
    all_goals
      obtain ⟨r, -, hopen⟩ := Outcome.bind_eq_ok.mp hopen
      obtain ⟨checkpointedChunks, -, hopen⟩ := Outcome.bind_eq_ok.mp hopen
      cases hopen
      exact ⟨r, checkpointedChunks, rfl⟩
  obtain ⟨r, checkpointedChunks, rfl⟩ := hopen
  refine ⟨fun _ _ _ hh => absurd hh (by simp), fun _ _ => ?_⟩
  unfold Shared.durable
  dsimp only
  split_ifs with hseq
  · exact Nat.le_add_of_sub_le le_rfl
  · exact Nat.le_of_not_lt hseq

theorem Session.accounted (hs : Session W H (fun _ a => a.keepsBuffer = true) cs w)
    (hh : w.handle = some h) (hok : h.bgError = none) : Accounted h := by
  induction hs generalizing h with
  | start => cases hh
  | @step cs w w' a _ hkeeps hw ih =>
      obtain ⟨disk, handle⟩ := w
      cases handle with
      | some h₀ =>
          have hm : h₀.Moves h := Shared.handleStep_moves hkeeps hw hh
          exact (ih rfl (hm.onward.bgError hok)).moves hm hok
      | none =>
          cases a with
          | reopen pinAboveLevel verify par =>
              unfold World.step at hw
              dsimp only at hw
              cases hopen : (openTree W H pinAboveLevel verify par disk :
                Outcome StorageError (Shared Hash N MAX_DEPTH × Disk Hash)) with
              | error e =>
                  rw [hopen] at hw
                  cases hw
                  cases hh
              | ok r =>
                  rw [hopen] at hw
                  cases hw
                  cases hh
                  exact accounted_of_open hopen
          | _ => cases hw

/-! ### One call of `insert_durable` -/

/-- Where `insert_durable` is. -/
inductive InsertDurableStage where
  /-- `insert` has returned the token; `flush` may have passed `check_closed`. -/
  | inserted
  /-- `flush_inner` has taken the buffer. -/
  | flushing
  /-- `flush` has returned `Ok`; the token is waited for. -/
  | waiting

variable (W H) in
/-- `insert_durable` with the token `seq`, in the middle of whatever the other threads do.  An
error of its `insert` or of its `flush` ends the call. -/
inductive InsertDurable (seq : ℕ) :
    Disk Hash → Shared Hash N MAX_DEPTH → InsertDurableStage → Prop where
  | insert {cs : List (Call Hash)} {disk : Disk Hash} {h h' : Shared Hash N MAX_DEPTH}
      {leaf root : Hash} (hs : Session W H (fun _ a => a.keepsBuffer = true) cs ⟨disk, some h⟩)
      (hlock : h.holder.locksState = false)
      (hcall : h.insertCall W H disk.shards.fs (.insert leaf) = (.ok (root, seq), h')) :
      InsertDurable seq disk h' .inserted
  | others {disk disk' : Disk Hash} {h h' : Shared Hash N MAX_DEPTH} {stage : InsertDurableStage}
      {a : Action Hash} (hd : InsertDurable seq disk h stage) (ha : a.keepsBuffer = true)
      (hmine : stage = .flushing → h'.holder = h.holder)
      (hstep : World.handleStep W H ⟨disk, some h⟩ h a = some ⟨disk', some h'⟩) :
      InsertDurable seq disk' h' stage
  | flushEmpty {disk : Disk Hash} {h : Shared Hash N MAX_DEPTH}
      (hd : InsertDurable seq disk h .inserted) (hfree : h.holder = .free)
      (hempty : h.buffer = []) : InsertDurable seq disk h .waiting
  | flushTake {disk : Disk Hash} {h : Shared Hash N MAX_DEPTH}
      (hd : InsertDurable seq disk h .inserted) (hfree : h.holder = .free)
      (hfull : h.buffer ≠ []) : InsertDurable seq disk h.flushTake .flushing
  | flushWrite {disk : Disk Hash} {h : Shared Hash N MAX_DEPTH} {buf : List UInt8} {lastSeq : ℕ}
      (hd : InsertDurable seq disk h .flushing) (hfl : h.holder = .flush buf lastSeq false) :
      InsertDurable seq { disk with wal := (h.flushWrite buf lastSeq .writes disk.wal).1 }
        (h.flushWrite buf lastSeq .writes disk.wal).2 .flushing
  | flushSync {disk : Disk Hash} {h : Shared Hash N MAX_DEPTH} {buf : List UInt8} {lastSeq : ℕ}
      (hd : InsertDurable seq disk h .flushing) (hfl : h.holder = .flush buf lastSeq true) :
      InsertDurable seq { disk with wal := (h.flushSync lastSeq true disk.wal).1 }
        (h.flushSync lastSeq true disk.wal).2 .waiting

variable {seq : ℕ} {disk : Disk Hash} {stage : InsertDurableStage}

/-- What holds while the call is under way. -/
structure Awaited (seq : ℕ) (h : Shared Hash N MAX_DEPTH) (stage : InsertDurableStage) : Prop where
  issued : seq < h.nextSeq
  accounted : h.bgError = none → Accounted h
  taken : stage = .flushing →
    ∃ buf lastSeq written, h.holder = .flush buf lastSeq written ∧ seq ≤ lastSeq
  reached : stage = .waiting → h.bgError = none → seq < h.durable

omit [Zero Hash] [DecidableEq Hash] in
/-- What holds after any step, wherever it leaves the call. -/
theorem Awaited.kept (hd : Awaited seq h stage) (hm : h.Moves h') :
    seq < h'.nextSeq ∧ (h'.bgError = none → Accounted h') :=
  ⟨hd.issued.trans_le hm.onward.nextSeq,
    fun hok => (hd.accounted (hm.onward.bgError hok)).moves hm hok⟩

omit [Zero Hash] [DecidableEq Hash] in
/-- A step that leaves the call where it is. -/
theorem Awaited.moves (hd : Awaited seq h stage) (hm : h.Moves h')
    (hmine : stage = .flushing → h'.holder = h.holder) : Awaited seq h' stage := by
  obtain ⟨hissued, haccounted⟩ := hd.kept hm
  refine ⟨hissued, haccounted, ?_, ?_⟩
  · intro hst
    rw [hmine hst]
    exact hd.taken hst
  · intro hst hok
    exact (hd.reached hst (hm.onward.bgError hok)).trans_le hm.onward.durable

theorem InsertDurable.awaited (hd : InsertDurable W H seq disk h stage) : Awaited seq h stage := by
  induction hd with
  | @insert cs disk h h' leaf root hs hlock hcall =>
      have hm : h.Moves h' := by
        have hm := Shared.insertCall_moves (W := W) (H := H) disk.shards.fs (.insert leaf) h
        rwa [hcall] at hm
      exact ⟨Shared.insertCall_token hcall,
        fun hok => (hs.accounted rfl (hm.onward.bgError hok)).moves hm hok, nofun, nofun⟩
  | others _ ha hmine hstep ih => exact ih.moves (Shared.handleStep_moves ha hstep rfl) hmine
  | flushEmpty _ hfree hempty ih =>
      refine ⟨ih.issued, ih.accounted, nofun, fun _ hok => ?_⟩
      exact ih.issued.trans_le ((ih.accounted hok).idle (Shared.noFlush_of_free hfree) hempty)
  | @flushTake disk h _ _ hfull ih =>
      obtain ⟨hissued, haccounted⟩ := ih.kept h.flushTake_moves
      refine ⟨hissued, haccounted, fun _ => ?_, nofun⟩
      refine ⟨h.buffer, h.nextSeq - 1, false, ?_, Nat.le_sub_one_of_lt ih.issued⟩
      unfold Shared.flushTake
      rw [if_neg (by simpa using hfull)]
  | @flushWrite disk h buf lastSeq _ hfl ih =>
      have hm : h.Moves (h.flushWrite buf lastSeq .writes disk.wal).2 :=
        Shared.flushWrite_moves hfl rfl _
      obtain ⟨hissued, haccounted⟩ := ih.kept hm
      refine ⟨hissued, haccounted, fun _ => ?_, nofun⟩
      obtain ⟨buf, lastSeq, written, hh, hle⟩ := ih.taken rfl
      cases hfl.symm.trans hh
      exact ⟨_, _, true, rfl, hle⟩
  | @flushSync disk h buf lastSeq _ hfl ih =>
      obtain ⟨hissued, haccounted⟩ := ih.kept (Shared.flushSync_moves hfl true disk.wal)
      refine ⟨hissued, haccounted, nofun, fun _ _ => ?_⟩
      obtain ⟨buf, lastSeq, written, hh, hle⟩ := ih.taken rfl
      cases hfl.symm.trans hh
      exact (Nat.lt_succ_of_le hle).trans_le (le_durable_markFlushed _ lastSeq)

/-- **`insert_durable` does not wait in vain.**  Whatever the other threads do with the log while
it runs, when its `flush` has returned `Ok`, also because the buffer was empty, the entry is
durable and `wait` returns at once, unless a background error is recorded by then. -/
theorem InsertDurable.token_durable (hd : InsertDurable W H seq disk h .waiting)
    (hok : h.bgError = none) : h.isDurable seq = true :=
  (h.isDurable_iff seq).mpr (hd.awaited.reached rfl hok)

/-! ### Two calls -/

variable (W H) in
/-- What other threads do while the tree stays open. -/
def World.others (as : List (Action Hash)) (s : Disk Hash × Shared Hash N MAX_DEPTH) :
    Option (Disk Hash × Shared Hash N MAX_DEPTH) :=
  as.foldlM (fun s a =>
    if a.keepsBuffer then
      (World.handleStep W H ⟨s.1, some s.2⟩ s.2 a).bind fun w => w.handle.map fun h => (w.disk, h)
    else none) s

variable (W H) in
/-- `insert_durable` up to its flush, which finds the buffer empty after what others did. -/
def World.insertDurable (leaf : Hash) (as : List (Action Hash)) (w : World Hash N MAX_DEPTH) :
    Option (ℕ × Disk Hash × Shared Hash N MAX_DEPTH) :=
  w.handle.bind fun h =>
    match h.holder.locksState, h.insertCall W H w.disk.shards.fs (.insert leaf) with
    | false, (.ok (_, seq), h') =>
        (World.others W H as (w.disk, h')).bind fun s =>
          match s.2.holder, s.2.buffer with
          | .free, [] => some (seq, s)
          | _, _ => none
    | _, _ => none

theorem InsertDurable.others_of_run {as : List (Action Hash)} {disk' : Disk Hash}
    (hd : InsertDurable W H seq disk h .inserted)
    (hrun : World.others W H as (disk, h) = some (disk', h')) :
    InsertDurable W H seq disk' h' .inserted := by
  refine foldlM_invariant (P := fun s => InsertDurable W H seq s.1 s.2 .inserted) ?_ hd hrun
  rintro ⟨disk₁, h₁⟩ a ⟨disk₂, h₂⟩ hd₁ hstep
  split_ifs at hstep with hkeeps
  obtain ⟨⟨disk₃, handle⟩, hw, hmap⟩ := Option.bind_eq_some_iff.mp hstep
  obtain ⟨h₃, hh, hpair⟩ := Option.map_eq_some_iff.mp hmap
  cases hh
  cases hpair
  exact hd₁.others hkeeps nofun hw

theorem InsertDurable.of_run {leaf : Hash} {as : List (Action Hash)} {disk' : Disk Hash}
    (hs : Session W H (fun _ a => a.keepsBuffer = true) cs w)
    (hrun : World.insertDurable W H leaf as w = some (seq, disk', h')) :
    InsertDurable W H seq disk' h' .waiting := by
  obtain ⟨disk, handle⟩ := w
  obtain ⟨h, rfl, hrun⟩ := Option.bind_eq_some_iff.mp hrun
  split at hrun
  · rename_i root seq' h₁ hlock hcall
    obtain ⟨⟨disk₂, h₂⟩, hothers, hend⟩ := Option.bind_eq_some_iff.mp hrun
    dsimp only at hend
    split at hend
    · rename_i hfree hempty
      cases hend
      exact ((InsertDurable.insert hs hlock hcall).others_of_run hothers).flushEmpty hfree hempty
    · cases hend
  · cases hrun

/-- A call after a computed session, for the checks on fixed runs. -/
theorem InsertDurable.of_checked {actions as : List (Action Hash)} {leaf : Hash}
    {check : ℕ × Disk Hash × Shared Hash N MAX_DEPTH → Bool}
    (hends : (World.session W H (fun _ a => a.keepsBuffer) actions :
      Option (List (Call Hash) × World Hash N MAX_DEPTH)).any (fun s =>
        (World.insertDurable W H leaf as s.2).any check) = true) :
    ∃ seq disk h, InsertDurable W H seq disk h .waiting ∧ check (seq, disk, h) = true := by
  obtain ⟨⟨cs, w⟩, hrun, hend⟩ := (Option.any_eq_true _ _).mp hends
  obtain ⟨⟨seq, disk, h⟩, hdurable, hend⟩ := (Option.any_eq_true _ _).mp hend
  exact ⟨seq, disk, h, .of_run (Session.of_checked (fun _ _ ha => ha) hrun) hdurable, hend⟩

end Run

/-- Another thread's flush takes the entry and syncs it. -/
theorem takenEntry_durable : ∃ (disk : Disk Hash32) (h : Shared Hash32 2 10),
    InsertDurable wincode xorHasher 0 disk h .waiting ∧ h.isDurable 0 = true := by
  have hends : (World.session wincode xorHasher (fun _ a => a.keepsBuffer)
      [.reopen 64 true (fun _ _ => false)] :
      Option (List (Call Hash32) × World Hash32 2 10)).any (fun s =>
        (World.insertDurable wincode xorHasher (testLeaf 1)
          [.flush false, .flushWrite .writes, .flushSync true] s.2).any fun s =>
            decide (s.1 = 0) && s.2.2.bgError.isNone) = true := by
    decide +kernel
  obtain ⟨seq, disk, h, hd, hend⟩ := InsertDurable.of_checked hends
  obtain ⟨hseq, hok⟩ := Bool.and_eq_true_iff.mp hend
  obtain rfl : seq = 0 := of_decide_eq_true hseq
  exact ⟨disk, h, hd, hd.token_durable (Option.isNone_iff_eq_none.mp hok)⟩

/-- When the sync of that flush fails, the caller, past `check_closed` by then, is left waiting. -/
theorem failedSync_waits : ∃ (disk : Disk Hash32) (h : Shared Hash32 2 10),
    InsertDurable wincode xorHasher 0 disk h .waiting ∧ h.isDurable 0 = false := by
  have hends : (World.session wincode xorHasher (fun _ a => a.keepsBuffer)
      [.reopen 64 true (fun _ _ => false)] :
      Option (List (Call Hash32) × World Hash32 2 10)).any (fun s =>
        (World.insertDurable wincode xorHasher (testLeaf 1)
          [.flush false, .flushWrite .writes, .flushSync false] s.2).any fun s =>
            decide (s.1 = 0) && !s.2.2.isDurable 0) = true := by
    decide +kernel
  obtain ⟨seq, disk, h, hd, hend⟩ := InsertDurable.of_checked hends
  obtain ⟨hseq, hlost⟩ := Bool.and_eq_true_iff.mp hend
  obtain rfl : seq = 0 := of_decide_eq_true hseq
  exact ⟨disk, h, hd, by simpa using hlost⟩

end Works.Rotortree
