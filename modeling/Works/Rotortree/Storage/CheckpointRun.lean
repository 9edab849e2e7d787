import Works.Lib.Loops
import Works.Rotortree.Storage.CallLog
import Works.Rotortree.Storage.Remap
import Works.Rotortree.Storage.Verification

/-! # Checkpoints in a run

Calls, flushes and checkpoints of one open tree, in any order and with any outcome of the
operations on the log.  As long as every checkpoint finds a settled leaf count, the tree is at
every moment the one that the same calls build in memory without a checkpoint
(`Session.tree_without_checkpoints`).  What the steps keep is stated for any property of the leaf
counts that the checkpoints have (`Session.steady`). -/

namespace Works.Rotortree

open Works.Lib ChunkedLevel

variable {Hash : Type} {N MAX_DEPTH : ℕ}

/-! ### Runs -/

/-- The snapshot that a checkpoint is working on, from the capture to the remapping. -/
def Holder.snap : Holder Hash → Option (CheckpointSnap Hash)
  | .checkpoint _ (.header snap) => some snap
  | .checkpoint _ (.write snap _) => some snap
  | .checkpoint _ (.sync snap _) => some snap
  | .checkpoint _ (.remap snap) => some snap
  | _ => none

namespace World

/-- The call that gets to the tree. -/
def entered (w : World Hash N MAX_DEPTH) : Action Hash → List (Call Hash)
  | .call c admitted => match w.handle with
      | some h => if h.holder.locksState then [] else if h.admits admitted then [c] else []
      | none => []
  | _ => []

/-- There is no crash, and a checkpoint takes the levels at a settled leaf count. -/
def Settles (w : World Hash N MAX_DEPTH) : Action Hash → Prop
  | .checkpointCapture _ => ∀ h, w.handle = some h → Settled N h.pinAboveLevel h.inner.size
  | .crash _ _ => False
  | _ => True

end World

section Session

variable [Zero Hash] [DecidableEq Hash] (W : Wire Hash) (H : Hasher Hash)

/-- The states that steps with a property lead to from an empty directory, with the calls that
got to the tree. -/
inductive Session (P : World Hash N MAX_DEPTH → Action Hash → Prop) :
    List (Call Hash) → World Hash N MAX_DEPTH → Prop where
  | start : Session P [] World.empty
  | step {cs : List (Call Hash)} {w w' : World Hash N MAX_DEPTH} {a : Action Hash}
      (h : Session P cs w) (ha : P w a) (hw : World.step W H w a = some w') :
      Session P (cs ++ w.entered a) w'

/-- A checked step of a run. -/
def World.sessionStep (check : World Hash N MAX_DEPTH → Action Hash → Bool)
    (s : List (Call Hash) × World Hash N MAX_DEPTH) (a : Action Hash) :
    Option (List (Call Hash) × World Hash N MAX_DEPTH) :=
  if check s.2 a then (World.step W H s.2 a).map fun w => (s.1 ++ s.2.entered a, w) else none

/-- A run whose steps are checked. -/
def World.session (check : World Hash N MAX_DEPTH → Action Hash → Bool) (as : List (Action Hash)) :
    Option (List (Call Hash) × World Hash N MAX_DEPTH) :=
  as.foldlM (World.sessionStep W H check) ([], World.empty)

theorem World.session_append (check : World Hash N MAX_DEPTH → Action Hash → Bool)
    (as bs : List (Action Hash)) : World.session W H check (as ++ bs) =
      (World.session W H check as).bind fun s => bs.foldlM (World.sessionStep W H check) s :=
  List.foldlM_append

variable {W H}

theorem Session.of_checked {P : World Hash N MAX_DEPTH → Action Hash → Prop}
    {check : World Hash N MAX_DEPTH → Action Hash → Bool} (hP : ∀ w a, check w a = true → P w a)
    {as : List (Action Hash)} {cs : List (Call Hash)} {w : World Hash N MAX_DEPTH}
    (h : World.session W H check as = some (cs, w)) : Session W H P cs w := by
  refine foldlM_invariant (P := fun s => Session W H P s.1 s.2) ?_ .start h
  rintro ⟨cs, w⟩ a ⟨cs', w'⟩ hs hstep
  unfold World.sessionStep at hstep
  split_ifs at hstep with hcheck
  obtain ⟨w'', hw, hr⟩ := Option.map_eq_some_iff.mp hstep
  cases hr
  exact hs.step (hP w a hcheck) hw

end Session

/-! ### Steps of a checkpoint -/

/-- The actions that bring a checkpoint to its next stage. -/
inductive Action.Advances : Action Hash → Prop where
  | capture (ok : Bool) : Advances (.checkpointCapture ok)
  | header : Advances .checkpointHeader
  | write : Advances .checkpointWrite
  | sync : Advances .checkpointSync
  | remap (res : TruncateResult) : Advances (.checkpointRemap res)
  | truncated (ok : Bool) (res : WriteResult) : Advances (.checkpointTruncated ok res)
  | finish (ok : Bool) : Advances (.checkpointFinish ok)

theorem Action.Advances.step [Zero Hash] {W : Wire Hash} {H : Hasher Hash}
    {w w' : World Hash N MAX_DEPTH} {h : Shared Hash N MAX_DEPTH} {a : Action Hash}
    (ha : a.Advances) (hstep : World.handleStep W H w h a = some w') :
    ∃ background stage, h.holder = .checkpoint background stage ∧
      World.checkpointStep W w h background stage a = some w' := by
  cases ha
  all_goals
    simp only [World.handleStep] at hstep
    split at hstep
    · exact ⟨_, _, ‹_›, hstep⟩
    · cases hstep

/-! ### Settled leaf counts -/

/-- Fewer leaves than a chunk has. -/
theorem settled_of_lt {n : ℕ} (hN : 2 ≤ N) (hn : n < CHUNK_SIZE) (tiers : ℕ) :
    Settled N tiers n := by
  intro k _
  have hle : n ⌈/⌉ N ^ k ≤ n := by
    rw [ceilDiv_le_iff_le_mul (Nat.pow_pos (by omega))]
    exact Nat.le_mul_of_pos_left _ (Nat.pow_pos (by omega))
  rw [wholeChunks, Nat.div_eq_of_lt (hle.trans_lt hn), Nat.zero_mul, Nat.zero_mul]
  exact Nat.zero_le _

/-! ### Steps -/

section Steady

variable [Zero Hash]

/-- The tree, with the bounds that the metadata relies on, while the checkpoints over `m` leaves and
over those of the running checkpoint have `P`, and the last one is fresh in the running one. -/
structure Steady (P : ℕ → Prop) (W : Wire Hash) (H : Hasher Hash) (tiers : ℕ) (disk : Disk Hash)
    (h : Shared Hash N MAX_DEPTH) (L : List Hash) (m : ℕ) : Prop where
  tree : TreeInv W H tiers disk h L m
  pin : min MAX_DEPTH h.pinAboveLevel ≤ tiers
  seq : h.nextSeq < U64_SIZE
  size : L.length < U64_SIZE
  last : P m
  snap : ∀ snap, h.holder.snap = some snap →
    P snap.leafCount ∧ Fresh N tiers m snap.leafCount ∧ snap.lastSeq < U64_SIZE

/-- What a checkpoint over `m` leaves and the running checkpoint must find in a step. -/
def Shared.Finds (P : ℕ → Prop) (tiers m : ℕ) (h : Shared Hash N MAX_DEPTH) : Action Hash → Prop
  | .checkpointCapture _ => h.holder.snap = none → P h.inner.size ∧ Fresh N tiers m h.inner.size
  | .checkpointRemap _ => ∀ background snap, h.holder = .checkpoint background (.remap snap) →
      Fresh N (min MAX_DEPTH h.pinAboveLevel) snap.leafCount h.inner.size
  | _ => True

variable {P : ℕ → Prop} {W : Wire Hash} {H : Hasher Hash} {tiers : ℕ} {disk : Disk Hash}
variable {h : Shared Hash N MAX_DEPTH} {L : List Hash} {m : ℕ}

omit [Zero Hash] in
theorem Holder.metaCount_of_idle {holder : Holder Hash} (hh : holder.snap = none) (m : ℕ) :
    metaCount m holder = m := by
  cases holder with
  | checkpoint background stage =>
      cases stage with
      | remap snap => cases hh
      | _ => rfl
  | _ => rfl

theorem Holder.stage_of_idle {holder : Holder Hash} (hh : holder.snap = none)
    {files : ShardFiles Hash} {inner : TreeInner Hash N MAX_DEPTH} :
    Stage H tiers files inner L m holder := by
  cases holder with
  | checkpoint background stage => cases stage <;> trivial
  | _ => trivial

/-- A step that is not about a checkpoint's data. -/
theorem Steady.idle (hi : Steady P W H tiers disk h L m) {disk' : Disk Hash}
    {h' : Shared Hash N MAX_DEPTH} (hold : h.holder.snap = none) (hnew : h'.holder.snap = none)
    (hfiles : disk'.shards = disk.shards) (hmeta : disk'.metaFile = disk.metaFile)
    (hinner : h'.inner = h.inner) (hcounts : h'.checkpointedChunks = h.checkpointedChunks)
    (hpin : h'.pinAboveLevel = h.pinAboveLevel) (hseq : h'.nextSeq = h.nextSeq) :
    Steady P W H tiers disk' h' L m where
  tree := hi.tree.keep hfiles hmeta hinner hcounts
    (by rw [Holder.metaCount_of_idle hnew, Holder.metaCount_of_idle hold])
    (Holder.stage_of_idle hnew)
  pin := by rw [hpin]; exact hi.pin
  seq := by rw [hseq]; exact hi.seq
  size := hi.size
  last := hi.last
  snap := by rw [hnew]; rintro snap ⟨⟩

/-- A call. -/
theorem Steady.call (hH : H.Lawful) (hN : 2 ≤ N) (hD : 1 ≤ MAX_DEPTH)
    (hi : Steady P W H tiers disk h L m) (c : Call Hash) :
    Steady P W H tiers disk (h.insertCall W H disk.shards.fs c).2 (acceptedOn N MAX_DEPTH L [c])
      m := by
  obtain ⟨-, -, hholder, -, -, -, -, hpin⟩ := Shared.insertCall_frame W H disk.shards.fs c h
  refine ⟨hi.tree.call hH hN hD c, by rw [hpin]; exact hi.pin, ?_, ?_, hi.last,
    by rw [hholder]; exact hi.snap⟩
  · rcases insertCall_cases (W := W) hH hN hD hi.tree.refines c with
      ⟨-, e, he⟩ | ⟨-, root, inner, -, ⟨-, hseq, he⟩ | ⟨-, -, -, hseq, -⟩⟩
    · rw [he]
      exact hi.seq
    · rw [he]
      exact hseq
    · rw [hseq]
      exact hi.seq
  · show (if c.TurnedDown N MAX_DEPTH L.length then L else L ++ c.leaves).length < U64_SIZE
    split_ifs with hc
    · exact hi.size
    · simp only [Call.TurnedDown, not_or, not_le] at hc
      rw [List.length_append]
      exact hc.2.1

/-- The write of `flush_buffer_locked`. -/
theorem Steady.lockedWrite (hi : Steady P W H tiers disk h L m) (hold : h.holder.snap = none)
    {background : Bool} {stage : CheckpointStage Hash}
    (hstage : (Holder.checkpoint background stage).snap = none) (res : WriteResult)
    (wal : CrashFile UInt8) :
    Steady P W H tiers { disk with wal := (h.lockedWrite background stage res wal).1 }
      (h.lockedWrite background stage res wal).2 L m := by
  unfold Shared.lockedWrite
  split_ifs
  · exact hi.idle hold hstage rfl rfl rfl rfl rfl rfl
  · cases res with
    | writes => exact hi.idle hold hstage rfl rfl rfl rfl rfl rfl
    | fails written => exact hi.idle hold rfl rfl rfl rfl rfl rfl rfl

omit [Zero Hash] in
/-- The sync of `flush_buffer_locked`. -/
theorem Shared.lockedSync_eq {ok : Bool} {wal wal' : CrashFile UInt8}
    {h' : Shared Hash N MAX_DEPTH} (hs : h.lockedSync ok wal = some (wal', h')) :
    ∃ flushed buffer, h' = { h with flushed := flushed, buffer := buffer } := by
  unfold Shared.lockedSync at hs
  split_ifs at hs
  · cases hs
    exact ⟨h.flushed, h.buffer, rfl⟩
  · cases hs
    exact ⟨_, _, rfl⟩

/-- **A checkpoint goes on.** -/
theorem Steady.checkpointStep (hW : W.Lawful) (hN : 2 ≤ N) (hD : 1 ≤ MAX_DEPTH)
    (hi : Steady P W H tiers disk h L m) {background : Bool} {stage : CheckpointStage Hash}
    (hst : h.holder = .checkpoint background stage) {a : Action Hash}
    (hfinds : h.Finds P tiers m a) {w' : World Hash N MAX_DEPTH}
    (hstep : World.checkpointStep W ⟨disk, some h⟩ h background stage a = some w') :
    ∃ h' m', w'.handle = some h' ∧ h'.pinAboveLevel = h.pinAboveLevel ∧
      Steady P W H tiers w'.disk h' L m' := by
  have hsnaps := hi.snap
  rw [hst] at hsnaps
  cases stage with
  | flush =>
      cases a with
      | checkpointCapture ok =>
          have hidle : h.holder.snap = none := by rw [hst]; rfl
          simp only [World.checkpointStep] at hstep
          cases hsync : h.lockedSync ok disk.wal with
          | none =>
              rw [hsync] at hstep
              cases hstep
              exact ⟨_, m, rfl, rfl, hi.idle hidle rfl rfl rfl rfl rfl rfl rfl⟩
          | some r =>
              obtain ⟨wal, h₁⟩ := r
              obtain ⟨flushed, buffer, rfl⟩ := Shared.lockedSync_eq hsync
              rw [hsync] at hstep
              dsimp only at hstep
              split_ifs at hstep with hsize
              · cases hstep
                exact ⟨_, m, rfl, rfl, hi.idle hidle rfl rfl rfl rfl rfl rfl rfl⟩
              · have hne : L ≠ [] := by
                  rintro rfl
                  exact hsize hi.tree.refines.size
                obtain ⟨snap, hcap, hcount, hlast, htree⟩ := hi.tree.captured hN hD background
                  (Holder.metaCount_of_idle hidle m) hne wal flushed buffer
                rw [hcap] at hstep
                cases hstep
                refine ⟨_, m, rfl, rfl, htree, hi.pin, hi.seq, hi.size, hi.last, ?_⟩
                rintro snap' ⟨⟩
                rw [hcount, ← hi.tree.refines.size, hlast]
                obtain ⟨hP, hfresh⟩ := hfinds hidle
                exact ⟨hP, hfresh, lt_of_le_of_lt (Nat.sub_le _ _) hi.seq⟩
      | _ => cases hstep
  | header snap =>
      cases a with
      | checkpointHeader =>
          simp only [World.checkpointStep] at hstep
          obtain ⟨file, hfile, -⟩ := readHeader_writeHeader hW N MAX_DEPTH
          rw [hfile] at hstep
          cases hstep
          exact ⟨_, m, rfl, rfl, hi.tree.header hst file, hi.pin, hi.seq, hi.size, hi.last, hsnaps⟩
      | _ => cases hstep
  | write snap ws =>
      cases ws with
      | nil =>
          cases a with
          | checkpointSync =>
              cases hstep
              exact ⟨_, m, rfl, rfl, hi.tree.written hst, hi.pin, hi.seq, hi.size, hi.last, hsnaps⟩
          | _ => cases hstep
      | cons c ws =>
          cases a with
          | checkpointWrite =>
              cases hstep
              exact ⟨_, m, rfl, rfl, hi.tree.write hst, hi.pin, hi.seq, hi.size, hi.last, hsnaps⟩
          | _ => cases hstep
  | sync snap fl =>
      cases fl with
      | nil =>
          cases a with
          | checkpointSync =>
              have hsnap := hi.snap snap (by rw [hst]; rfl)
              obtain ⟨file, hfile, -, htree⟩ := hi.tree.switch hW hst hi.size hsnap.2.2
              simp only [World.checkpointStep] at hstep
              rw [hfile] at hstep
              cases hstep
              refine ⟨_, m, rfl, rfl, htree, hi.pin, hi.seq, hi.size, hi.last, ?_⟩
              rintro snap' ⟨⟩
              exact hsnap
          | _ => cases hstep
      | cons f fl =>
          cases a with
          | checkpointSync =>
              cases hstep
              exact ⟨_, m, rfl, rfl, hi.tree.sync hst, hi.pin, hi.seq, hi.size, hi.last, hsnaps⟩
          | _ => cases hstep
  | remap snap =>
      cases a with
      | checkpointRemap res =>
          have hsnap := hi.snap snap (by rw [hst]; rfl)
          obtain ⟨inner', chunks', hremap, htree, -⟩ :=
            hi.tree.remap hN hD hst hi.pin hsnap.2.1 (hfinds background snap hst)
          have hfree : Steady P W H tiers disk
              { h with inner := inner', checkpointedChunks := chunks', holder := .free } L
              snap.leafCount :=
            ⟨htree, hi.pin, hi.seq, hi.size, hsnap.1, by rintro snap' ⟨⟩⟩
          simp only [World.checkpointStep] at hstep
          rw [hremap] at hstep
          dsimp only at hstep
          rw [serializeHeader_eq hW] at hstep
          cases hstep
          cases res with
          | cuts => exact ⟨_, _, rfl, rfl, hfree.idle rfl rfl rfl rfl rfl rfl rfl rfl⟩
          | seekFails => exact ⟨_, _, rfl, rfl, hfree.idle rfl rfl rfl rfl rfl rfl rfl rfl⟩
          | headerFails n => exact ⟨_, _, rfl, rfl, hfree.idle rfl rfl rfl rfl rfl rfl rfl rfl⟩
          | setLenFails => exact ⟨_, _, rfl, rfl, hfree.idle rfl rfl rfl rfl rfl rfl rfl rfl⟩
      | _ => cases hstep
  | truncate =>
      cases a with
      | checkpointTruncated ok res =>
          have hidle : h.holder.snap = none := by rw [hst]; rfl
          simp only [World.checkpointStep] at hstep
          split_ifs at hstep
          · cases hstep
            exact ⟨_, m, rfl, rfl, hi.idle hidle rfl rfl rfl rfl rfl rfl rfl⟩
          · cases hstep
            refine ⟨_, m, rfl, ?_, hi.lockedWrite hidle rfl res disk.wal.sync⟩
            unfold Shared.lockedWrite
            split_ifs
            cases res <;> rfl
          · cases hstep
            exact ⟨_, m, rfl, rfl, hi.idle hidle rfl rfl rfl rfl rfl rfl rfl⟩
      | _ => cases hstep
  | tail =>
      cases a with
      | checkpointFinish ok =>
          have hidle : h.holder.snap = none := by rw [hst]; rfl
          simp only [World.checkpointStep] at hstep
          cases hsync : h.lockedSync ok disk.wal with
          | none =>
              rw [hsync] at hstep
              cases hstep
              exact ⟨_, m, rfl, rfl, hi.idle hidle rfl rfl rfl rfl rfl rfl rfl⟩
          | some r =>
              obtain ⟨wal, h₁⟩ := r
              obtain ⟨flushed, buffer, rfl⟩ := Shared.lockedSync_eq hsync
              rw [hsync] at hstep
              cases hstep
              exact ⟨_, m, rfl, rfl, hi.idle hidle rfl rfl rfl rfl rfl rfl rfl⟩
      | _ => cases hstep

/-- **One step** of an open tree. -/
theorem Steady.step (hW : W.Lawful) (hH : H.Lawful) (hN : 2 ≤ N)
    (hD : 1 ≤ MAX_DEPTH) (hi : Steady P W H tiers disk h L m) {a : Action Hash}
    {w' : World Hash N MAX_DEPTH} (hcrash : ∀ wal shards, a ≠ .crash wal shards)
    (hfinds : h.Finds P tiers m a)
    (hstep : World.handleStep W H ⟨disk, some h⟩ h a = some w') :
    ∃ h' m', w'.handle = some h' ∧ h'.pinAboveLevel = h.pinAboveLevel ∧
      Steady P W H tiers w'.disk h'
        (acceptedOn N MAX_DEPTH L (World.entered ⟨disk, some h⟩ a)) m' := by
  have hstay : ∀ {b : Action Hash},
      World.entered (⟨disk, some h⟩ : World Hash N MAX_DEPTH) b = [] → ∀ {w'},
      some (⟨disk, some h⟩ : World Hash N MAX_DEPTH) = some w' →
      ∃ h' m', w'.handle = some h' ∧ h'.pinAboveLevel = h.pinAboveLevel ∧
        Steady P W H tiers w'.disk h'
          (acceptedOn N MAX_DEPTH L (World.entered ⟨disk, some h⟩ b)) m' := by
    intro b hb w' hw
    cases hw
    rw [hb]
    exact ⟨h, m, rfl, rfl, hi⟩
  have hcheckpoint : a.Advances →
      World.entered (⟨disk, some h⟩ : World Hash N MAX_DEPTH) a = [] →
      ∃ h' m', w'.handle = some h' ∧ h'.pinAboveLevel = h.pinAboveLevel ∧
        Steady P W H tiers w'.disk h'
          (acceptedOn N MAX_DEPTH L (World.entered ⟨disk, some h⟩ a)) m' := by
    intro ha hnone
    obtain ⟨background, stage, hst, hgo⟩ := ha.step hstep
    rw [hnone]
    exact hi.checkpointStep hW hN hD hst hfinds hgo
  cases a with
  | call c admitted =>
      simp only [World.handleStep] at hstep
      by_cases hlock : h.holder.locksState = true
      · rw [if_pos hlock] at hstep
        cases hstep
      · rw [if_neg hlock] at hstep
        by_cases hadm : h.admits admitted = true
        · rw [if_pos hadm] at hstep
          cases hstep
          have hent : World.entered (⟨disk, some h⟩ : World Hash N MAX_DEPTH)
              (.call c admitted) = [c] := by
            simp only [World.entered, if_neg hlock, if_pos hadm]
          rw [hent]
          exact ⟨_, m, rfl, (Shared.insertCall_frame W H disk.shards.fs c h).2.2.2.2.2.2.2,
            hi.call hH hN hD c⟩
        · rw [if_neg hadm] at hstep
          exact hstay (by simp only [World.entered, if_neg hlock, if_neg hadm]) hstep
  | flush admitted =>
      simp only [World.handleStep] at hstep
      split at hstep
      · have hfree : h.holder.snap = none := by rw [‹h.holder = _›]; rfl
        split_ifs at hstep
        · cases hstep
          unfold Shared.flushTake
          split_ifs
          · exact ⟨h, m, rfl, rfl, hi⟩
          · exact ⟨_, m, rfl, rfl, hi.idle hfree rfl rfl rfl rfl rfl rfl rfl⟩
        · exact hstay rfl hstep
      · cases hstep
  | flushWrite res =>
      simp only [World.handleStep] at hstep
      split at hstep
      · have hflush : h.holder.snap = none := by rw [‹h.holder = _›]; rfl
        cases hstep
        cases res with
        | positionFails => exact ⟨_, m, rfl, rfl, hi.idle hflush rfl rfl rfl rfl rfl rfl rfl⟩
        | writes => exact ⟨_, m, rfl, rfl, hi.idle hflush rfl rfl rfl rfl rfl rfl rfl⟩
        | fails n seekOk setLenOk =>
            exact ⟨_, m, rfl, rfl, hi.idle hflush rfl rfl rfl rfl rfl rfl rfl⟩
      · cases hstep
  | flushSync ok =>
      simp only [World.handleStep] at hstep
      split at hstep
      · have hflush : h.holder.snap = none := by rw [‹h.holder = _›]; rfl
        cases hstep
        cases ok with
        | true => exact ⟨_, m, rfl, rfl, hi.idle hflush rfl rfl rfl rfl rfl rfl rfl⟩
        | false => exact ⟨_, m, rfl, rfl, hi.idle hflush rfl rfl rfl rfl rfl rfl rfl⟩
      · cases hstep
  | checkpoint background admitted res =>
      simp only [World.handleStep] at hstep
      split at hstep
      · have hfree : h.holder.snap = none := by rw [‹h.holder = _›]; rfl
        split_ifs at hstep
        · cases hstep
          refine ⟨_, m, rfl, ?_, hi.lockedWrite hfree rfl res disk.wal⟩
          unfold Shared.lockedWrite
          split_ifs
          · rfl
          · cases res <;> rfl
        · exact hstay rfl hstep
      · cases hstep
  | close =>
      cases hstep
      exact ⟨_, m, rfl, rfl, hi.tree.keep rfl rfl rfl rfl rfl hi.tree.stage, hi.pin, hi.seq,
        hi.size, hi.last, hi.snap⟩
  | crash wal shards => exact absurd rfl (hcrash wal shards)
  | reopen _ _ _ => cases hstep
  | checkpointCapture ok => exact hcheckpoint (.capture ok) rfl
  | checkpointHeader => exact hcheckpoint .header rfl
  | checkpointWrite => exact hcheckpoint .write rfl
  | checkpointSync => exact hcheckpoint .sync rfl
  | checkpointRemap res => exact hcheckpoint (.remap res) rfl
  | checkpointTruncated ok res => exact hcheckpoint (.truncated ok res) rfl
  | checkpointFinish ok => exact hcheckpoint (.finish ok) rfl

/-- Where all checkpoints are over settled leaf counts they are fresh. -/
theorem Steady.finds (hi : Steady (Settled N tiers) W H tiers disk h L m) {a : Action Hash}
    (hsettled : ∀ ok, a = .checkpointCapture ok → Settled N tiers h.inner.size) :
    h.Finds (Settled N tiers) tiers m a := by
  cases a with
  | checkpointCapture ok => exact fun _ => ⟨hsettled ok rfl, .inl hi.last⟩
  | checkpointRemap res =>
      intro background snap hst
      have hsnap := (hi.snap snap (by rw [hst]; rfl)).1
      exact .inl fun k hk => hsnap k (hk.trans_le hi.pin)
  | _ => trivial

end Steady

/-! ### Every run -/

section Run

variable [Zero Hash] [DecidableEq Hash] {W : Wire Hash} {H : Hasher Hash}

/-- `open` on an empty directory. -/
theorem openTree_new (hW : W.Lawful) (H : Hasher Hash) (pinAboveLevel : ℕ) (verify : Bool)
    (par : ℕ → ℕ → Bool) :
    openTree W H pinAboveLevel verify par (World.empty : World Hash N MAX_DEPTH).disk =
      .ok (opened W N MAX_DEPTH pinAboveLevel, { (World.empty : World Hash N MAX_DEPTH).disk with
        wal := ((CrashFile.synced []).write 0 (headerBytes W N MAX_DEPTH)).sync }) := by
  unfold openTree
  rw [if_neg (by simp [World.empty]), recover, if_pos (by simp [World.empty]),
    serializeHeader_eq hW]
  rfl

omit [DecidableEq Hash] in
theorem opened_steady {P : ℕ → Prop} (hzero : P 0) (hN : 2 ≤ N) (pinAboveLevel : ℕ)
    {disk : Disk Hash} (hmeta : disk.metaFile = none) {tiers : ℕ}
    (hpin : min MAX_DEPTH pinAboveLevel ≤ tiers) :
    Steady P W H tiers disk (opened W N MAX_DEPTH pinAboveLevel) [] 0 where
  tree := {
    refines := refines_new hN
    home := by
      intro k i c hc
      simp [opened, TreeInner.new, ChunkedLevel.new, ChunkedLevel.chunks] at hc
    base := le_rfl
    counts := fun k _ => (wholeChunks_eq_zero hN (by simp)).symm
    counted := by
      intro k _ _ p hp
      rw [wholeChunks_eq_zero hN (by simp), Nat.zero_mul] at hp
      omega
    onDisk := by
      unfold lastCheckpoint
      rw [hmeta]
      rfl
    stage := trivial }
  pin := hpin
  seq := show 0 < U64_SIZE by decide
  size := show 0 < U64_SIZE by decide
  last := hzero
  snap := by rintro snap ⟨⟩

/-- What the runs keep: nothing is open on an empty directory, or the open tree is steady. -/
theorem Session.steady (hW : W.Lawful) (hH : H.Lawful) (hN : 2 ≤ N) (hD : 1 ≤ MAX_DEPTH)
    {Q : World Hash N MAX_DEPTH → Action Hash → Prop} {P : ℕ → ℕ → Prop}
    (hcrash : ∀ w wal shards, ¬ Q w (.crash wal shards)) (hzero : ∀ tiers, P tiers 0)
    (hfinds : ∀ {disk h L m a}, Steady (P h.pinAboveLevel) W H h.pinAboveLevel disk h L m →
      Q ⟨disk, some h⟩ a → h.Finds (P h.pinAboveLevel) h.pinAboveLevel m a)
    {cs : List (Call Hash)} {w : World Hash N MAX_DEPTH} (hs : Session W H Q cs w) :
    w = World.empty ∧ cs = [] ∨ ∃ h m, w.handle = some h ∧
      Steady (P h.pinAboveLevel) W H h.pinAboveLevel w.disk h (accepted N MAX_DEPTH cs) m := by
  induction hs with
  | start => exact .inl ⟨rfl, rfl⟩
  | @step cs w w' a _ ha hw ih =>
      right
      rcases ih with ⟨rfl, rfl⟩ | ⟨h, m, hh, hi⟩
      · cases a with
        | reopen pinAboveLevel verify par =>
            unfold World.step at hw
            rw [show (World.empty : World Hash N MAX_DEPTH).handle = none from rfl] at hw
            dsimp only at hw
            rw [openTree_new hW H pinAboveLevel verify par] at hw
            cases hw
            exact ⟨_, 0, rfl, opened_steady (hzero _) hN pinAboveLevel rfl (min_le_right _ _)⟩
        | _ => cases hw
      · obtain ⟨disk, handle⟩ := w
        cases hh
        obtain ⟨h', m', hh', hpin, hi'⟩ := hi.step hW hH hN hD
          (by rintro wal shards rfl; exact hcrash _ wal shards ha) (hfinds hi ha) hw
        refine ⟨h', m', hh', ?_⟩
        rw [hpin, accepted, List.foldl_append]
        exact hi'

/-- Where every checkpoint finds a settled leaf count. -/
theorem Session.steady_settled (hW : W.Lawful) (hH : H.Lawful) (hN : 2 ≤ N) (hD : 1 ≤ MAX_DEPTH)
    {cs : List (Call Hash)} {w : World Hash N MAX_DEPTH}
    (hs : Session W H (fun w a => w.Settles a) cs w) :
    w = World.empty ∧ cs = [] ∨ ∃ h m, w.handle = some h ∧
      Steady (Settled N h.pinAboveLevel) W H h.pinAboveLevel w.disk h (accepted N MAX_DEPTH cs)
        m := by
  refine hs.steady hW hH hN hD (P := Settled N) (fun _ _ _ hno => hno)
    (settled_of_lt hN (by decide)) ?_
  intro disk h L m a hi ha
  exact hi.finds (by rintro ok rfl; exact ha h rfl)

/-- **Checkpoints do not change the tree.**  Calls, flushes and checkpoints run in any order,
interleaved at every step of a checkpoint, and the operations on the log end in any way.  As
long as each checkpoint finds a leaf count that is settled on the levels it maps, the tree is the
one that the same calls build without checkpoints, node by node. -/
theorem Session.tree_without_checkpoints (hW : W.Lawful) (hH : H.Lawful) (hN : 2 ≤ N) (hD : 1 ≤ MAX_DEPTH)
    {cs : List (Call Hash)} {w : World Hash N MAX_DEPTH}
    (hs : Session W H (fun w a => w.Settles a) cs w) {h : Shared Hash N MAX_DEPTH}
    (hh : w.handle = some h) :
    SameTree w.disk.shards.fs h.inner (after w.disk.shards.fs H cs) := by
  rcases hs.steady_settled hW hH hN hD with ⟨rfl, -⟩ | ⟨h', m, hh', hi⟩
  · cases hh
  · rw [hh, Option.some.injEq] at hh'
    subst hh'
    exact hi.tree.refines.sameTree (after_refines hH hN hD cs)

end Run

/-! ### A run of two checkpoints -/

instance (N tiers n : ℕ) : Decidable (Settled N tiers n) :=
  inferInstanceAs (Decidable (∀ k < tiers, wholeChunks N n k * CHUNK_SIZE * N ^ k ≤ n))

/-- A step that the runs allow. -/
def World.settlesNow (w : World Hash N MAX_DEPTH) : Action Hash → Bool
  | .checkpointCapture _ => w.handle.all fun h => decide (Settled N h.pinAboveLevel h.inner.size)
  | .crash _ _ => false
  | _ => true

theorem World.settles_of_now (w : World Hash N MAX_DEPTH) (a : Action Hash)
    (h : w.settlesNow a = true) : w.Settles a := by
  cases a with
  | checkpointCapture ok =>
      intro s hs
      simpa [settlesNow, hs] using h
  | crash wal shards => cases h
  | _ => trivial

/-- A tree fills a chunk of leaves, and a leaf comes in while a checkpoint is writing, which then
maps the chunk from its file. -/
def firstCheckpoint : List (Action Hash32) :=
  [.reopen 64 true (fun _ _ => false),
    .call (.insertMany (fun _ _ => false) ((List.range CHUNK_SIZE).map testLeaf)) false,
    .checkpoint false false .writes, .checkpointCapture true, .checkpointHeader] ++
  List.replicate 8 .checkpointWrite ++ [.call (.insert (testLeaf CHUNK_SIZE)) false] ++
  List.replicate 10 .checkpointSync ++
  [.checkpointRemap .cuts, .checkpointTruncated true .writes, .checkpointFinish true]

/-- A second checkpoint writes the levels behind it. -/
def secondCheckpoint : List (Action Hash32) :=
  [.checkpoint true false .writes, .checkpointCapture true, .checkpointHeader] ++
  List.replicate 9 .checkpointWrite ++ List.replicate 11 .checkpointSync ++
  [.checkpointRemap .cuts]

set_option maxRecDepth 10000 in
theorem twoCheckpoints_run : (World.session wincode xorHasher World.settlesNow firstCheckpoint :
    Option (List (Call Hash32) × World Hash32 2 10)).any (fun s =>
      (s.2.handle.any fun h => decide (h.checkpointedChunks.getD 0 0 = 1 ∧
        h.snapshot.size = CHUNK_SIZE + 1)) &&
      (secondCheckpoint.foldlM (World.sessionStep wincode xorHasher World.settlesNow) s).any fun s' =>
        decide (s'.1.map (fun c => c.leaves.length) = [CHUNK_SIZE, 1]) &&
          s'.2.handle.any fun h => decide (h.checkpointedChunks.getD 0 0 = 1 ∧
            h.inner.size = CHUNK_SIZE + 1)) = true := by
  decide +kernel

theorem twoCheckpoints_sameTree : ∃ (cs : List (Call Hash32)) (w : World Hash32 2 10)
    (h : Shared Hash32 2 10), cs.map (fun c => c.leaves.length) = [CHUNK_SIZE, 1] ∧
      w.handle = some h ∧ h.checkpointedChunks.getD 0 0 = 1 ∧ h.inner.size = CHUNK_SIZE + 1 ∧
      SameTree w.disk.shards.fs h.inner (after w.disk.shards.fs xorHasher cs) := by
  obtain ⟨s, hfirst, hend⟩ := (Option.any_eq_true _ _).mp twoCheckpoints_run
  obtain ⟨⟨cs, w⟩, hsecond, hend⟩ := (Option.any_eq_true _ _).mp (Bool.and_eq_true_iff.mp hend).2
  obtain ⟨hcs, hsize⟩ := Bool.and_eq_true_iff.mp hend
  obtain ⟨h, hh, hsize⟩ := (Option.any_eq_true _ _).mp hsize
  obtain ⟨hmapped, hsize⟩ := of_decide_eq_true hsize
  have hrun : World.session wincode xorHasher World.settlesNow
      (firstCheckpoint ++ secondCheckpoint) = some (cs, w) := by
    rw [World.session_append, hfirst]
    exact hsecond
  have hs := Session.of_checked World.settles_of_now hrun
  exact ⟨cs, w, h, of_decide_eq_true hcs, hh, hmapped, hsize,
    hs.tree_without_checkpoints wincode_lawful (Hasher.scalar_lawful _) (by decide) (by decide) hh⟩

end Works.Rotortree
