import Works.Rotortree.Storage.Threads

/-! # Runs of the threads

In every run: no thread and no call sleeps through what it waits for (`Run.all_woken`),
`wait_for_checkpoint` tells whether a checkpoint came to its end since (`Run.wait_tells`), and
`close` comes to its end (`Run.close_ends`). -/

namespace Works.Rotortree.Threads

open Works.Lib

variable {ι : Type} [DecidableEq ι]
variable {background interval : Bool} {nextSeq : ℕ} {t t' : Threads ι} {event : ThreadEvent ι}
variable {events : List (ThreadEvent ι)}

/-! ### Requests -/

/-- A request that the checkpoint thread has not taken still stands. -/
theorem Run.stands (hr : Run background interval nextSeq events t)
    {later earlier : List (ThreadEvent ι)} (he : events = later ++ .requested :: earlier)
    (hno : .workerStarts ∉ later) : t.requested = true := by
  induction hr generalizing later with
  | start => simp at he
  | @step events event t t' run step ih =>
      cases later with
      | nil =>
          obtain ⟨rfl, rfl⟩ := List.cons.inj he
          generalize hev : (ThreadEvent.requested : ThreadEvent ι) = event at step
          cases step with
          | request => rfl
          | look at_ =>
              rcases t.workerLook_cases with ⟨-, -, hlook⟩ | ⟨-, hlook⟩ | ⟨-, -, hlook⟩ <;>
                (rw [hlook] at hev; cases hev)
          | _ => cases hev
      | cons e later =>
          obtain ⟨rfl, rfl⟩ := List.cons.inj he
          have hreq := ih rfl (fun h => hno (List.mem_cons_of_mem _ h))
          cases step with
          | request => rfl
          | flush seq =>
              unfold markFlushed
              split_ifs
              · exact hreq
              · exact hreq
          | look at_ =>
              rcases t.workerLook_cases with ⟨-, -, hlook⟩ | ⟨-, hlook⟩ | ⟨-, -, hlook⟩
              · rw [hlook]
                exact hreq
              · rw [hlook]
                exact hreq
              · exact absurd (by rw [hlook]; simp) hno
          | wakeWorker at_ running => rfl
          | _ => exact hreq

/-- **Nobody sleeps through what he waits for.**  A checkpoint that was asked for starts, or the
request still stands; then the checkpoint thread does not sleep unless `close` is about to wake
it, and is over only when the tree is closed or reports an error.  No call sleeps in
`wait_for_checkpoint` once a checkpoint has come to its end, and none in
`DurabilityToken::wait` once its entry is durable. -/
theorem Run.all_woken (hr : Run background interval nextSeq events t) :
    (∀ later earlier, events = later ++ .requested :: earlier →
      .workerStarts ∈ later ∨ t.requested = true ∧
        (t.worker = .waiting .asleep → t.closer = .swapped)) ∧
    (t.worker = .ended → t.closed = true ∨ t.bgError = true) ∧
    (∀ i initial, t.waiters i = .forCheckpoint initial .asleep → t.completed ≤ initial) ∧
    ∀ i seq, t.waiters i = .forFlush seq .asleep → covers t.flushed seq = false := by
  have hi := hr.inv
  refine ⟨?_, hi.ended, ?_, ?_⟩
  · intro later earlier he
    by_cases hstart : .workerStarts ∈ later
    · exact .inl hstart
    · right
      have hreq := hr.stands he hstart
      exact ⟨hreq, fun hw => hi.worker _ hw rfl (.inl hreq)⟩
  · intro i initial hw
    by_contra hlt
    exact hi.checkpoint i initial _ hw rfl (not_le.mp hlt)
  · intro i seq hw
    by_contra hcovers
    exact hi.flush i seq _ hw rfl (by simpa using hcovers)

/-! ### `wait_for_checkpoint` -/

theorem Step.completed (hstep : Step t event t') :
    t'.completed = t.completed + (if event.isCompleted then 1 else 0) := by
  cases hstep with
  | flush seq =>
      unfold markFlushed
      by_cases hcovers : covers t.flushed seq = true
      · rw [if_pos hcovers]
        rfl
      · rw [if_neg hcovers]
        rfl
  | look at_ =>
      rcases t.workerLook_cases with ⟨-, -, hlook⟩ | ⟨-, hlook⟩ | ⟨-, -, hlook⟩ <;>
        (rw [hlook]; rfl)
  | _ => rfl

/-- A call in `wait_for_checkpoint` was there before, or has just come. -/
theorem Step.waiter (hstep : Step t event t') {i : ι} {initial : ℕ} {w : Sleeper}
    (hw : t'.waiters i = .forCheckpoint initial w) :
    (∃ w, t.waiters i = .forCheckpoint initial w) ∧ event ≠ .waits i ∨
      event = .waits i ∧ initial = t.completed := by
  have hnotify : (t.waiters i).notifyCheckpoint = .forCheckpoint initial w →
      ∃ w, t.waiters i = .forCheckpoint initial w := by
    intro h
    cases hi : t.waiters i with
    | forCheckpoint n w' =>
        rw [hi] at h
        cases h
        exact ⟨w', rfl⟩
    | _ =>
        rw [hi] at h
        cases h
  have hupdate : ∀ {j : ι} {a : WaiterAt}, (i = j → a = .forCheckpoint initial w →
      ∃ w, t.waiters i = .forCheckpoint initial w) →
      Function.update t.waiters j a i = .forCheckpoint initial w →
      ∃ w, t.waiters i = .forCheckpoint initial w := by
    intro j a hself h
    by_cases hij : i = j
    · rw [hij, Function.update_self] at h
      exact hself hij h
    · rw [Function.update_of_ne hij] at h
      exact ⟨w, h⟩
  have hown : ∀ {a : WaiterAt}, Function.update t.waiters i a i = .forCheckpoint initial w →
      a = .forCheckpoint initial w := by
    intro a h
    rwa [Function.update_self] at h
  cases hstep with
  | request => exact .inl ⟨hnotify hw, nofun⟩
  | complete => exact .inl ⟨hnotify hw, nofun⟩
  | wakeWorker at_ running => exact .inl ⟨hnotify hw, nofun⟩
  | flush seq =>
      unfold markFlushed at hw
      split_ifs at hw
      · exact .inl ⟨⟨w, hw⟩, nofun⟩
      · exact .inl ⟨⟨w, (t.waiters i).notifyFlush_forCheckpoint hw⟩, nofun⟩
  | look at_ =>
      rcases t.workerLook_cases with ⟨-, -, hlook⟩ | ⟨-, hlook⟩ | ⟨-, -, hlook⟩ <;>
        (rw [hlook] at hw ⊢; exact .inl ⟨⟨w, hw⟩, nofun⟩)
  | @waitCheckpoint j at_ =>
      by_cases hij : i = j
      · subst hij
        cases hown hw
        exact .inr ⟨rfl, rfl⟩
      · refine .inl ⟨hupdate (fun h => absurd h hij) hw, ?_⟩
        rintro ⟨⟩
        exact hij rfl
  | waitAgain at_ notYet =>
      refine .inl ⟨hupdate ?_ hw, nofun⟩
      rintro rfl ⟨⟩
      exact ⟨_, at_⟩
  | waited at_ ok tells => exact .inl ⟨hupdate (by rintro - ⟨⟩) hw, nofun⟩
  | @waitFlush j at_ seq notYet =>
      refine .inl ⟨hupdate (by rintro - ⟨⟩) hw, ?_⟩
      rintro ⟨⟩
      cases hown hw
  | flushAgain at_ notYet => exact .inl ⟨hupdate (by rintro - ⟨⟩) hw, nofun⟩
  | durable at_ covered => exact .inl ⟨hupdate (by rintro - ⟨⟩) hw, nofun⟩
  | _ => exact .inl ⟨⟨w, hw⟩, nofun⟩

/-- What a call in `wait_for_checkpoint` has seen of the run. -/
theorem Run.waiting (hr : Run background interval nextSeq events t) {i : ι} {initial : ℕ}
    {w : Sleeper} (hw : t.waiters i = .forCheckpoint initial w) :
    ∃ since before, events = since ++ .waits i :: before ∧ .waits i ∉ since ∧
      t.completed = initial + since.countP (·.isCompleted) := by
  induction hr generalizing w with
  | start => cases hw
  | @step events event t t' run step ih =>
      rcases step.waiter hw with ⟨⟨w₀, hold⟩, hne⟩ | ⟨rfl, rfl⟩
      · obtain ⟨since, before, rfl, hno, hcount⟩ := ih hold
        refine ⟨event :: since, before, rfl, ?_, ?_⟩
        · rw [List.mem_cons, not_or]
          exact ⟨hne.symm, hno⟩
        · rw [step.completed, hcount, List.countP_cons]
          omega
      · refine ⟨[], events, rfl, List.not_mem_nil, ?_⟩
        rw [step.completed]
        rfl

theorem Run.split {later earlier : List (ThreadEvent ι)}
    (hr : Run background interval nextSeq (later ++ event :: earlier) t) :
    ∃ t₁ t₂, Run background interval nextSeq earlier t₁ ∧ Step t₁ event t₂ := by
  generalize he : later ++ event :: earlier = events at hr
  induction hr generalizing later with
  | start => simp at he
  | step run step ih =>
      cases later with
      | nil =>
          obtain ⟨rfl, rfl⟩ := List.cons.inj he
          exact ⟨_, _, run, step⟩
      | cons e later => exact ih (List.cons.inj he).2

omit [DecidableEq ι] in
theorem countP_isCompleted_pos {l : List (ThreadEvent ι)} :
    0 < l.countP (·.isCompleted) ↔ .completed ∈ l := by
  rw [List.countP_pos_iff]
  constructor
  · rintro ⟨e, he, hc⟩
    cases e <;> first | exact he | cases hc
  · exact fun h => ⟨_, h, rfl⟩

/-- **`wait_for_checkpoint` tells whether a checkpoint came to its end** since it was called. -/
theorem Run.wait_tells (hr : Run background interval nextSeq events t) {i : ι} {ok : Bool}
    {later earlier : List (ThreadEvent ι)} (he : events = later ++ .waited i ok :: earlier) :
    ∃ since before, earlier = since ++ .waits i :: before ∧ .waits i ∉ since ∧
      (ok = true ↔ .completed ∈ since) := by
  subst he
  obtain ⟨t₁, t₂, run, step⟩ := hr.split
  generalize hev : ThreadEvent.waited i ok = event at step
  cases step with
  | waited at_ ok tells =>
      cases hev
      obtain ⟨since, before, rfl, hno, hcount⟩ := run.waiting at_
      refine ⟨since, before, rfl, hno, ?_⟩
      rw [tells, decide_eq_true_eq, hcount, ← countP_isCompleted_pos]
      omega
  | look at_ =>
      rcases t₁.workerLook_cases with ⟨-, -, hlook⟩ | ⟨-, hlook⟩ | ⟨-, -, hlook⟩ <;>
        (rw [hlook] at hev; cases hev)
  | _ => cases hev

/-! ### `close` -/

/-- The steps the checkpoint thread still takes once the tree is closed. -/
def workerRank : WorkerAt → ℕ
  | .checkpointing => 2
  | .looking | .waiting _ => 1
  | .absent | .ended => 0

/-- The steps the flush thread still takes once it is shut down. -/
def flusherRank : FlusherAt → ℕ
  | .flushing => 3
  | .entering => 2
  | .waiting _ => 1
  | .absent | .ended => 0

/-- The steps `close_inner` still takes after its first. -/
def closerRank : CloserAt → ℕ
  | .notCalled | .swapped => 5
  | .joiningWorker => 4
  | .workerJoined => 3
  | .joiningFlusher => 2
  | .flusherJoined => 1
  | .closed => 0

theorem workerRank_notify (a : WorkerAt) : workerRank a.notify = workerRank a := by cases a <;> rfl

theorem flusherRank_notify (a : FlusherAt) : flusherRank a.notify = flusherRank a := by
  cases a <;> rfl

omit [DecidableEq ι] in
theorem rank_le (t : Threads ι) :
    workerRank t.worker ≤ 2 ∧ flusherRank t.flusher ≤ 3 ∧ closerRank t.closer ≤ 5 := by
  refine ⟨?_, ?_, ?_⟩
  · cases t.worker <;> simp [workerRank]
  · cases t.flusher <;> simp [flusherRank]
  · cases t.closer <;> simp [closerRank]

/-- One step after `close` has begun: the checkpoint thread does not start another checkpoint, and
it and `close_inner` come nearer to their ends. -/
theorem Step.closing (hstep : Step t event t') (hi : Inv t) (hclosed : t.closed = true) :
    event ≠ .workerStarts ∧
      workerRank t'.worker + (if event.isWorker then 1 else 0) ≤ workerRank t.worker ∧
      closerRank t'.closer + (if event.isCloser then 1 else 0) ≤ closerRank t.closer := by
  cases hstep with
  | request =>
      refine ⟨by simp, ?_, le_rfl⟩
      rw [requestCheckpoint, workerRank_notify]
      exact le_rfl
  | complete =>
      refine ⟨by simp, ?_, le_rfl⟩
      rw [Threads.complete, workerRank_notify]
      exact le_rfl
  | flush seq =>
      unfold markFlushed
      by_cases hcovers : covers t.flushed seq = true
      · rw [if_pos hcovers]
        exact ⟨by simp, le_rfl, le_rfl⟩
      · rw [if_neg hcovers]
        exact ⟨by simp, le_rfl, le_rfl⟩
  | look at_ =>
      rcases t.workerLook_cases with ⟨-, hopen, -⟩ | ⟨-, hlook⟩ | ⟨-, hopen, -⟩
      · rw [hclosed] at hopen
        cases hopen
      · rw [hlook]
        refine ⟨by simp, ?_, le_rfl⟩
        cases hw : t.worker <;> simp [hw, WorkerAt.atCoordinator] at at_ <;>
          simp [workerRank, ThreadEvent.isWorker]
      · rw [hclosed] at hopen
        cases hopen
  | done at_ failed =>
      refine ⟨by simp, ?_, le_rfl⟩
      rw [at_]
      cases failed <;> simp [workerRank, ThreadEvent.isWorker]
  | swap at_ => exact absurd at_ (hi.closed.mp hclosed)
  | wakeWorker at_ running =>
      refine ⟨by simp, ?_, ?_⟩
      · rw [requestCheckpoint, workerRank_notify]
        exact le_rfl
      · rw [at_]
        exact le_rfl
  | noWorker at_ absent =>
      exact ⟨by simp, le_rfl, by rw [at_]; simp [closerRank, ThreadEvent.isCloser]⟩
  | joinWorker at_ ended => exact ⟨by simp, le_rfl, by rw [at_]; exact le_rfl⟩
  | stopFlusher at_ running => exact ⟨by simp, le_rfl, by rw [at_]; exact le_rfl⟩
  | noFlusher at_ absent =>
      exact ⟨by simp, le_rfl, by rw [at_]; simp [closerRank, ThreadEvent.isCloser]⟩
  | joinFlusher at_ ended => exact ⟨by simp, le_rfl, by rw [at_]; exact le_rfl⟩
  | finish at_ => exact ⟨by simp, le_rfl, by rw [at_]; exact le_rfl⟩
  | _ => exact ⟨by simp, le_rfl, le_rfl⟩

/-- One step after the flush thread was told to shut down. -/
theorem Step.shutting (hstep : Step t event t') (hshut : t.shutdown = true) :
    event ≠ .flusherStarts ∧
      flusherRank t'.flusher + (if event.isFlusher then 1 else 0) ≤ flusherRank t.flusher := by
  cases hstep with
  | flush seq =>
      unfold markFlushed
      by_cases hcovers : covers t.flushed seq = true
      · rw [if_pos hcovers]
        exact ⟨nofun, le_rfl⟩
      · rw [if_neg hcovers]
        exact ⟨nofun, le_rfl⟩
  | look at_ =>
      rcases t.workerLook_cases with ⟨-, -, hlook⟩ | ⟨-, hlook⟩ | ⟨-, -, hlook⟩ <;>
        (rw [hlook]; exact ⟨nofun, le_rfl⟩)
  | enter at_ => exact ⟨nofun, by rw [at_]; exact le_rfl⟩
  | leave at_ stop => exact ⟨nofun, by rw [at_]; exact le_rfl⟩
  | interval at_ go =>
      rw [hshut] at go
      cases go
  | again at_ => exact ⟨nofun, by rw [at_]; exact le_rfl⟩
  | stopFlusher at_ running => exact ⟨nofun, (flusherRank_notify _).le⟩
  | _ => exact ⟨nofun, le_rfl⟩

/-- What stays as it is: the flags that `close` sets, and threads that are not there. -/
theorem Step.stays (hstep : Step t event t') :
    (t.closed = true → t'.closed = true) ∧ (t.shutdown = true → t'.shutdown = true) ∧
      (t.worker ≠ .absent → t'.worker ≠ .absent) ∧
      (t.flusher ≠ .absent → t'.flusher ≠ .absent) := by
  have hworker : t.worker ≠ .absent → t.worker.notify ≠ .absent := by
    cases t.worker <;> simp [WorkerAt.notify]
  have hflusher : t.flusher ≠ .absent → t.flusher.notify ≠ .absent := by
    cases t.flusher <;> simp [FlusherAt.notify]
  cases hstep with
  | request => exact ⟨id, id, hworker, id⟩
  | complete => exact ⟨id, id, hworker, id⟩
  | wakeWorker at_ running => exact ⟨id, id, hworker, id⟩
  | stopFlusher at_ running => exact ⟨id, fun _ => rfl, id, hflusher⟩
  | swap at_ => exact ⟨fun _ => rfl, id, id, id⟩
  | flush seq =>
      unfold markFlushed
      split_ifs
      · exact ⟨id, id, id, id⟩
      · exact ⟨id, id, id, id⟩
  | look at_ =>
      rcases t.workerLook_cases with ⟨-, -, hlook⟩ | ⟨-, hlook⟩ | ⟨-, -, hlook⟩ <;>
        (rw [hlook]; exact ⟨id, id, nofun, id⟩)
  | done at_ failed => exact ⟨id, id, by cases failed <;> simp, id⟩
  | enter at_ => exact ⟨id, id, id, nofun⟩
  | leave at_ stop => exact ⟨id, id, id, nofun⟩
  | interval at_ go => exact ⟨id, id, id, nofun⟩
  | again at_ => exact ⟨id, id, id, nofun⟩
  | _ => exact ⟨id, id, id, id⟩

theorem Run.closing (hr : Run background interval nextSeq events t)
    {later earlier : List (ThreadEvent ι)} (he : events = later ++ .closing :: earlier) :
    t.closed = true ∧ .workerStarts ∉ later ∧
      workerRank t.worker + later.countP (·.isWorker) ≤ 2 ∧
      closerRank t.closer + later.countP (·.isCloser) ≤ 5 := by
  induction hr generalizing later with
  | start => simp at he
  | @step events event t t' run step ih =>
      cases later with
      | nil =>
          obtain ⟨rfl, rfl⟩ := List.cons.inj he
          refine ⟨?_, List.not_mem_nil, (rank_le t').1, (rank_le t').2.2⟩
          generalize hev : (ThreadEvent.closing : ThreadEvent ι) = event at step
          cases step with
          | swap at_ => rfl
          | look at_ =>
              rcases t.workerLook_cases with ⟨-, -, hlook⟩ | ⟨-, hlook⟩ | ⟨-, -, hlook⟩ <;>
                (rw [hlook] at hev; cases hev)
          | _ => cases hev
      | cons e later =>
          obtain ⟨rfl, rfl⟩ := List.cons.inj he
          obtain ⟨hclosed, hno, hworker, hcloser⟩ := ih rfl
          obtain ⟨hne, hw, hc⟩ := step.closing run.inv hclosed
          refine ⟨step.stays.1 hclosed, ?_, ?_, ?_⟩
          · rw [List.mem_cons, not_or]
            exact ⟨hne.symm, hno⟩
          · rw [List.countP_cons]
            omega
          · rw [List.countP_cons]
            omega

theorem Run.shutting (hr : Run background interval nextSeq events t)
    {later earlier : List (ThreadEvent ι)} (he : events = later ++ .shutdown :: earlier) :
    t.shutdown = true ∧ .flusherStarts ∉ later ∧
      flusherRank t.flusher + later.countP (·.isFlusher) ≤ 3 := by
  induction hr generalizing later with
  | start => simp at he
  | @step events event t t' run step ih =>
      cases later with
      | nil =>
          obtain ⟨rfl, rfl⟩ := List.cons.inj he
          refine ⟨?_, List.not_mem_nil, (rank_le t').2.1⟩
          generalize hev : (ThreadEvent.shutdown : ThreadEvent ι) = event at step
          cases step with
          | stopFlusher at_ running => rfl
          | look at_ =>
              rcases t.workerLook_cases with ⟨-, -, hlook⟩ | ⟨-, hlook⟩ | ⟨-, -, hlook⟩ <;>
                (rw [hlook] at hev; cases hev)
          | _ => cases hev
      | cons e later =>
          obtain ⟨rfl, rfl⟩ := List.cons.inj he
          obtain ⟨hshut, hno, hflusher⟩ := ih rfl
          obtain ⟨hne, hf⟩ := step.shutting hshut
          refine ⟨step.stays.2.1 hshut, ?_, ?_⟩
          · rw [List.mem_cons, not_or]
            exact ⟨hne.symm, hno⟩
          · rw [List.countP_cons]
            omega

/-- A thread that `close_inner` joins is there, and told to end. -/
structure Joinable (t : Threads ι) : Prop where
  worker : t.closer = .joiningWorker → t.worker ≠ .absent
  flusher : t.closer = .joiningFlusher → t.flusher ≠ .absent ∧ t.shutdown = true

theorem Run.joinable (hr : Run background interval nextSeq events t) : Joinable t := by
  induction hr with
  | start => exact ⟨nofun, nofun⟩
  | @step events event t t' run step ih =>
      obtain ⟨-, hshut, hworker, hflusher⟩ := step.stays
      have hsame : t'.closer = t.closer → Joinable t' := by
        intro heq
        refine ⟨fun h => hworker (ih.worker (heq.symm.trans h)), fun h => ?_⟩
        obtain ⟨hf, hs⟩ := ih.flusher (heq.symm.trans h)
        exact ⟨hflusher hf, hshut hs⟩
      cases step with
      | flush seq =>
          refine hsame ?_
          unfold markFlushed
          split_ifs <;> rfl
      | look at_ =>
          refine hsame ?_
          rcases t.workerLook_cases with ⟨-, -, hlook⟩ | ⟨-, hlook⟩ | ⟨-, -, hlook⟩ <;> rw [hlook]
      | swap at_ => exact ⟨nofun, nofun⟩
      | wakeWorker at_ running => exact ⟨fun _ => hworker running, nofun⟩
      | noWorker at_ absent => exact ⟨nofun, nofun⟩
      | joinWorker at_ ended => exact ⟨nofun, nofun⟩
      | stopFlusher at_ running => exact ⟨nofun, fun _ => ⟨hflusher running, rfl⟩⟩
      | noFlusher at_ absent => exact ⟨nofun, nofun⟩
      | joinFlusher at_ ended => exact ⟨nofun, nofun⟩
      | finish at_ => exact ⟨nofun, nofun⟩
      | _ => exact hsame rfl

/-- Until `close_inner` is over, it or the thread it joins can go on. -/
theorem Run.goes_on (hr : Run background interval nextSeq events t)
    (hcalled : t.closer ≠ .notCalled) (hopen : t.closer ≠ .closed) :
    ∃ event t', Step t event t' ∧ (event.isCloser = true ∨
      t.closer = .joiningWorker ∧ event.isWorker = true ∨
      t.closer = .joiningFlusher ∧ event.isFlusher = true) := by
  have hjoin := hr.joinable
  cases hc : t.closer with
  | notCalled => exact absurd hc hcalled
  | closed => exact absurd hc hopen
  | swapped =>
      by_cases hw : t.worker = .absent
      · exact ⟨_, _, .noWorker hc hw, .inl rfl⟩
      · exact ⟨_, _, .wakeWorker hc hw, .inl rfl⟩
  | joiningWorker =>
      have hclosed := hr.inv.closed.mpr hcalled
      have hlook : t.worker.atCoordinator = true →
          ∃ event t', Step t event t' ∧ event.isWorker = true := by
        intro hat
        refine ⟨_, _, .look hat, ?_⟩
        rcases t.workerLook_cases with ⟨-, -, hlook⟩ | ⟨-, hlook⟩ | ⟨-, -, hlook⟩ <;>
          (rw [hlook]; rfl)
      have hgo : t.worker = .ended ∨ ∃ event t', Step t event t' ∧ event.isWorker = true := by
        cases hw : t.worker with
        | absent => exact absurd hw (hjoin.worker hc)
        | looking => exact .inr (hlook (by rw [hw]; rfl))
        | waiting w => exact .inr (hlook (by rw [hw]; rfl))
        | checkpointing => exact .inr ⟨_, _, .done hw false, rfl⟩
        | ended => exact .inl rfl
      rcases hgo with hended | ⟨event, t', hstep, hevent⟩
      · exact ⟨_, _, .joinWorker hc hended, .inl rfl⟩
      · exact ⟨event, t', hstep, .inr (.inl ⟨rfl, hevent⟩)⟩
  | workerJoined =>
      by_cases hf : t.flusher = .absent
      · exact ⟨_, _, .noFlusher hc hf, .inl rfl⟩
      · exact ⟨_, _, .stopFlusher hc hf, .inl rfl⟩
  | joiningFlusher =>
      obtain ⟨hpresent, hshut⟩ := hjoin.flusher hc
      cases hf : t.flusher with
      | absent => exact absurd hf hpresent
      | entering => exact ⟨_, _, .enter hf, .inr (.inr ⟨rfl, rfl⟩)⟩
      | waiting w => exact ⟨_, _, .leave hf hshut, .inr (.inr ⟨rfl, rfl⟩)⟩
      | flushing => exact ⟨_, _, .again hf, .inr (.inr ⟨rfl, rfl⟩)⟩
      | ended => exact ⟨_, _, .joinFlusher hc hf, .inl rfl⟩
  | flusherJoined => exact ⟨_, _, .finish hc, .inl rfl⟩

/-- **`close` comes to its end.**  Once it has begun, no background checkpoint starts, the
checkpoint thread takes at most two more steps and `close_inner` at most five; once the flush
thread is told to end, no background flush starts and it takes at most three more steps.  Until
`close_inner` is over, it or the thread it joins can go on, and the checkpoint thread sleeps only
while `close_inner` is about to wake it. -/
theorem Run.close_ends (hr : Run background interval nextSeq events t)
    {later earlier : List (ThreadEvent ι)} (he : events = later ++ .closing :: earlier) :
    (.workerStarts ∉ later ∧ later.countP (·.isWorker) ≤ 2 ∧ later.countP (·.isCloser) ≤ 5) ∧
    (∀ after before, events = after ++ .shutdown :: before →
      .flusherStarts ∉ after ∧ after.countP (·.isFlusher) ≤ 3) ∧
    (t.closer ≠ .closed → ∃ event t', Step t event t' ∧ (event.isCloser = true ∨
      t.closer = .joiningWorker ∧ event.isWorker = true ∨
      t.closer = .joiningFlusher ∧ event.isFlusher = true)) ∧
    (t.worker = .waiting .asleep → t.closer = .swapped) := by
  obtain ⟨hclosed, hno, hworker, hcloser⟩ := hr.closing he
  refine ⟨⟨hno, by omega, by omega⟩, ?_, ?_, ?_⟩
  · intro after before hafter
    obtain ⟨-, hnone, hflusher⟩ := hr.shutting hafter
    exact ⟨hnone, by omega⟩
  · intro hopen
    exact hr.goes_on (hr.inv.closed.mp hclosed) hopen
  · intro hw
    exact hr.inv.worker _ hw rfl (.inr hclosed)

/-- A request while a call waits for it, then `close`. -/
def closingEvents : List (ThreadEvent Unit) :=
  [.closerStep, .closerStep, .flusherStep, .shutdown, .closerStep, .workerLooked, .closerStep,
    .closing, .workerDone, .waited () true, .completed, .workerStarts, .requested, .waits (),
    .flusherStep, .workerLooked]

theorem closingRun : ∃ t : Threads Unit, Run true true 0 closingEvents t := by
  have h₁ : Run true true 0 [ThreadEvent.waits (), .flusherStep, .workerLooked] _ :=
    .step (.step (.step .start (.look rfl)) (.enter rfl)) (.waitCheckpoint rfl)
  have h₂ : Run true true 0 [ThreadEvent.completed, .workerStarts, .requested, .waits (),
      .flusherStep, .workerLooked] _ :=
    .step (.step (.step h₁ .request) (.look rfl)) .complete
  have h₃ : Run true true 0 (.waited () true :: closingEvents.drop 10) _ :=
    .step h₂ (.waited rfl true rfl)
  have h₄ : Run true true 0 (closingEvents.drop 4) _ :=
    .step (.step (.step (.step (.step h₃ (.done rfl false)) (.swap rfl)) (.wakeWorker rfl nofun))
      (.look rfl)) (.joinWorker rfl rfl)
  exact ⟨_, .step (.step (.step (.step h₄ (.stopFlusher rfl nofun)) (.leave rfl rfl))
    (.joinFlusher rfl rfl)) (.finish rfl)⟩

theorem closingRun_woken : ∃ t : Threads Unit, Run true true 0 closingEvents t ∧
    (.workerStarts ∈ closingEvents.take 12 ∨ t.requested = true ∧
      (t.worker = .waiting .asleep → t.closer = .swapped)) ∧
    (t.worker = .ended → t.closed = true ∨ t.bgError = true) ∧
    (∀ initial, t.waiters () = .forCheckpoint initial .asleep → t.completed ≤ initial) ∧
    ∀ seq, t.waiters () = .forFlush seq .asleep → covers t.flushed seq = false := by
  obtain ⟨t, hr⟩ := closingRun
  obtain ⟨hserved, hended, hcheckpoint, hflush⟩ := hr.all_woken
  exact ⟨t, hr, hserved (closingEvents.take 12) (closingEvents.drop 13) rfl, hended,
    hcheckpoint (), hflush ()⟩

theorem closingRun_tells : ∃ since before, closingEvents.drop 10 = since ++ .waits () :: before ∧
    (true = true ↔ .completed ∈ since) := by
  obtain ⟨t, hr⟩ := closingRun
  obtain ⟨since, before, heq, -, hok⟩ :=
    hr.wait_tells (show closingEvents = closingEvents.take 9 ++ _ from rfl)
  exact ⟨since, before, heq, hok⟩

theorem closingRun_ends : .workerStarts ∉ closingEvents.take 7 ∧
    (closingEvents.take 7).countP (·.isCloser) ≤ 5 := by
  obtain ⟨t, hr⟩ := closingRun
  obtain ⟨⟨hno, -, hcloser⟩, -⟩ :=
    hr.close_ends (show closingEvents = closingEvents.take 7 ++ _ from rfl)
  exact ⟨hno, hcloser⟩

end Works.Rotortree.Threads
