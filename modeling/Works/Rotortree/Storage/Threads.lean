import Works.Lib.Condvar

/-! # The threads of a durable tree

The background checkpoint thread, the background flush thread, `close` and the calls that wait,
of `mod.rs` and `token.rs`, as a step relation on what they share: the checkpoint coordinator,
the flag `closed`, the flag that shuts the flush thread down and the durability tracker.  A step
is what happens under one lock or one call; flushes and checkpoints come in by their ends only. -/

namespace Works.Rotortree

open Works.Lib

/-- The background checkpoint thread; none is started under a manual policy. -/
inductive WorkerAt where
  | absent
  | looking
  | waiting (sleeper : Sleeper)
  | checkpointing
  | ended
deriving DecidableEq, Repr

/-- The background flush thread; none is started under the manual policy. -/
inductive FlusherAt where
  | absent
  | entering
  | waiting (sleeper : Sleeper)
  | flushing
  | ended
deriving DecidableEq, Repr

/-- `close_inner`. -/
inductive CloserAt where
  | notCalled
  | swapped
  | joiningWorker
  | workerJoined
  | joiningFlusher
  | flusherJoined
  | closed
deriving DecidableEq, Repr

/-- A call of `wait_for_checkpoint`, with the count it starts from, or of
`DurabilityToken::wait`. -/
inductive WaiterAt where
  | away
  | forCheckpoint (initial : ℕ) (sleeper : Sleeper)
  | forFlush (seq : ℕ) (sleeper : Sleeper)
deriving DecidableEq, Repr

/-- What the threads share, and where they are; `ι` names the calls that may wait. -/
structure Threads (ι : Type) where
  requested : Bool
  completed : ℕ
  closed : Bool
  bgError : Bool
  shutdown : Bool
  flushed : Option ℕ
  worker : WorkerAt
  flusher : FlusherAt
  closer : CloserAt
  waiters : ι → WaiterAt

/-- What happens. -/
inductive ThreadEvent (ι : Type) where
  | requested
  | completed
  | flushed (seq : ℕ)
  | failed
  | workerLooked
  | workerStarts
  | workerDone
  | flusherStep
  | flusherStarts
  | closing
  | shutdown
  | closerStep
  | waits (i : ι)
  | sleeps (i : ι)
  | waited (i : ι) (ok : Bool)
  | durable (i : ι) (seq : ℕ)
deriving DecidableEq, Repr

namespace ThreadEvent

variable {ι : Type}

def isCompleted : ThreadEvent ι → Bool
  | completed => true
  | _ => false

/-- The steps of the checkpoint thread. -/
def isWorker : ThreadEvent ι → Bool
  | workerLooked | workerStarts | workerDone => true
  | _ => false

/-- The steps of the flush thread. -/
def isFlusher : ThreadEvent ι → Bool
  | flusherStep | flusherStarts => true
  | _ => false

/-- The steps of `close_inner` after the first. -/
def isCloser : ThreadEvent ι → Bool
  | closerStep | shutdown => true
  | _ => false

end ThreadEvent

/-- The thread looks at the coordinator next. -/
def WorkerAt.atCoordinator : WorkerAt → Bool
  | looking | waiting _ => true
  | _ => false

def WorkerAt.notify : WorkerAt → WorkerAt
  | waiting w => waiting w.notify
  | w => w

theorem WorkerAt.notify_waiting (a : WorkerAt) {w : Sleeper} (h : a.notify = waiting w) :
    w = .woken := by
  cases a with
  | waiting w' =>
      cases h
      rfl
  | _ => cases h

def FlusherAt.notify : FlusherAt → FlusherAt
  | waiting w => waiting w.notify
  | f => f

/-- A notification of the coordinator's condition variable. -/
def WaiterAt.notifyCheckpoint : WaiterAt → WaiterAt
  | forCheckpoint initial w => forCheckpoint initial w.notify
  | w => w

/-- A notification of the tracker's condition variable. -/
def WaiterAt.notifyFlush : WaiterAt → WaiterAt
  | forFlush seq w => forFlush seq w.notify
  | w => w

theorem WaiterAt.notifyCheckpoint_forCheckpoint (a : WaiterAt) {n : ℕ} {w : Sleeper}
    (h : a.notifyCheckpoint = forCheckpoint n w) : w = .woken := by
  cases a <;> cases h
  rfl

theorem WaiterAt.notifyCheckpoint_forFlush (a : WaiterAt) {n : ℕ} {w : Sleeper}
    (h : a.notifyCheckpoint = forFlush n w) : a = forFlush n w := by
  cases a <;> cases h
  rfl

theorem WaiterAt.notifyFlush_forFlush (a : WaiterAt) {n : ℕ} {w : Sleeper}
    (h : a.notifyFlush = forFlush n w) : w = .woken := by
  cases a <;> cases h
  rfl

theorem WaiterAt.notifyFlush_forCheckpoint (a : WaiterAt) {n : ℕ} {w : Sleeper}
    (h : a.notifyFlush = forCheckpoint n w) : a = forCheckpoint n w := by
  cases a <;> cases h
  rfl

/-- `matches!(flushed, Some(f) if f >= seq)`. -/
def covers (flushed : Option ℕ) (seq : ℕ) : Bool := flushed.any fun f => decide (seq ≤ f)

namespace Threads

variable {ι : Type} [DecidableEq ι]

/-- The threads that `RotorTree::open` starts; the recovered entries are durable. -/
def start (background interval : Bool) (nextSeq : ℕ) : Threads ι where
  requested := false
  completed := 0
  closed := false
  bgError := false
  shutdown := false
  flushed := if nextSeq > 0 then some (nextSeq - 1) else none
  worker := if background then .looking else .absent
  flusher := if interval then .entering else .absent
  closer := .notCalled
  waiters := fun _ => .away

/-- `Shared::request_checkpoint`. -/
def requestCheckpoint (t : Threads ι) : Threads ι :=
  { t with
    requested := true
    worker := t.worker.notify
    waiters := fun i => (t.waiters i).notifyCheckpoint }

/-- The end of `Shared::checkpoint_inner`. -/
def complete (t : Threads ι) : Threads ι :=
  { t with
    completed := t.completed + 1
    worker := t.worker.notify
    waiters := fun i => (t.waiters i).notifyCheckpoint }

/-- `DurabilityTracker::mark_flushed`. -/
def markFlushed (t : Threads ι) (seq : ℕ) : Threads ι :=
  if covers t.flushed seq then t
  else
    { t with
      flushed := some seq
      waiters := fun i => (t.waiters i).notifyFlush }

/-- The look of the checkpoint thread under the lock of the coordinator. -/
def workerLook (t : Threads ι) : Threads ι × ThreadEvent ι :=
  if !t.requested && !t.closed then ({ t with worker := .waiting .asleep }, .workerLooked)
  else if t.closed then ({ t with worker := .ended }, .workerLooked)
  else ({ t with requested := false, worker := .checkpointing }, .workerStarts)

/-- One step.  Any thread may request or complete a checkpoint or flush the log. -/
inductive Step : Threads ι → ThreadEvent ι → Threads ι → Prop
  | request {t} : Step t .requested t.requestCheckpoint
  | complete {t} : Step t .completed t.complete
  | flush {t} (seq : ℕ) : Step t (.flushed seq) (t.markFlushed seq)
  | flushFails {t} : Step t .failed { t with bgError := true }
  -- the checkpoint thread; a wake-up may be spurious
  | look {t} (at_ : t.worker.atCoordinator = true) : Step t t.workerLook.2 t.workerLook.1
  | done {t} (at_ : t.worker = .checkpointing) (failed : Bool) : Step t .workerDone
      { t with
        bgError := t.bgError || failed
        worker := if failed then .ended else .looking }
  -- the flush thread
  | enter {t} (at_ : t.flusher = .entering) : Step t .flusherStep
      { t with flusher := .waiting .asleep }
  | leave {t w} (at_ : t.flusher = .waiting w) (stop : t.shutdown = true) : Step t .flusherStep
      { t with flusher := .ended }
  | interval {t w} (at_ : t.flusher = .waiting w) (go : t.shutdown = false) : Step t .flusherStarts
      { t with flusher := .flushing }
  | again {t} (at_ : t.flusher = .flushing) : Step t .flusherStep { t with flusher := .entering }
  -- `close_inner`
  | swap {t} (at_ : t.closer = .notCalled) : Step t .closing
      { t with closed := true, closer := .swapped }
  | wakeWorker {t} (at_ : t.closer = .swapped) (running : t.worker ≠ .absent) :
      Step t .closerStep { t.requestCheckpoint with closer := .joiningWorker }
  | noWorker {t} (at_ : t.closer = .swapped) (absent : t.worker = .absent) :
      Step t .closerStep { t with closer := .workerJoined }
  | joinWorker {t} (at_ : t.closer = .joiningWorker) (ended : t.worker = .ended) :
      Step t .closerStep { t with closer := .workerJoined }
  | stopFlusher {t} (at_ : t.closer = .workerJoined) (running : t.flusher ≠ .absent) :
      Step t .shutdown
      { t with shutdown := true, flusher := t.flusher.notify, closer := .joiningFlusher }
  | noFlusher {t} (at_ : t.closer = .workerJoined) (absent : t.flusher = .absent) :
      Step t .closerStep { t with closer := .flusherJoined }
  | joinFlusher {t} (at_ : t.closer = .joiningFlusher) (ended : t.flusher = .ended) :
      Step t .closerStep { t with closer := .flusherJoined }
  | finish {t} (at_ : t.closer = .flusherJoined) : Step t .closerStep
      { t with closer := .closed }
  -- `wait_for_checkpoint`, which gives up when its time is over
  | waitCheckpoint {t i} (at_ : t.waiters i = .away) : Step t (.waits i)
      { t with waiters := Function.update t.waiters i (.forCheckpoint t.completed .asleep) }
  | waitAgain {t i initial w} (at_ : t.waiters i = .forCheckpoint initial w)
      (notYet : ¬ initial < t.completed) : Step t (.sleeps i)
      { t with waiters := Function.update t.waiters i (.forCheckpoint initial .asleep) }
  | waited {t i initial w} (at_ : t.waiters i = .forCheckpoint initial w) (ok : Bool)
      (tells : ok = decide (initial < t.completed)) : Step t (.waited i ok)
      { t with waiters := Function.update t.waiters i .away }
  -- `DurabilityToken::wait`
  | waitFlush {t i} (at_ : t.waiters i = .away) (seq : ℕ) (notYet : covers t.flushed seq = false) :
      Step t (.waits i) { t with waiters := Function.update t.waiters i (.forFlush seq .asleep) }
  | flushAgain {t i seq w} (at_ : t.waiters i = .forFlush seq w)
      (notYet : covers t.flushed seq = false) : Step t (.sleeps i)
      { t with waiters := Function.update t.waiters i (.forFlush seq .asleep) }
  | durable {t i seq w} (at_ : t.waiters i = .forFlush seq w) (covered : covers t.flushed seq) :
      Step t (.durable i seq) { t with waiters := Function.update t.waiters i .away }

/-- A run, with what happened in it, the latest first. -/
inductive Run (background interval : Bool) (nextSeq : ℕ) :
    List (ThreadEvent ι) → Threads ι → Prop
  | start : Run background interval nextSeq [] (start background interval nextSeq)
  | step {events event t t'} (run : Run background interval nextSeq events t)
      (step : Step t event t') : Run background interval nextSeq (event :: events) t'

variable {background interval : Bool} {nextSeq : ℕ} {t t' : Threads ι} {event : ThreadEvent ι}
variable {events : List (ThreadEvent ι)}

/-! ### No wake-up is lost -/

/-- What holds between two steps. -/
structure Inv (t : Threads ι) : Prop where
  worker : ∀ w, t.worker = .waiting w →
    Wakes (t.requested = true ∨ t.closed = true) (t.closer = .swapped) w
  checkpoint : ∀ i initial w, t.waiters i = .forCheckpoint initial w →
    Wakes (initial < t.completed) False w
  flush : ∀ i seq w, t.waiters i = .forFlush seq w → Wakes (covers t.flushed seq = true) False w
  closed : t.closed = true ↔ t.closer ≠ .notCalled
  ended : t.worker = .ended → t.closed = true ∨ t.bgError = true

omit [DecidableEq ι] in
theorem Inv.start : Inv (start background interval nextSeq : Threads ι) where
  worker := by
    intro w hw
    cases background <;> cases hw
  checkpoint := nofun
  flush := nofun
  closed := by simp [Threads.start]
  ended := by
    intro hw
    cases background <;> cases hw

omit [DecidableEq ι] in
/-- The three ends of a look. -/
theorem workerLook_cases (t : Threads ι) :
    t.requested = false ∧ t.closed = false ∧
        t.workerLook = ({ t with worker := .waiting .asleep }, .workerLooked) ∨
      t.closed = true ∧ t.workerLook = ({ t with worker := .ended }, .workerLooked) ∨
      t.requested = true ∧ t.closed = false ∧
        t.workerLook =
          ({ t with requested := false, worker := .checkpointing }, .workerStarts) := by
  unfold workerLook
  cases t.requested <;> cases t.closed <;> simp

theorem Inv.worker_step (hi : Inv t) (hstep : Step t event t') {w : Sleeper}
    (hw : t'.worker = .waiting w) :
    Wakes (t'.requested = true ∨ t'.closed = true) (t'.closer = .swapped) w := by
  cases hstep with
  | request =>
      obtain rfl := t.worker.notify_waiting hw
      exact .woken
  | complete =>
      obtain rfl := t.worker.notify_waiting hw
      exact .woken
  | flush seq =>
      unfold markFlushed at hw ⊢
      split_ifs at hw ⊢
      · exact hi.worker w hw
      · exact hi.worker w hw
  | look at_ =>
      rcases t.workerLook_cases with ⟨hreq, hclosed, hlook⟩ | ⟨-, hlook⟩ | ⟨-, -, hlook⟩
      · rw [hlook] at hw ⊢
        cases hw
        exact .sleep (by simp [hreq, hclosed])
      · rw [hlook] at hw
        cases hw
      · rw [hlook] at hw
        cases hw
  | done at_ failed => cases failed <;> cases hw
  | swap at_ => exact (hi.worker w hw).change (fun _ => rfl) fun _ => .inr rfl
  | wakeWorker at_ running =>
      obtain rfl := t.worker.notify_waiting hw
      exact .woken
  | noWorker at_ absent =>
      rw [show t.worker = .waiting w from hw] at absent
      cases absent
  | joinWorker at_ ended =>
      rw [show t.worker = .waiting w from hw] at ended
      cases ended
  | stopFlusher at_ running => exact (hi.worker w hw).change (by simp [at_]) .inl
  | noFlusher at_ absent => exact (hi.worker w hw).change (by simp [at_]) .inl
  | joinFlusher at_ ended => exact (hi.worker w hw).change (by simp [at_]) .inl
  | finish at_ => exact (hi.worker w hw).change (by simp [at_]) .inl
  | _ => exact hi.worker w hw

theorem Inv.checkpoint_step (hi : Inv t) (hstep : Step t event t') {i : ι} {initial : ℕ}
    {w : Sleeper} (hw : t'.waiters i = .forCheckpoint initial w) :
    Wakes (initial < t'.completed) False w := by
  -- a call that goes to sleep, or comes back, is one of its own
  have hupdate : ∀ {j : ι} {a : WaiterAt}, (∀ n w, a = .forCheckpoint n w → w = .asleep →
      ¬ n < t.completed) → Function.update t.waiters j a i = .forCheckpoint initial w →
      Wakes (initial < t.completed) False w := by
    intro j a ha hw
    by_cases hij : i = j
    · rw [hij, Function.update_self] at hw
      cases w with
      | asleep => exact .sleep (ha _ _ hw rfl)
      | woken => exact .woken
    · rw [Function.update_of_ne hij] at hw
      exact hi.checkpoint i initial w hw
  cases hstep with
  | request =>
      obtain rfl := (t.waiters i).notifyCheckpoint_forCheckpoint hw
      exact .woken
  | complete =>
      obtain rfl := (t.waiters i).notifyCheckpoint_forCheckpoint hw
      exact .woken
  | wakeWorker at_ running =>
      obtain rfl := (t.waiters i).notifyCheckpoint_forCheckpoint hw
      exact .woken
  | flush seq =>
      unfold markFlushed at hw ⊢
      split_ifs at hw ⊢
      · exact hi.checkpoint i initial w hw
      · exact hi.checkpoint i initial w ((t.waiters i).notifyFlush_forCheckpoint hw)
  | look at_ =>
      rcases t.workerLook_cases with ⟨-, -, hlook⟩ | ⟨-, hlook⟩ | ⟨-, -, hlook⟩ <;>
        (rw [hlook] at hw ⊢; exact hi.checkpoint i initial w hw)
  | waitCheckpoint at_ =>
      refine hupdate ?_ hw
      rintro n w ⟨rfl, rfl⟩ -
      exact lt_irrefl _
  | waitAgain at_ notYet =>
      refine hupdate ?_ hw
      rintro n w ⟨rfl, rfl⟩ -
      exact notYet
  | waited at_ ok tells => exact hupdate (by rintro _ _ ⟨⟩) hw
  | waitFlush at_ seq notYet => exact hupdate (by rintro _ _ ⟨⟩) hw
  | flushAgain at_ notYet => exact hupdate (by rintro _ _ ⟨⟩) hw
  | durable at_ covered => exact hupdate (by rintro _ _ ⟨⟩) hw
  | _ => exact hi.checkpoint i initial w hw

theorem Inv.flush_step (hi : Inv t) (hstep : Step t event t') {i : ι} {seq : ℕ} {w : Sleeper}
    (hw : t'.waiters i = .forFlush seq w) : Wakes (covers t'.flushed seq = true) False w := by
  have hupdate : ∀ {j : ι} {a : WaiterAt}, (∀ n w, a = .forFlush n w → w = .asleep →
      covers t.flushed n = false) → Function.update t.waiters j a i = .forFlush seq w →
      Wakes (covers t.flushed seq = true) False w := by
    intro j a ha hw
    by_cases hij : i = j
    · rw [hij, Function.update_self] at hw
      cases w with
      | asleep => exact .sleep (by simp [ha _ _ hw rfl])
      | woken => exact .woken
    · rw [Function.update_of_ne hij] at hw
      exact hi.flush i seq w hw
  cases hstep with
  | request => exact hi.flush i seq w ((t.waiters i).notifyCheckpoint_forFlush hw)
  | complete => exact hi.flush i seq w ((t.waiters i).notifyCheckpoint_forFlush hw)
  | wakeWorker at_ running => exact hi.flush i seq w ((t.waiters i).notifyCheckpoint_forFlush hw)
  | flush seq' =>
      unfold markFlushed at hw ⊢
      split_ifs at hw ⊢
      · exact hi.flush i seq w hw
      · obtain rfl := (t.waiters i).notifyFlush_forFlush hw
        exact .woken
  | look at_ =>
      rcases t.workerLook_cases with ⟨-, -, hlook⟩ | ⟨-, hlook⟩ | ⟨-, -, hlook⟩ <;>
        (rw [hlook] at hw ⊢; exact hi.flush i seq w hw)
  | waitCheckpoint at_ => exact hupdate (by rintro _ _ ⟨⟩) hw
  | waitAgain at_ notYet => exact hupdate (by rintro _ _ ⟨⟩) hw
  | waited at_ ok tells => exact hupdate (by rintro _ _ ⟨⟩) hw
  | waitFlush at_ seq' notYet =>
      refine hupdate ?_ hw
      rintro n w ⟨rfl, rfl⟩ -
      exact notYet
  | flushAgain at_ notYet =>
      refine hupdate ?_ hw
      rintro n w ⟨rfl, rfl⟩ -
      exact notYet
  | durable at_ covered => exact hupdate (by rintro _ _ ⟨⟩) hw
  | _ => exact hi.flush i seq w hw

theorem Inv.closed_step (hi : Inv t) (hstep : Step t event t') :
    t'.closed = true ↔ t'.closer ≠ .notCalled := by
  have hclosed := hi.closed
  cases hstep with
  | flush seq =>
      unfold markFlushed
      split_ifs
      · exact hclosed
      · exact hclosed
  | look at_ =>
      rcases t.workerLook_cases with ⟨-, -, hlook⟩ | ⟨-, hlook⟩ | ⟨-, -, hlook⟩ <;>
        (rw [hlook]; exact hclosed)
  | swap at_ => simp
  | wakeWorker at_ running => simpa [at_, requestCheckpoint] using hclosed
  | noWorker at_ absent => simpa [at_] using hclosed
  | joinWorker at_ ended => simpa [at_] using hclosed
  | stopFlusher at_ running => simpa [at_] using hclosed
  | noFlusher at_ absent => simpa [at_] using hclosed
  | joinFlusher at_ ended => simpa [at_] using hclosed
  | finish at_ => simpa [at_] using hclosed
  | _ => exact hclosed

theorem Inv.ended_step (hi : Inv t) (hstep : Step t event t') (hw : t'.worker = .ended) :
    t'.closed = true ∨ t'.bgError = true := by
  have hnotify : ∀ a : WorkerAt, a.notify = .ended → a = .ended := by
    intro a ha
    cases a <;> cases ha
    rfl
  cases hstep with
  | request => exact hi.ended (hnotify _ hw)
  | complete => exact hi.ended (hnotify _ hw)
  | flush seq =>
      unfold markFlushed at hw ⊢
      split_ifs at hw ⊢
      · exact hi.ended hw
      · exact hi.ended hw
  | flushFails => exact .inr rfl
  | look at_ =>
      rcases t.workerLook_cases with ⟨-, -, hlook⟩ | ⟨hclosed, hlook⟩ | ⟨-, -, hlook⟩
      · rw [hlook] at hw
        cases hw
      · rw [hlook]
        exact .inl hclosed
      · rw [hlook] at hw
        cases hw
  | done at_ failed =>
      cases failed with
      | true => exact .inr (Bool.or_true _)
      | false => cases hw
  | swap at_ => exact .inl rfl
  | wakeWorker at_ running => exact hi.ended (hnotify _ hw)
  | _ => exact hi.ended hw

theorem Inv.step (hi : Inv t) (hstep : Step t event t') : Inv t' where
  worker := fun _ => hi.worker_step hstep
  checkpoint := fun _ _ _ => hi.checkpoint_step hstep
  flush := fun _ _ _ => hi.flush_step hstep
  closed := hi.closed_step hstep
  ended := hi.ended_step hstep

theorem Run.inv (hr : Run background interval nextSeq events t) : Inv t := by
  induction hr with
  | start => exact .start
  | step run step ih => exact ih.step step

end Threads

end Works.Rotortree
