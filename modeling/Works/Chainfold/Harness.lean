import Works.Lib.Condvar
import Works.Chainfold.Converge

/-! # The harness

`harness.rs`: a thread that checkpoints and ticks a driver, and the handle of its user, as a
step relation on the state they share.  A step is what happens under one lock, or one call of
the driver; between two steps anything else may happen. -/

namespace Works.Chainfold

open Works.Lib Prog

variable {D S : Type}

/-- The calls of the loop; the flag tells whether the call panics. -/
structure Machine (D S : Type) where
  checkpoint : D → D → Bool → Prop
  tick : D → D → Bool → Prop
  status : D → S
  isTerminal : S → Bool
  hasDelay : D → Bool

/-- The calls come to an end. -/
def Machine.Total (M : Machine D S) : Prop :=
  ∀ d, (∃ d' panicked, M.checkpoint d d' panicked) ∧ ∃ d' panicked, M.tick d d' panicked

/-- Where the loop thread is. -/
inductive LoopAt where
  | top
  | checkpointing
  | ticking
  | caught (panicked : Bool)
  | sent (panicked : Bool)
  | delaying
  | waiting (sleeper : Sleeper)
  | returned
  | unwound
deriving DecidableEq, Repr

/-- Where the user of the handle is. -/
inductive HandleAt (S : Type) where
  | free
  | settling (accept : S → Bool) (seen : Option ℕ)
  | joining
  | gone

/-- `HarnessState`, the watch channel, the loop thread with its driver, and the handle.  `owed`
counts the calls that have given the lock back and have not notified yet. -/
structure Harness (D S : Type) where
  checkpointRequests : ℕ
  stop : Bool
  value : S
  version : ℕ
  loop : LoopAt
  driver : D
  owed : ℕ
  handle : HandleAt S

/-- What happens. -/
inductive Event (D S : Type) where
  | took (requests : ℕ)
  | checkpointed
  | ticked
  | published (status : S)
  | checked
  | requested
  | stopped
  | notified
  | asked
  | settled (accept : S → Bool) (status : S)
  | joined (driver : Option D)
  | dropped

/-- The steps of the loop thread. -/
def Event.isLoop : Event D S → Bool
  | .took _ | .checkpointed | .ticked | .published _ | .checked => true
  | _ => false

def Event.isTick : Event D S → Bool
  | .ticked => true
  | _ => false

def Event.isCheckpoint : Event D S → Bool
  | .checkpointed => true
  | _ => false

def Event.isRequest : Event D S → Bool
  | .requested => true
  | _ => false

namespace LoopAt

/-- `Condvar::notify_all`. -/
def notify : LoopAt → LoopAt
  | waiting w => waiting w.notify
  | l => l

theorem notify_waiting (l : LoopAt) {w : Sleeper} (h : l.notify = waiting w) : w = .woken := by
  cases l with
  | waiting w' =>
      cases h
      rfl
  | _ => cases h

theorem notify_returned (l : LoopAt) : l.notify = returned ↔ l = returned := by
  cases l <;> simp [notify]

/-- The driver may have been called since its status was sent. -/
def isBusy : LoopAt → Bool
  | ticking | caught _ => true
  | _ => false

/-- The thread is over; the sender of the watch channel is dropped. -/
def isOver : LoopAt → Bool
  | returned | unwound => true
  | _ => false

end LoopAt

namespace Harness

/-- `spawn`. -/
def spawn (M : Machine D S) (driver : D) : Harness D S where
  checkpointRequests := 0
  stop := false
  value := M.status driver
  version := 0
  loop := .top
  driver := driver
  owed := 0
  handle := .free

/-- The look of `wait_timeout_while` at the state. -/
def look (h : Harness D S) (timedOut : Bool) : LoopAt :=
  if h.stop || h.checkpointRequests ≠ 0 || timedOut then .top else .waiting .asleep

/-- One step. -/
inductive Step (M : Machine D S) : Harness D S → Event D S → Harness D S → Prop
  -- the body of the loop
  | take {h} (at_ : h.loop = .top) : Step M h (.took h.checkpointRequests)
      { h with
        checkpointRequests := 0
        loop := if h.checkpointRequests > 0 then .checkpointing else .ticking }
  | checkpoint {h d' panicked} (at_ : h.loop = .checkpointing)
      (call : M.checkpoint h.driver d' panicked) : Step M h .checkpointed
      { h with driver := d', loop := if panicked then .caught true else .ticking }
  | tick {h d' panicked} (at_ : h.loop = .ticking) (call : M.tick h.driver d' panicked) :
      Step M h .ticked { h with driver := d', loop := .caught panicked }
  | publish {h panicked} (at_ : h.loop = .caught panicked) :
      Step M h (.published (M.status h.driver))
      { h with
        value := M.status h.driver
        version := h.version + 1
        loop := .sent panicked }
  | leave {h panicked} (at_ : h.loop = .sent panicked) : Step M h .checked
      { h with
        loop :=
          if panicked && !M.isTerminal h.value then .unwound
          else if M.isTerminal h.value || h.stop then .returned
          else .delaying }
  | delay {h} (at_ : h.loop = .delaying) : Step M h .checked
      { h with
        loop :=
          if h.stop then .returned
          else if M.hasDelay h.driver then h.look false
          else .top }
  -- a notification, the end of the delay, or a spurious wake-up
  | wake {h w} (at_ : h.loop = .waiting w) (timedOut : Bool) : Step M h .checked
      { h with loop := h.look timedOut }
  -- the calls of the handle
  | request {h} (at_ : h.handle = .free) : Step M h .requested
      { h with
        checkpointRequests := satAdd h.checkpointRequests 1
        owed := h.owed + 1 }
  | shutdown {h} (at_ : h.handle = .free) : Step M h .stopped
      { h with stop := true, owed := h.owed + 1, handle := .joining }
  | notify {h} (due : 0 < h.owed) : Step M h .notified
      { h with owed := h.owed - 1, loop := h.loop.notify }
  | join {h} (at_ : h.handle = .joining) (ended : h.loop.isOver) :
      Step M h (.joined (if h.loop = .returned then some h.driver else none))
      { h with handle := .gone }
  | drop {h} (at_ : h.handle = .free) : Step M h .dropped { h with handle := .gone }
  -- `settled`, which may be given up between two looks
  | settle {h} (at_ : h.handle = .free) (accept : S → Bool) : Step M h .asked
      { h with handle := .settling accept none }
  | accept {h accept seen} (at_ : h.handle = .settling accept seen) (new : seen ≠ some h.version)
      (accepts : accept h.value) : Step M h (.settled accept h.value) { h with handle := .free }
  | reject {h accept seen} (at_ : h.handle = .settling accept seen) (new : seen ≠ some h.version)
      (rejects : accept h.value = false) : Step M h .asked
      { h with handle := .settling accept (some h.version) }
  | closed {h accept} (at_ : h.handle = .settling accept (some h.version))
      (ended : h.loop.isOver) : Step M h (.settled accept h.value) { h with handle := .free }
  | giveUp {h accept seen} (at_ : h.handle = .settling accept seen) : Step M h .asked
      { h with handle := .free }

/-- A run, with what happened in it, the latest first. -/
inductive Run (M : Machine D S) (d₀ : D) : List (Event D S) → Harness D S → Prop
  | spawn : Run M d₀ [] (spawn M d₀)
  | step {events event h h'} (run : Run M d₀ events h) (step : Step M h event h') :
      Run M d₀ (event :: events) h'

/-- The status that was published last. -/
def lastPublished (initial : S) : List (Event D S) → S
  | [] => initial
  | .published status :: _ => status
  | _ :: events => lastPublished initial events

variable {M : Machine D S} {d₀ : D} {h h' : Harness D S} {event : Event D S}
variable {events : List (Event D S)}

/-! ### What every step keeps -/

/-- What holds between two steps. -/
structure Inv (M : Machine D S) (h : Harness D S) : Prop where
  value : h.loop.isBusy = false → h.value = M.status h.driver
  wakes : ∀ w, h.loop = .waiting w →
    Wakes (h.stop = true ∨ h.checkpointRequests ≠ 0) (0 < h.owed) w
  stopped : h.stop = true → h.handle = .joining ∨ h.handle = .gone
  returned : h.loop = .returned → h.stop = true ∨ M.isTerminal h.value = true
  seen : ∀ accept v, h.handle = .settling accept (some v) →
    v ≤ h.version ∧ (v = h.version → accept h.value = false)

theorem look_cases (h : Harness D S) (timedOut : Bool) :
    h.look timedOut = .top ∨
      h.look timedOut = .waiting .asleep ∧ ¬ (h.stop = true ∨ h.checkpointRequests ≠ 0) := by
  unfold look
  split_ifs with hlook
  · exact .inl rfl
  · refine .inr ⟨rfl, ?_⟩
    simp only [Bool.or_eq_true, decide_eq_true_eq, not_or] at hlook
    rintro (hstop | hreq)
    · exact hlook.1.1 hstop
    · exact hlook.1.2 hreq

theorem Inv.spawn : Inv M (spawn M d₀) where
  value := fun _ => rfl
  wakes := nofun
  stopped := nofun
  returned := nofun
  seen := nofun

theorem Inv.value_step (hi : Inv M h) (hstep : Step M h event h') (hbusy : h'.loop.isBusy = false) :
    h'.value = M.status h'.driver := by
  cases hstep with
  | take at_ => exact hi.value (by rw [at_]; rfl)
  | checkpoint at_ call =>
      exfalso
      revert hbusy
      dsimp only
      split_ifs <;> simp [LoopAt.isBusy]
  | tick at_ call => cases hbusy
  | publish at_ => rfl
  | leave at_ => exact hi.value (by rw [at_]; rfl)
  | delay at_ => exact hi.value (by rw [at_]; rfl)
  | wake at_ timedOut => exact hi.value (by rw [at_]; rfl)
  | notify due =>
      refine hi.value ?_
      rw [← hbusy]
      cases h.loop <;> rfl
  | _ => exact hi.value hbusy

theorem Inv.wakes_step (hi : Inv M h) (hstep : Step M h event h') {w : Sleeper}
    (hw : h'.loop = .waiting w) :
    Wakes (h'.stop = true ∨ h'.checkpointRequests ≠ 0) (0 < h'.owed) w := by
  have hlook : ∀ timedOut, h.look timedOut = .waiting w →
      Wakes (h.stop = true ∨ h.checkpointRequests ≠ 0) (0 < h.owed) w := by
    intro timedOut hw
    rcases h.look_cases timedOut with htop | ⟨hasleep, hno⟩
    · rw [htop] at hw
      cases hw
    · rw [hasleep] at hw
      cases hw
      exact .sleep hno
  cases hstep with
  | take at_ => split_ifs at hw
  | checkpoint at_ call => split_ifs at hw
  | leave at_ => split_ifs at hw
  | delay at_ =>
      dsimp only at hw
      split_ifs at hw
      exact hlook false hw
  | wake at_ timedOut => exact hlook timedOut hw
  | request at_ =>
      exact (hi.wakes w hw).change (fun _ => Nat.succ_pos _) fun _ => Or.inr (Nat.succ_pos _)
  | shutdown at_ =>
      exact (hi.wakes w hw).change (fun _ => Nat.succ_pos _) fun _ => Or.inr (Nat.succ_pos _)
  | notify due =>
      obtain rfl : w = .woken := h.loop.notify_waiting hw
      exact .woken
  | tick at_ call => cases hw
  | publish at_ => cases hw
  | _ => exact hi.wakes w hw

theorem Inv.stopped_step (hi : Inv M h) (hstep : Step M h event h') (hstop : h'.stop = true) :
    h'.handle = .joining ∨ h'.handle = .gone := by
  have hbusy : ∀ {x}, h.handle = x → x ≠ .joining → x ≠ .gone → h.stop = true → False := by
    intro x hx hj hg hs
    rcases hi.stopped hs with hh | hh
    · exact hj (hx.symm.trans hh)
    · exact hg (hx.symm.trans hh)
  cases hstep with
  | shutdown at_ => exact .inl rfl
  | join at_ ended => exact .inr rfl
  | drop at_ => exact .inr rfl
  | settle at_ accept => exact (hbusy at_ nofun nofun hstop).elim
  | accept at_ new accepts => exact (hbusy at_ nofun nofun hstop).elim
  | reject at_ new rejects => exact (hbusy at_ nofun nofun hstop).elim
  | closed at_ ended => exact (hbusy at_ nofun nofun hstop).elim
  | giveUp at_ => exact (hbusy at_ nofun nofun hstop).elim
  | _ => exact hi.stopped hstop

theorem Inv.returned_step (hi : Inv M h) (hstep : Step M h event h') (hr : h'.loop = .returned) :
    h'.stop = true ∨ M.isTerminal h'.value = true := by
  cases hstep with
  | take at_ => split_ifs at hr
  | checkpoint at_ call => split_ifs at hr
  | tick at_ call => cases hr
  | publish at_ => cases hr
  | leave at_ =>
      dsimp only at hr
      split_ifs at hr with hp hend
      rcases Bool.or_eq_true_iff.mp hend with hterminal | hstop
      · exact .inr hterminal
      · exact .inl hstop
  | delay at_ =>
      dsimp only at hr
      split_ifs at hr with hstop hdelay
      · exact .inl hstop
      · rcases h.look_cases false with htop | ⟨hasleep, -⟩
        · rw [htop] at hr
          cases hr
        · rw [hasleep] at hr
          cases hr
  | wake at_ timedOut =>
      rcases h.look_cases timedOut with htop | ⟨hasleep, -⟩
      · rw [htop] at hr
        cases hr
      · rw [hasleep] at hr
        cases hr
  | shutdown at_ => exact .inl rfl
  | notify due =>
      exact hi.returned (h.loop.notify_returned.mp hr)
  | _ => exact hi.returned hr

theorem Inv.seen_step (hi : Inv M h) (hstep : Step M h event h') {accept : S → Bool} {v : ℕ}
    (hseen : h'.handle = .settling accept (some v)) :
    v ≤ h'.version ∧ (v = h'.version → accept h'.value = false) := by
  cases hstep with
  | publish at_ =>
      have hv := (hi.seen accept v hseen).1
      exact ⟨hv.trans (Nat.le_succ _), fun heq => absurd heq (by dsimp only; omega)⟩
  | reject at_ new rejects =>
      cases hseen
      exact ⟨le_rfl, fun _ => rejects⟩
  | shutdown at_ => cases hseen
  | join at_ ended => cases hseen
  | drop at_ => cases hseen
  | settle at_ accept => cases hseen
  | accept at_ new accepts => cases hseen
  | closed at_ ended => cases hseen
  | giveUp at_ => cases hseen
  | _ => exact hi.seen accept v hseen

theorem Inv.step (hi : Inv M h) (hstep : Step M h event h') : Inv M h' where
  value := hi.value_step hstep
  wakes := fun _ => hi.wakes_step hstep
  stopped := hi.stopped_step hstep
  returned := hi.returned_step hstep
  seen := fun _ _ => hi.seen_step hstep

theorem Run.inv (hr : Run M d₀ events h) : Inv M h := by
  induction hr with
  | spawn => exact .spawn
  | step run step ih => exact ih.step step

/-- The watch channel holds the status that was published last. -/
theorem Run.value (hr : Run M d₀ events h) : h.value = lastPublished (M.status d₀) events := by
  induction hr with
  | spawn => rfl
  | step run step ih =>
      cases step with
      | publish at_ => rfl
      | _ => exact ih

end Harness

/-! ### The harness of a driver -/

/-- `Duration::MAX` in nanoseconds. -/
def DURATION_MAX : ℕ := (2 ^ 64 - 1) * 10 ^ 9 + 999999999

/-- The delays of `DriverConfig`, in nanoseconds. -/
structure Delays where
  pollInterval : ℕ
  backoffBase : ℕ
  backoffMax : ℕ
deriving DecidableEq, Repr

/-- `DriverStatus::is_terminal`. -/
def DriverStatus.isTerminal (s : DriverStatus) : Bool := !s.engine.isActive

variable {σ E ε κ : Type}

/-- `Driver::next_delay`. -/
def Driver.nextDelay (delays : Delays) (d : Driver σ κ) : ℕ :=
  if d.consecutiveErrors = 0 then if d.advanced then 0 else delays.pollInterval
  else
    let factor := if d.consecutiveErrors - 1 < 32 then 2 ^ (d.consecutiveErrors - 1) else U32_MAX
    min (min (delays.backoffBase * factor) DURATION_MAX) delays.backoffMax

/-- `Driver::tick` on an honest source. -/
def Driver.Ticks (A : Fold σ E ε) (K : Sink κ σ) (chains : Set (Chain E)) (rule : Trace E → Prop)
    (d d' : Driver σ κ) : Prop :=
  ∃ (t : Tick) (τ : Trace E), RunsOn (d.step A K) τ (d', t) ∧ Honest chains τ ∧ rule τ

/-- A tick on one chain. -/
theorem Driver.Ticks.of_answered {A : Fold σ E ε} {K : Sink κ σ} {chains : Set (Chain E)}
    {C : Chain E} (hC : C ∈ chains) {d d' : Driver σ κ} {t : Tick} {τ : Trace E}
    (hrun : RunsOn (d.step A K) τ (d', t)) (hτ : AnsweredBy C τ) :
    d.Ticks A K chains Bracketed d' :=
  ⟨t, τ, hrun, hτ.honest hC, hτ.bracketed⟩

/-- The driver as the loop calls it; its calls do not panic. -/
def driverMachine (A : Fold σ E ε) (K : Sink κ σ) (chains : Set (Chain E))
    (rule : Trace E → Prop) (delays : Delays) : Machine (Driver σ κ) DriverStatus where
  checkpoint d d' panicked := d' = d.checkpoint ∧ panicked = false
  tick d d' panicked := d.Ticks A K chains rule d' ∧ panicked = false
  status d := d.status K
  isTerminal := DriverStatus.isTerminal
  hasDelay d := decide (0 < d.nextDelay delays)

theorem driverMachine_total {A : Fold σ E ε} {K : Sink κ σ} {chains : Set (Chain E)}
    {delays : Delays} (hne : chains.Nonempty) :
    (driverMachine A K chains Bracketed delays).Total := by
  intro d
  obtain ⟨C, hC⟩ := hne
  refine ⟨⟨_, _, rfl, rfl⟩, ?_⟩
  obtain ⟨τ, ⟨d', t⟩, hrun, hτ⟩ := exists_answered .genesis 1 C (d.step A K)
  exact ⟨d', false, .of_answered hC hrun (answeredBy_of_reply .genesis 1 hτ), rfl⟩

/-- What the waits accept. -/
def orTerminal (cond : DriverStatus → Bool) (s : DriverStatus) : Bool := s.isTerminal || cond s

/-- `Handle::wait_caught_up`. -/
def waitCaughtUp : DriverStatus → Bool := orTerminal fun s => s.caughtUp

/-- `Handle::wait_past`. -/
def waitPast (pos : Position) : DriverStatus → Bool :=
  orTerminal fun s => s.cursor.any fun c => decide (pos ≤ c)

/-- `Handle::wait_durable`. -/
def waitDurable (pos : Position) : DriverStatus → Bool :=
  orTerminal fun s => s.durableCursor.any fun c => decide (pos ≤ c)

theorem orTerminal_of_isTerminal (cond : DriverStatus → Bool) (s : DriverStatus)
    (h : s.isTerminal = true) : orTerminal cond s = true := by
  rw [orTerminal, h, Bool.true_or]

end Works.Chainfold
