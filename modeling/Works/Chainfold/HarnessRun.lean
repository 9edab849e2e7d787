import Works.Chainfold.Harness

/-! # Runs of the harness

In every run, whatever is interleaved: `shutdown` ends the loop (`Run.shutdown_ends`), no
checkpoint request is lost (`Run.requests_served`), a wait returns what it waits for
(`Run.wait_answers`), and the driver that `shutdown` returns follows a chain
(`Run.returned_follows`). -/

namespace Works.Chainfold

open Works.Lib Prog

namespace Harness

variable {D S : Type} {M : Machine D S} {d₀ : D} {h h' : Harness D S} {event : Event D S}
variable {events : List (Event D S)}

/-! ### The end of the loop -/

/-- The steps that the loop still takes once `stop` is set. -/
def rank : LoopAt → ℕ
  | .waiting _ => 6
  | .top => 5
  | .checkpointing => 4
  | .ticking => 3
  | .caught _ => 2
  | .sent _ | .delaying => 1
  | .returned | .unwound => 0

/-- The ticks among them. -/
def ticksLeft : LoopAt → ℕ
  | .waiting _ | .top | .checkpointing | .ticking => 1
  | _ => 0

theorem rank_notify (l : LoopAt) : rank l.notify = rank l := by cases l <;> rfl

theorem ticksLeft_notify (l : LoopAt) : ticksLeft l.notify = ticksLeft l := by cases l <;> rfl

theorem look_of_stop (hstop : h.stop = true) (timedOut : Bool) : h.look timedOut = .top := by
  simp [look, hstop]

theorem rank_le (l : LoopAt) : rank l ≤ 6 ∧ ticksLeft l ≤ 1 := by
  cases l <;> simp [rank, ticksLeft]

/-- One step while `stop` is set. -/
theorem Step.rank (hstep : Step M h event h') (hstop : h.stop = true) :
    rank h'.loop + (if event.isLoop then 1 else 0) ≤ rank h.loop ∧
      ticksLeft h'.loop + (if event.isTick then 1 else 0) ≤ ticksLeft h.loop := by
  cases hstep with
  | take at_ =>
      dsimp only [Event.isLoop, Event.isTick]
      rw [at_]
      by_cases hreq : h.checkpointRequests > 0 <;> simp [hreq, Harness.rank, ticksLeft]
  | checkpoint at_ call =>
      dsimp only [Event.isLoop, Event.isTick]
      rw [at_]
      split_ifs <;> simp_all [Harness.rank, ticksLeft]
  | tick at_ call => simp [at_, Harness.rank, ticksLeft, Event.isLoop, Event.isTick]
  | publish at_ => simp [at_, Harness.rank, ticksLeft, Event.isLoop, Event.isTick]
  | leave at_ =>
      dsimp only [Event.isLoop, Event.isTick]
      rw [at_, hstop, Bool.or_true]
      split_ifs <;> simp_all [Harness.rank, ticksLeft]
  | delay at_ => simp [at_, hstop, Harness.rank, ticksLeft, Event.isLoop, Event.isTick]
  | wake at_ timedOut =>
      simp [at_, look_of_stop hstop, Harness.rank, ticksLeft, Event.isLoop, Event.isTick]
  | notify due =>
      dsimp only
      rw [rank_notify, ticksLeft_notify]
      exact ⟨le_rfl, le_rfl⟩
  | _ => exact ⟨le_rfl, le_rfl⟩

theorem Run.stop_of_mem (hr : Run M d₀ events h) (hmem : .stopped ∈ events) : h.stop = true := by
  induction hr with
  | spawn => cases hmem
  | @step events event h h' run step ih =>
      rcases List.mem_cons.mp hmem with rfl | hmem
      · cases step
        rfl
      · have hstop := ih hmem
        cases step with
        | shutdown at_ => rfl
        | _ => exact hstop

/-- After `shutdown` has set `stop`. -/
theorem Run.after_stop (hr : Run M d₀ events h) {later earlier : List (Event D S)}
    (he : events = later ++ .stopped :: earlier) :
    rank h.loop + later.countP (·.isLoop) ≤ 6 ∧ ticksLeft h.loop + later.countP (·.isTick) ≤ 1 := by
  induction hr generalizing later with
  | spawn => simp at he
  | @step events event h h' run step ih =>
      cases later with
      | nil =>
          rw [List.countP_nil, List.countP_nil]
          exact rank_le _
      | cons e later =>
          obtain ⟨rfl, rfl⟩ := List.cons.inj he
          obtain ⟨hrank, hticks⟩ := ih rfl
          obtain ⟨hr, ht⟩ := step.rank (run.stop_of_mem (by simp))
          rw [List.countP_cons, List.countP_cons]
          omega

/-- A loop that is not over can always go on. -/
theorem exists_loop_step (hM : M.Total) (hover : h.loop.isOver = false) :
    ∃ event h', event.isLoop = true ∧ Step M h event h' := by
  cases hl : h.loop with
  | top => exact ⟨_, _, rfl, .take hl⟩
  | checkpointing =>
      obtain ⟨⟨d', panicked, hcall⟩, -⟩ := hM h.driver
      exact ⟨_, _, rfl, .checkpoint hl hcall⟩
  | ticking =>
      obtain ⟨-, d', panicked, hcall⟩ := hM h.driver
      exact ⟨_, _, rfl, .tick hl hcall⟩
  | caught panicked => exact ⟨_, _, rfl, .publish hl⟩
  | sent panicked => exact ⟨_, _, rfl, .leave hl⟩
  | delaying => exact ⟨_, _, rfl, .delay hl⟩
  | waiting w => exact ⟨_, _, rfl, .wake hl true⟩
  | returned => simp [hl, LoopAt.isOver] at hover
  | unwound => simp [hl, LoopAt.isOver] at hover

/-- A loop that is over stays so. -/
theorem Step.over (hstep : Step M h event h') (hover : h.loop.isOver = true) :
    h'.loop = h.loop ∧ h'.driver = h.driver := by
  cases hstep with
  | take at_ => simp [at_, LoopAt.isOver] at hover
  | checkpoint at_ call => simp [at_, LoopAt.isOver] at hover
  | tick at_ call => simp [at_, LoopAt.isOver] at hover
  | publish at_ => simp [at_, LoopAt.isOver] at hover
  | leave at_ => simp [at_, LoopAt.isOver] at hover
  | delay at_ => simp [at_, LoopAt.isOver] at hover
  | wake at_ timedOut => simp [at_, LoopAt.isOver] at hover
  | notify due =>
      refine ⟨?_, rfl⟩
      cases hl : h.loop with
      | waiting w => simp [hl, LoopAt.isOver] at hover
      | _ => rfl
  | _ => exact ⟨rfl, rfl⟩

/-- The driver that `shutdown` returns is the one the loop left. -/
theorem Run.joined (hr : Run M d₀ events h) {d : D} (hmem : .joined (some d) ∈ events) :
    h.loop = .returned ∧ h.driver = d := by
  induction hr with
  | spawn => cases hmem
  | @step events event h h' run step ih =>
      rcases List.mem_cons.mp hmem with rfl | hmem
      · generalize he : Event.joined (some d) = event at step
        cases step with
        | join at_ ended =>
            split_ifs at he with hl
            · cases he
              exact ⟨hl, rfl⟩
            · cases he
        | _ => cases he
      · obtain ⟨hl, rfl⟩ := ih hmem
        obtain ⟨hloop, hdriver⟩ := step.over (by rw [hl]; rfl)
        exact ⟨hloop.trans hl, hdriver⟩

/-- **Shutdown ends the loop.**  Once `stop` is set, the loop starts at most one more tick and
takes at most six more steps; until it is over it can go on, and if it sleeps, a notification is
due.  What it returns is the driver whose status was published last. -/
theorem Run.shutdown_ends (hM : M.Total) (hr : Run M d₀ events h)
    {later earlier : List (Event D S)} (he : events = later ++ .stopped :: earlier) :
    later.countP (·.isTick) ≤ 1 ∧ later.countP (·.isLoop) ≤ 6 ∧
      (h.loop.isOver = false → ∃ event h', event.isLoop = true ∧ Step M h event h') ∧
      (h.loop = .waiting .asleep → 0 < h.owed) ∧
      ∀ d, .joined (some d) ∈ events → M.status d = lastPublished (M.status d₀) events := by
  obtain ⟨hrank, hticks⟩ := hr.after_stop he
  have hstop := hr.stop_of_mem (by rw [he]; simp)
  refine ⟨by omega, by omega, exists_loop_step hM, ?_, ?_⟩
  · intro hl
    exact hr.inv.wakes _ hl rfl (.inl hstop)
  · intro d hd
    obtain ⟨hl, rfl⟩ := hr.joined hd
    rw [← hr.value]
    exact (hr.inv.value (by rw [hl]; rfl)).symm

/-! ### Requests -/

/-- A request that no checkpoint has followed is still counted, until the loop takes it and is
about to checkpoint. -/
theorem Run.unserved (hr : Run M d₀ events h) {later earlier : List (Event D S)}
    (he : events = later ++ .requested :: earlier) (hno : .checkpointed ∉ later) :
    (∀ n, .took n ∉ later) ∧ 0 < h.checkpointRequests ∨ h.loop = .checkpointing := by
  induction hr generalizing later with
  | spawn => simp at he
  | @step events event h h' run step ih =>
      cases later with
      | nil =>
          obtain ⟨rfl, rfl⟩ := List.cons.inj he
          cases step with
          | request at_ => exact .inl ⟨by simp, by simp [satAdd, U64_MAX]⟩
      | cons e later =>
          obtain ⟨rfl, rfl⟩ := List.cons.inj he
          have hne : event ≠ .checkpointed := fun h => hno (by simp [h])
          rcases ih rfl (fun h => hno (List.mem_cons_of_mem _ h)) with ⟨htook, hpos⟩ | hl
          · cases step with
            | take at_ =>
                right
                exact if_pos hpos
            | checkpoint at_ call => exact absurd rfl hne
            | request at_ =>
                left
                exact ⟨by simpa using htook, by simp [satAdd, U64_MAX]⟩
            | _ =>
                left
                exact ⟨by simpa using htook, hpos⟩
          · right
            cases step with
            | take at_ => simp [hl] at at_
            | checkpoint at_ call => exact absurd rfl hne
            | tick at_ call => simp [hl] at at_
            | publish at_ => simp [hl] at at_
            | leave at_ => simp [hl] at at_
            | delay at_ => simp [hl] at at_
            | wake at_ timedOut => simp [hl] at at_
            | notify due => rw [show h.loop.notify = h.loop by rw [hl]; rfl, hl]
            | _ => exact hl

/-- Between a checkpoint and the next tick the loop does not get to another checkpoint. -/
theorem Run.checkpointed (hr : Run M d₀ events h) {later earlier : List (Event D S)}
    (he : events = later ++ .checkpointed :: earlier) (hno : .ticked ∉ later) :
    h.loop = .ticking ∨ h.loop = .caught true ∨ h.loop = .sent true ∨ h.loop.isOver = true := by
  induction hr generalizing later with
  | spawn => simp at he
  | @step events event h h' run step ih =>
      cases later with
      | nil =>
          obtain ⟨rfl, rfl⟩ := List.cons.inj he
          cases step with
          | checkpoint at_ call =>
              dsimp only
              split_ifs
              · exact .inr (.inl rfl)
              · exact .inl rfl
      | cons e later =>
          obtain ⟨rfl, rfl⟩ := List.cons.inj he
          have hstay : h'.loop = h.loop → h'.loop = .ticking ∨ h'.loop = .caught true ∨
              h'.loop = .sent true ∨ h'.loop.isOver = true := by
            intro hloop
            rw [hloop]
            exact ih rfl (fun h => hno (List.mem_cons_of_mem _ h))
          rcases ih rfl (fun h => hno (List.mem_cons_of_mem _ h)) with hl | hl | hl | hl
          · cases step with
            | tick at_ call => exact absurd (by simp) hno
            | notify due => exact hstay (by simp [hl, LoopAt.notify])
            | _ => first | exact hstay rfl | simp [hl] at *
          · cases step with
            | publish at_ =>
                rw [hl] at at_
                cases at_
                exact .inr (.inr (.inl rfl))
            | notify due => exact hstay (by simp [hl, LoopAt.notify])
            | _ => first | exact hstay rfl | simp [hl] at *
          · cases step with
            | leave at_ =>
                rw [hl] at at_
                cases at_
                right; right; right
                cases M.isTerminal h.value <;> simp [LoopAt.isOver]
            | notify due => exact hstay (by simp [hl, LoopAt.notify])
            | _ => first | exact hstay rfl | simp [hl] at *
          · exact hstay (step.over hl).1

/-- The checkpoints that the requests still call for. -/
def pending (h : Harness D S) : ℕ :=
  (if h.loop = .checkpointing then 1 else 0) + (if 0 < h.checkpointRequests then 1 else 0)

theorem Step.pending (hstep : Step M h event h') :
    pending h' + (if event.isCheckpoint then 1 else 0) ≤
      pending h + (if event.isRequest then 1 else 0) := by
  cases hstep with
  | take at_ =>
      unfold Harness.pending
      by_cases hreq : 0 < h.checkpointRequests <;>
        simp [at_, hreq, Event.isCheckpoint, Event.isRequest]
  | checkpoint at_ call =>
      unfold Harness.pending
      split_ifs <;> simp_all [Event.isCheckpoint, Event.isRequest]
  | tick at_ call => simp [Harness.pending, Event.isCheckpoint, Event.isRequest]
  | publish at_ => simp [Harness.pending, Event.isCheckpoint, Event.isRequest]
  | leave at_ =>
      unfold Harness.pending
      split_ifs <;> simp_all [Event.isCheckpoint, Event.isRequest]
  | delay at_ =>
      unfold Harness.pending look
      split_ifs <;> simp_all [Event.isCheckpoint, Event.isRequest]
  | wake at_ timedOut =>
      unfold Harness.pending look
      split_ifs <;> simp_all [Event.isCheckpoint, Event.isRequest]
  | request at_ =>
      unfold Harness.pending
      split_ifs <;> simp_all [Event.isCheckpoint, Event.isRequest]
  | notify due =>
      unfold Harness.pending
      cases h.loop <;> simp [LoopAt.notify, Event.isCheckpoint, Event.isRequest]
  | _ => exact le_rfl

/-- Every checkpoint was asked for. -/
theorem Run.countP_checkpoint (hr : Run M d₀ events h) :
    events.countP (·.isCheckpoint) + pending h ≤ events.countP (·.isRequest) := by
  induction hr with
  | spawn => simp [Harness.spawn, pending]
  | step run step ih =>
      have hstep := step.pending
      rw [List.countP_cons, List.countP_cons]
      omega

theorem Run.split {later earlier : List (Event D S)}
    (hr : Run M d₀ (later ++ event :: earlier) h) :
    ∃ h₁ h₂, Run M d₀ earlier h₁ ∧ Step M h₁ event h₂ := by
  generalize he : later ++ event :: earlier = events at hr
  induction hr generalizing later with
  | spawn => simp at he
  | step run step ih =>
      cases later with
      | nil =>
          obtain ⟨rfl, rfl⟩ := List.cons.inj he
          exact ⟨_, _, run, step⟩
      | cons e later => exact ih (List.cons.inj he).2

/-- **No request is lost, and requests coalesce.**  A tick of an iteration that begins after a
request comes after a checkpoint that answers it; between two checkpoints there is a tick, and
each has a request of its own. -/
theorem Run.requests_served (hr : Run M d₀ events h) :
    (∀ l₁ l₂ l₃ n, events = l₁ ++ .ticked :: (l₂ ++ .requested :: l₃) → .took n ∈ l₂ →
      .checkpointed ∈ l₂) ∧
    (∀ l₁ l₂ l₃, events = l₁ ++ .checkpointed :: (l₂ ++ .checkpointed :: l₃) → .ticked ∈ l₂) ∧
    events.countP (·.isCheckpoint) ≤ events.countP (·.isRequest) ∧
    (h.loop = .waiting .asleep → h.checkpointRequests ≠ 0 → 0 < h.owed) := by
  refine ⟨?_, ?_, ?_, ?_⟩
  · rintro l₁ l₂ l₃ n rfl htook
    by_contra hno
    obtain ⟨h₁, h₂, hr₁, hstep⟩ := hr.split
    rcases hr₁.unserved rfl hno with ⟨hnone, -⟩ | hl
    · exact hnone n htook
    · cases hstep with
      | tick at_ call => simp [hl] at at_
  · rintro l₁ l₂ l₃ rfl
    by_contra hno
    obtain ⟨h₁, h₂, hr₁, hstep⟩ := hr.split
    cases hstep with
    | checkpoint at_ call => simpa [at_, LoopAt.isOver] using hr₁.checkpointed rfl hno
  · exact (Nat.le_add_right _ _).trans hr.countP_checkpoint
  · intro hl hreq
    exact hr.inv.wakes _ hl rfl (.inr hreq)

/-! ### Waits -/

/-- **What a wait returns** is the status that was published last, and the wait accepts it unless
a call of the driver panicked. -/
theorem Run.wait_answers (hr : Run M d₀ events h) {accept : S → Bool} {status : S}
    (haccept : ∀ s, M.isTerminal s = true → accept s = true) {later earlier : List (Event D S)}
    (he : events = later ++ .settled accept status :: earlier) :
    status = lastPublished (M.status d₀) earlier ∧ (accept status = true ∨ h.loop = .unwound) := by
  induction hr generalizing later with
  | spawn => simp at he
  | @step events event h h' run step ih =>
      cases later with
      | nil =>
          obtain ⟨rfl, rfl⟩ := List.cons.inj he
          refine ⟨?_, ?_⟩
          · cases step with
            | accept at_ new accepts => exact run.value
            | closed at_ ended => exact run.value
          · cases step with
            | accept at_ new accepts => exact .inl accepts
            | closed at_ ended =>
                right
                obtain ⟨-, hrejected⟩ := run.inv.seen _ _ at_
                cases hl : h.loop with
                | unwound => rfl
                | returned =>
                    exfalso
                    rcases run.inv.returned hl with hstop | hterminal
                    · rcases run.inv.stopped hstop with hh | hh
                      · simp [at_] at hh
                      · simp [at_] at hh
                    · have haccepts := haccept _ hterminal
                      rw [hrejected rfl] at haccepts
                      cases haccepts
                | _ => simp [hl, LoopAt.isOver] at ended
      | cons e later =>
          obtain ⟨rfl, rfl⟩ := List.cons.inj he
          obtain ⟨hstatus, haccepted | hl⟩ := ih rfl
          · exact ⟨hstatus, .inl haccepted⟩
          · exact ⟨hstatus, .inr ((step.over (by rw [hl]; rfl)).1.trans hl)⟩

end Harness

/-! ### The harness of a driver -/

variable {σ E ε κ : Type}

namespace Harness

variable {A : Fold σ E ε} {K : Sink κ σ} {chains : Set (Chain E)} {rule : Trace E → Prop}
variable {delays : Delays} {d₀ d : Driver σ κ} {h : Harness (Driver σ κ) DriverStatus}
variable {events : List (Event (Driver σ κ) DriverStatus)}

/-- The harness only does what a caller of the driver may do. -/
theorem Run.next (hr : Run (driverMachine A K chains rule delays) d₀ events h) :
    Relation.ReflTransGen (Next A K chains rule) d₀ h.driver := by
  induction hr with
  | spawn => exact .refl
  | step run step ih =>
      cases step with
      | checkpoint at_ call =>
          obtain ⟨rfl, -⟩ := call
          exact ih.tail .checkpoint
      | tick at_ call =>
          obtain ⟨⟨t, τ, hrun, honest, hrule⟩, -⟩ := call
          exact ih.tail (.tick hrun honest hrule)
      | _ => exact ih

/-- **The driver that `shutdown` returns** has folded exactly the events that its cursor covers,
and its status is the one that was published last. -/
theorem Run.returned_follows (hA : TidyFold A) (hcom : Committed chains) {fold : σ}
    {config : DriverConfig} (hd₀ : Reached A K chains Bracketed fold config d₀)
    (hr : Run (driverMachine A K chains Bracketed delays) d₀ events h)
    (hmem : .joined (some d) ∈ events) :
    Follows A chains config.startBlock fold d.engine ∧
      d.status K = lastPublished (d₀.status K) events := by
  obtain ⟨hl, rfl⟩ := hr.joined hmem
  refine ⟨?_, ?_⟩
  · obtain ⟨sink, engineConfig, τ, d₁, hbuild, hrun⟩ := hd₀
    have hreached : Reached A K chains Bracketed fold config h.driver :=
      ⟨sink, engineConfig, τ, d₁, hbuild, hrun.trans hr.next⟩
    obtain ⟨hkept, rfl, rfl⟩ := hreached.kept hcom fun τ hτ hb => bracketed_rule hτ hb
    exact hkept.sound.follows_chain hcom (Or.inr hA)
  · have hvalue := hr.inv.value (by rw [hl]; rfl)
    rw [hr.value] at hvalue
    exact hvalue.symm

end Harness

/-! ### A small run -/

theorem Driver.Ticks.scripted {A : Fold σ E ε} {K : Sink κ σ} {chains : Set (Chain E)}
    {C : Chain E} {window n : ℕ} {d : Driver σ κ} (hC : C ∈ chains)
    (h : (d.tickOn A K window (List.replicate n (true, C))).isSome = true) :
    d.Ticks A K chains Bracketed (d.ticked A K window (List.replicate n (true, C))) := by
  obtain ⟨t, ht⟩ := Option.isSome_iff_exists.mp h
  have hrun := scripted_step ht
  exact .of_answered hC (runsOn_scripted .genesis window hrun).1
    (answeredBy_scripted .genesis window hrun)

def sampleMachine : Machine (Driver UInt64 Unit) DriverStatus :=
  driverMachine sumFold noSink sampleChains Bracketed ⟨5, 1, 8⟩

/-- The driver after a checkpoint and a tick, and the one after another tick. -/
def harnessTicked : Driver UInt64 Unit :=
  sampleDriver.checkpoint.ticked sumFold noSink 1 (List.replicate 8 (true, longChain))

def harnessIdle : Driver UInt64 Unit :=
  harnessTicked.ticked sumFold noSink 1 (List.replicate 8 (true, longChain))

/-- A request, a wait, two iterations of the loop, and the end. -/
def harnessEvents : List (Event (Driver UInt64 Unit) DriverStatus) :=
  [.joined (some harnessIdle), .checked, .stopped,
    .settled waitCaughtUp (harnessIdle.status noSink), .published (harnessIdle.status noSink),
    .ticked, .took 0, .notified, .checked, .checked, .asked,
    .published (harnessTicked.status noSink), .ticked, .checkpointed, .took 1, .asked, .requested]

open Harness in
theorem harnessRun : ∃ h, Run sampleMachine sampleDriver harnessEvents h := by
  have hlong : longChain ∈ sampleChains := Or.inl rfl
  have h₁ : Run sampleMachine sampleDriver [.took 1, .asked, .requested] _ :=
    .step (.step (.step .spawn (.request rfl)) (.settle rfl waitCaughtUp)) (.take rfl)
  have h₂ : Run sampleMachine sampleDriver [.published (harnessTicked.status noSink), .ticked,
      .checkpointed, .took 1, .asked, .requested] _ :=
    .step (.step (.step h₁ (.checkpoint rfl ⟨rfl, rfl⟩))
      (.tick rfl ⟨.scripted hlong rfl, rfl⟩)) (.publish rfl)
  have h₃ : Run sampleMachine sampleDriver [.notified, .checked, .checked, .asked,
      .published (harnessTicked.status noSink), .ticked, .checkpointed, .took 1, .asked, .requested]
      _ :=
    .step (.step (.step (.step h₂ (.reject rfl nofun rfl)) (.leave rfl)) (.delay rfl))
      (.notify (by decide))
  have h₄ : Run sampleMachine sampleDriver (.settled waitCaughtUp (harnessIdle.status noSink) ::
      .published (harnessIdle.status noSink) :: .ticked :: .took 0 :: harnessEvents.drop 7) _ :=
    .step (.step (.step (.step h₃ (.take rfl)) (.tick rfl ⟨.scripted hlong rfl, rfl⟩))
      (.publish rfl)) (.accept rfl (by decide) rfl)
  exact ⟨_, .step (.step (.step h₄ (.shutdown rfl)) (.leave rfl)) (.join rfl rfl)⟩

theorem harnessRun_shutdown : ([.joined (some harnessIdle), .checked] : List
      (Event (Driver UInt64 Unit) DriverStatus)).countP (·.isLoop) ≤ 6 ∧
    harnessIdle.status noSink =
      Harness.lastPublished (sampleDriver.status noSink) harnessEvents := by
  obtain ⟨h, hr⟩ := harnessRun
  have hevents : harnessEvents =
      [.joined (some harnessIdle), .checked] ++ .stopped :: harnessEvents.drop 3 := rfl
  obtain ⟨-, hloop, -, -, hjoined⟩ :=
    hr.shutdown_ends (driverMachine_total ⟨longChain, Or.inl rfl⟩) hevents
  exact ⟨hloop, hjoined _ (by simp [harnessEvents])⟩

theorem harnessRun_served : .checkpointed ∈ ([.checkpointed, .took 1, .asked] : List
      (Event (Driver UInt64 Unit) DriverStatus)) ∧
    harnessEvents.countP (·.isCheckpoint) ≤ 1 := by
  obtain ⟨h, hr⟩ := harnessRun
  obtain ⟨hserved, -, hcount, -⟩ := hr.requests_served
  exact ⟨hserved (harnessEvents.take 12) _ [] 1 rfl (by simp), hcount⟩

theorem harnessRun_answers : ∃ h, Harness.Run sampleMachine sampleDriver harnessEvents h ∧
    (waitCaughtUp (harnessIdle.status noSink) = true ∨ h.loop = .unwound) := by
  obtain ⟨h, hr⟩ := harnessRun
  have hevents : harnessEvents = harnessEvents.take 3 ++
      .settled waitCaughtUp (harnessIdle.status noSink) :: harnessEvents.drop 4 := rfl
  exact ⟨h, hr, (hr.wait_answers (orTerminal_of_isTerminal _) hevents).2⟩

theorem harnessRun_follows : harnessIdle.engine.fold = 10 ∧
    Follows sumFold sampleChains 0 0 harnessIdle.engine := by
  obtain ⟨h, hr⟩ := harnessRun
  exact ⟨rfl, (hr.returned_follows sumFold_tidy sampleChains_committed
    (sampleDriver_reached Bracketed) (by simp [harnessEvents])).1⟩

end Works.Chainfold
