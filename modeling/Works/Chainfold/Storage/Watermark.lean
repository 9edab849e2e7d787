import Works.Chainfold.Restart
import Works.Chainfold.Storage.Flusher
import Mathlib.Data.List.TakeWhile

/-! # The watermark

What a run of the flusher says about the watermark, whatever the order of the steps.  The jobs that
are under way leave the apply thread, the queue and the flusher thread in the order in which they
were offered (`FlushInv.flow`).  The epoch counts the resets and wraps: a job is published in its
own epoch when the resets since its offer are a multiple of 2^64.

Where that means that there were none (`Timely`), the watermark is the cursor of the last job that
was offered after the last reset and published since (`FlushRun.watermark_follows`). -/

namespace Works.Chainfold

open Works.Lib

variable {σ π : Type}

/-! ### What a run has shown -/

namespace FlushEvent

def isReset : FlushEvent σ → Bool
  | .reset => true
  | _ => false

def offeredJob : FlushEvent σ → Option Job
  | .offered job => some job
  | _ => none

def publishedJob : FlushEvent σ → Option Job
  | .published job => some job
  | _ => none

def committedJob : FlushEvent σ → Option Job
  | .committed job => some job
  | _ => none

end FlushEvent

/-- The jobs that were offered, the latest first. -/
def offeredJobs (τ : List (FlushEvent σ)) : List Job := τ.filterMap (·.offeredJob)

/-- The jobs that were published, the latest first. -/
def publishedJobs (τ : List (FlushEvent σ)) : List Job := τ.filterMap (·.publishedJob)

/-- The jobs whose commit succeeded. -/
def committedJobs (τ : List (FlushEvent σ)) : List Job := τ.filterMap (·.committedJob)

/-- How often the flusher was reset. -/
def resetCount (τ : List (FlushEvent σ)) : ℕ := τ.countP (·.isReset)

/-- What a run has shown since the last reset. -/
def sinceReset (τ : List (FlushEvent σ)) : List (FlushEvent σ) := τ.takeWhile fun ev => !ev.isReset

/-- The resets since a job was offered. -/
def age (job : Job) (τ : List (FlushEvent σ)) : ℕ :=
  resetCount (τ.takeWhile fun ev => !decide (ev.offeredJob = some job))

/-- The jobs that were offered and published since the last reset, the latest first. -/
def landed (τ : List (FlushEvent σ)) : List Job :=
  (publishedJobs (sinceReset τ)).filter fun job => decide (job ∈ offeredJobs (sinceReset τ))

/-- No job was published after as many resets as the epoch can count. -/
def Timely (τ : List (FlushEvent σ)) : Prop :=
  ∀ τ₂ job τ₁, τ = τ₂ ++ .published job :: τ₁ → age job τ₁ < 2 ^ 64

theorem Timely.tail {ev : FlushEvent σ} {τ : List (FlushEvent σ)} (h : Timely (ev :: τ)) :
    Timely τ := by
  rintro τ₂ job τ₁ rfl
  exact h (ev :: τ₂) job τ₁ rfl

/-- The watermark that a run leads to. -/
def expected (opened : Cursor) (τ : List (FlushEvent σ)) : Cursor :=
  match (landed τ).head? with
  | some job => job.cursor
  | none => if resetCount τ = 0 then opened else none

/-! ### What a step can do -/

/-- The jobs under way, the latest first. -/
def Flushing.pending (s : Flushing) : List Job :=
  (match s.caller with
    | .sending job => [job]
    | _ => []) ++ s.queue.reverse ++
  match s.worker with
    | .received job => [job]
    | .committed job => [job]
    | .failed job => [job]
    | _ => []

/-- What a step does to the jobs under way, to the epoch and to the watermark. -/
inductive FlushEffect (s : Flushing) (ev : FlushEvent σ) (s' : Flushing) : Prop
  | quiet (offered : ev.offeredJob = none) (published : ev.publishedJob = none)
      (reset : ev.isReset = false) (pending : s'.pending.Sublist s.pending)
      (epoch : s'.epoch = s.epoch) (watermark : s'.watermark = s.watermark)
      (offers : s'.offers = s.offers)
  | offered (job : Job) (shows : ev = .offered job) (pending : s'.pending = job :: s.pending)
      (stamped : job.epoch = s.epoch) (number : job.number = s.offers)
      (epoch : s'.epoch = s.epoch) (watermark : s'.watermark = s.watermark)
      (offers : s'.offers = s.offers + 1)
  | reset (shows : ev = .reset) (pending : s'.pending = s.pending)
      (epoch : s'.epoch = s.epoch + 1) (watermark : s'.watermark = none)
      (offers : s'.offers = s.offers)
  | published (job : Job) (shows : ev = .published job) (worker : s.worker = .committed job)
      (pending : s.pending = s'.pending ++ [job]) (epoch : s'.epoch = s.epoch)
      (watermark : s'.watermark =
        if s.epoch = job.epoch then s.store.durableCursor else s.watermark)
      (offers : s'.offers = s.offers)

section Step

variable {P : Persist σ π} {W : Wincode} {crc : Crc} {s s' : Flushing} {ev : FlushEvent σ}

theorem FlushStep.effect (h : FlushStep P W crc s ev s') : FlushEffect s ev s' := by
  cases h with
  | nothing idle encoded => exact .quiet rfl rfl rfl (List.Sublist.refl _) rfl rfl rfl
  | unencodable idle encoded => exact .quiet rfl rfl rfl (List.Sublist.refl _) rfl rfl rfl
  | refuse idle encoded noticed => exact .quiet rfl rfl rfl (List.Sublist.refl _) rfl rfl rfl
  | accept idle encoded clear =>
      refine .quiet rfl rfl rfl ?_ rfl rfl rfl
      simp [Flushing.pending, idle]
  | acquire caller free =>
      refine .quiet rfl rfl rfl ?_ rfl rfl rfl
      simp [Flushing.pending, caller]
  | stamp caller =>
      refine .offered _ rfl ?_ rfl rfl rfl rfl rfl
      simp [Flushing.pending, caller]
  | send caller running room =>
      refine .quiet rfl rfl rfl ?_ rfl rfl rfl
      simp [Flushing.pending, caller]
  | disconnect caller stopped =>
      refine .quiet rfl rfl rfl ?_ rfl rfl rfl
      simp [Flushing.pending, caller]
  | reset idle => exact .reset rfl rfl rfl rfl rfl
  | receive waiting queue =>
      refine .quiet rfl rfl rfl ?_ rfl rfl rfl
      simp [Flushing.pending, waiting, queue]
  | skip worker poisoned =>
      refine .quiet rfl rfl rfl ?_ rfl rfl rfl
      simp [Flushing.pending, worker]
  | commit worker clear run =>
      refine .quiet rfl rfl rfl ?_ rfl rfl rfl
      simp [Flushing.pending, worker]
  | fail worker clear run =>
      refine .quiet rfl rfl rfl ?_ rfl rfl rfl
      simp [Flushing.pending, worker]
  | die worker clear run =>
      refine .quiet rfl rfl rfl ?_ rfl rfl rfl
      simp [Flushing.pending]
  | publish worker =>
      refine .published _ rfl worker ?_ rfl rfl rfl
      simp [Flushing.pending, worker]
  | poison worker =>
      refine .quiet rfl rfl rfl ?_ rfl rfl rfl
      simp [Flushing.pending, worker]
  | notice poisoned => exact .quiet rfl rfl rfl (List.Sublist.refl _) rfl rfl rfl

/-- A commit that succeeded and is not published yet. -/
def Settled (τ : List (FlushEvent σ)) (s : Flushing) : Prop :=
  ∀ job, s.worker = .committed job → job ∈ committedJobs τ ∧ s.store.durableCursor = job.cursor

theorem Settled.step {τ : List (FlushEvent σ)} (hs : Settled τ s) (h : FlushStep P W crc s ev s') :
    Settled (ev :: τ) s' := by
  -- a step other than a commit leaves a job that waits to be published with its store
  have hsame : s'.worker = s.worker → s'.store = s.store → Settled (ev :: τ) s' := by
    intro hworker hstore job hjob
    obtain ⟨hmem, hcur⟩ := hs job (hworker ▸ hjob)
    refine ⟨?_, hstore ▸ hcur⟩
    rw [committedJobs, List.filterMap_cons]
    cases ev.committedJob with
    | none => exact hmem
    | some other => exact List.mem_cons_of_mem _ hmem
  have hother : (∀ job, s'.worker ≠ .committed job) → Settled (ev :: τ) s' :=
    fun hne job hjob => absurd hjob (hne job)
  cases h with
  | nothing idle encoded => exact hsame rfl rfl
  | unencodable idle encoded => exact hsame rfl rfl
  | refuse idle encoded noticed => exact hsame rfl rfl
  | accept idle encoded clear => exact hsame rfl rfl
  | acquire caller free => exact hsame rfl rfl
  | stamp caller => exact hsame rfl rfl
  | send caller running room => exact hsame rfl rfl
  | disconnect caller stopped => exact hsame rfl rfl
  | reset idle => exact hsame rfl rfl
  | notice poisoned => exact hsame rfl rfl
  | receive waiting queue => exact hother (by simp)
  | skip worker poisoned => exact hother (by simp)
  | fail worker clear run => exact hother (by simp)
  | die worker clear run => exact hother (by simp)
  | publish worker => exact hother (by simp)
  | poison worker => exact hother (by simp)
  | commit worker clear run =>
      intro job hjob
      cases hjob
      exact ⟨by simp [committedJobs, FlushEvent.committedJob], SnapshotStore.commit_ok run⟩

end Step

/-! ### What may still be published -/

/-- The cursors of the jobs under way that belong to the current epoch. -/
def Flushing.offered (s : Flushing) : Set Cursor :=
  {c | ∃ job ∈ s.pending, job.epoch = s.epoch ∧ job.cursor = c}

/-- The flusher is a sink that publishes what it was offered:  an offer adds its cursor and leaves the
watermark, a reset clears the watermark and, unless the epoch wraps onto that of a job under way, all
that may be published, and any other step can only publish. -/
theorem FlushStep.publishes {P : Persist σ π} {W : Wincode} {crc : Crc} {s s' : Flushing}
    {ev : FlushEvent σ} {τ : List (FlushEvent σ)} (hs : Settled τ s)
    (h : FlushStep P W crc s ev s') :
    (∀ job, ev = .offered job → s'.watermark = s.watermark ∧
      s'.offered ⊆ s.offered ∪ {job.cursor}) ∧
    (ev = .reset → s'.watermark = none ∧
      ((∀ job ∈ s.pending, job.epoch ≠ s.epoch + 1) → s'.offered = ∅)) ∧
    (ev.offeredJob = none → ev.isReset = false → s'.offered ⊆ s.offered ∧
      (s'.watermark = s.watermark ∨ s'.watermark ∈ s.offered)) := by
  cases h.effect with
  | quiet offered published reset pending epoch watermark offers =>
      refine ⟨fun job hev => ?_, fun hev => ?_, fun _ _ => ⟨?_, Or.inl watermark⟩⟩
      · rw [hev] at offered
        cases offered
      · rw [hev] at reset
        cases reset
      · rintro c ⟨job, hjob, hepoch, hc⟩
        exact ⟨job, pending.subset hjob, hepoch.trans epoch, hc⟩
  | offered job shows pending stamped number epoch watermark offers =>
      refine ⟨fun job' hev => ⟨watermark, ?_⟩, fun hev => ?_, fun hev => ?_⟩
      · rw [shows] at hev
        cases hev
        rintro c ⟨other, hother, hepoch, hc⟩
        rw [pending] at hother
        cases List.mem_cons.mp hother with
        | inl heq => exact Or.inr (heq ▸ hc.symm)
        | inr hmem => exact Or.inl ⟨other, hmem, hepoch.trans epoch, hc⟩
      · rw [shows] at hev
        cases hev
      · rw [shows] at hev
        cases hev
  | reset shows pending epoch watermark offers =>
      refine ⟨fun job hev => ?_, fun _ => ⟨watermark, fun hnone => ?_⟩, fun _ hev => ?_⟩
      · rw [shows] at hev
        cases hev
      · refine Set.eq_empty_of_forall_notMem ?_
        rintro c ⟨job, hjob, hepoch, -⟩
        exact hnone job (pending ▸ hjob) (hepoch.trans epoch)
      · rw [shows] at hev
        cases hev
  | published job shows worker pending epoch watermark offers =>
      have hmem : job ∈ s.pending := by rw [pending]; simp
      refine ⟨fun job' hev => ?_, fun hev => ?_, fun _ _ => ⟨?_, ?_⟩⟩
      · rw [shows] at hev
        cases hev
      · rw [shows] at hev
        cases hev
      · rintro c ⟨other, hother, hepoch, hc⟩
        refine ⟨other, ?_, hepoch.trans epoch, hc⟩
        rw [pending]
        exact List.mem_append_left _ hother
      · rw [watermark]
        by_cases hnow : s.epoch = job.epoch
        · rw [if_pos hnow, (hs job worker).2]
          exact Or.inr ⟨job, hmem, hnow.symm, rfl⟩
        · rw [if_neg hnow]
          exact Or.inl rfl

/-! ### Since the last reset -/

section Trace

variable {τ : List (FlushEvent σ)} {ev : FlushEvent σ} {job : Job}

theorem sinceReset_cons_of_not (h : ev.isReset = false) : sinceReset (ev :: τ) = ev :: sinceReset τ := by
  rw [sinceReset, List.takeWhile_cons, h]
  rfl

theorem sinceReset_reset : sinceReset (.reset :: τ) = [] := rfl

theorem sinceReset_sublist (τ : List (FlushEvent σ)) : (sinceReset τ).Sublist τ :=
  (List.takeWhile_prefix _).sublist

theorem isReset_of_offeredJob (h : ev.offeredJob = some job) : ev.isReset = false := by
  cases ev <;> simp_all [FlushEvent.offeredJob, FlushEvent.isReset]

theorem age_cons_of_ne (h : ev.offeredJob ≠ some job) :
    age job (ev :: τ) = age job τ + if ev.isReset then 1 else 0 := by
  rw [age, List.takeWhile_cons, if_pos (by simpa using h), resetCount, List.countP_cons]
  rfl

theorem age_cons_self (h : ev.offeredJob = some job) : age job (ev :: τ) = 0 := by
  rw [age, List.takeWhile_cons, if_neg (by simp [h])]
  rfl

/-- A job is of age zero when it was offered since the last reset. -/
theorem age_eq_zero_iff (h : job ∈ offeredJobs τ) :
    age job τ = 0 ↔ job ∈ offeredJobs (sinceReset τ) := by
  induction τ with
  | nil => simp [offeredJobs] at h
  | cons ev τ ih =>
      by_cases hev : ev.offeredJob = some job
      · rw [age_cons_self hev, sinceReset_cons_of_not (isReset_of_offeredJob hev)]
        simp [offeredJobs, hev]
      · have hmem : job ∈ offeredJobs τ := by
          rw [offeredJobs, List.filterMap_cons] at h
          cases hoff : ev.offeredJob with
          | none => rwa [hoff] at h
          | some other =>
              rw [hoff] at h
              cases List.mem_cons.mp h with
              | inl heq => exact absurd (hoff.trans (congrArg some heq.symm)) hev
              | inr hmem => exact hmem
        rw [age_cons_of_ne hev]
        cases hreset : ev.isReset with
        | true =>
            rw [sinceReset, List.takeWhile_cons, hreset]
            simp [offeredJobs]
        | false =>
            rw [sinceReset_cons_of_not hreset, if_neg (by simp), Nat.add_zero, ih hmem, offeredJobs,
              offeredJobs, List.filterMap_cons]
            cases hoff : ev.offeredJob with
            | none => rfl
            | some other =>
                have hne : job ≠ other := fun heq => hev (hoff.trans (congrArg some heq.symm))
                simp [hne]

theorem landed_cons_of_quiet (hoff : ev.offeredJob = none) (hpub : ev.publishedJob = none)
    (hreset : ev.isReset = false) : landed (ev :: τ) = landed τ := by
  have hoffs : offeredJobs (ev :: sinceReset τ) = offeredJobs (sinceReset τ) := by
    simp [offeredJobs, hoff]
  have hpubs : publishedJobs (ev :: sinceReset τ) = publishedJobs (sinceReset τ) := by
    simp [publishedJobs, hpub]
  unfold landed
  rw [sinceReset_cons_of_not hreset, hpubs]
  exact List.filter_congr fun other _ => by rw [hoffs]

theorem landed_offered (hnew : job ∉ publishedJobs τ) : landed (.offered job :: τ) = landed τ := by
  unfold landed
  rw [sinceReset_cons_of_not rfl]
  refine List.filter_congr fun other hother => ?_
  have hne : other ≠ job := by
    rintro rfl
    exact hnew (((sinceReset_sublist τ).filterMap _).subset hother)
  simp [offeredJobs, FlushEvent.offeredJob, hne]

theorem landed_published : landed (.published job :: τ) =
    if job ∈ offeredJobs (sinceReset τ) then job :: landed τ else landed τ := by
  have hoffs : offeredJobs (.published job :: sinceReset τ) = offeredJobs (sinceReset τ) := rfl
  have hpubs : publishedJobs (.published job :: sinceReset τ) =
    job :: publishedJobs (sinceReset τ) := rfl
  unfold landed
  rw [sinceReset_cons_of_not rfl, hpubs, hoffs, List.filter_cons]
  by_cases h : job ∈ offeredJobs (sinceReset τ)
  · rw [if_pos h, if_pos (decide_eq_true h)]
  · rw [if_neg h, if_neg (by simpa using h)]

end Trace

/-! ### Runs -/

/-- What holds after every step of a run. -/
structure FlushInv (opened : Cursor) (τ : List (FlushEvent σ)) (s : Flushing) : Prop where
  flow : (s.pending ++ publishedJobs τ).Sublist (offeredJobs τ)
  numbers : (offeredJobs τ).map (·.number) = (List.range s.offers).reverse
  stamped : ∀ job ∈ offeredJobs τ, s.epoch = job.epoch + UInt64.ofNat (age job τ)
  settled : Settled τ s
  commits : ∀ job ∈ publishedJobs τ, job ∈ committedJobs τ
  watermark : Timely τ → s.watermark = expected opened τ

namespace FlushInv

variable {P : Persist σ π} {W : Wincode} {crc : Crc} {s s' : Flushing} {ev : FlushEvent σ}
  {opened : Cursor} {τ : List (FlushEvent σ)}

theorem spawn (store : SnapshotStore) (depth : ℕ) :
    FlushInv (σ := σ) store.durableCursor [] (Flushing.spawn store depth) where
  flow := List.Sublist.refl _
  numbers := rfl
  stamped := by simp [offeredJobs]
  settled := fun job h => by cases h
  commits := by simp [publishedJobs]
  watermark := fun _ => rfl

theorem number_lt (h : FlushInv opened τ s) {job : Job} (hjob : job ∈ offeredJobs τ) :
    job.number < s.offers := by
  have hmem : job.number ∈ (offeredJobs τ).map (·.number) := List.mem_map_of_mem hjob
  rw [h.numbers] at hmem
  simpa using hmem

theorem mem_committedJobs_cons {job : Job} (hjob : job ∈ committedJobs τ) :
    job ∈ committedJobs (ev :: τ) :=
  ((List.sublist_cons_self ev τ).filterMap _).subset hjob

/-- A commit is published in its own epoch exactly when no reset came after the offer. -/
theorem epoch_eq_iff (h : FlushInv opened τ s) {job : Job} (hjob : job ∈ offeredJobs τ)
    (hage : age job τ < 2 ^ 64) : s.epoch = job.epoch ↔ job ∈ offeredJobs (sinceReset τ) := by
  rw [← age_eq_zero_iff hjob, h.stamped job hjob]
  constructor
  · intro heq
    have hzero : UInt64.ofNat (age job τ) = 0 := by
      rw [UInt64.add_comm] at heq
      have := congrArg (fun e => e - job.epoch) heq
      simpa [UInt64.add_sub_cancel] using this
    have hnat := congrArg UInt64.toNat hzero
    rwa [UInt64.toNat_ofNat_of_lt' hage] at hnat
  · intro hzero
    rw [hzero]
    simp

theorem step (h : FlushInv opened τ s) (hstep : FlushStep P W crc s ev s') :
    FlushInv opened (ev :: τ) s' := by
  have hsettled := h.settled.step hstep
  cases hstep.effect with
  | quiet offered published reset pending epoch watermark offers =>
      have hoff : offeredJobs (ev :: τ) = offeredJobs τ := by simp [offeredJobs, offered]
      have hpub : publishedJobs (ev :: τ) = publishedJobs τ := by simp [publishedJobs, published]
      refine ⟨?_, ?_, ?_, hsettled, ?_, ?_⟩
      · rw [hoff, hpub]
        exact (pending.append (List.Sublist.refl _)).trans h.flow
      · rw [hoff, offers, h.numbers]
      · intro job hjob
        rw [hoff] at hjob
        rw [epoch, age_cons_of_ne (by simp [offered]), reset]
        exact h.stamped job hjob
      · intro job hjob
        rw [hpub] at hjob
        exact mem_committedJobs_cons (h.commits job hjob)
      · intro ht
        rw [watermark, h.watermark ht.tail, expected, expected,
          landed_cons_of_quiet offered published reset, resetCount, resetCount, List.countP_cons,
          reset]
        rfl
  | offered job shows pending stamped number epoch watermark offers =>
      subst shows
      have hoff : offeredJobs (.offered job :: τ) = job :: offeredJobs τ := rfl
      have hpub : publishedJobs (.offered job :: τ) = publishedJobs τ := rfl
      have hnew : job ∉ offeredJobs τ := fun hmem => by
        have := h.number_lt hmem
        omega
      refine ⟨?_, ?_, ?_, hsettled, ?_, ?_⟩
      · rw [hoff, hpub, pending]
        exact h.flow.cons_cons job
      · rw [hoff, offers, List.map_cons, h.numbers, number, List.range_succ, List.reverse_append]
        rfl
      · intro other hother
        rw [epoch]
        by_cases heq : other = job
        · subst heq
          rw [age_cons_self rfl, stamped]
          simp
        · rw [hoff, List.mem_cons] at hother
          have hne : (FlushEvent.offered job : FlushEvent σ).offeredJob ≠ some other :=
            fun hj => heq (Option.some.inj hj).symm
          rw [age_cons_of_ne hne]
          exact h.stamped other (hother.resolve_left heq)
      · intro other hother
        exact mem_committedJobs_cons (h.commits other hother)
      · intro ht
        have hunpub : job ∉ publishedJobs τ := fun hmem =>
          hnew (h.flow.subset (List.mem_append_right _ hmem))
        rw [watermark, h.watermark ht.tail, expected, expected, landed_offered hunpub]
        rfl
  | reset shows pending epoch watermark offers =>
      subst shows
      refine ⟨?_, ?_, ?_, hsettled, ?_, ?_⟩
      · rw [pending]
        exact h.flow
      · rw [offers]
        exact h.numbers
      · intro job hjob
        rw [epoch, h.stamped job hjob, age_cons_of_ne (by simp [FlushEvent.offeredJob])]
        simp [FlushEvent.isReset, UInt64.add_assoc]
      · intro job hjob
        exact mem_committedJobs_cons (h.commits job hjob)
      · intro ht
        rw [watermark]
        simp [expected, landed, sinceReset_reset, publishedJobs, resetCount, FlushEvent.isReset]
  | published job shows worker pending epoch watermark offers =>
      subst shows
      have hpub : publishedJobs (.published job :: τ) = job :: publishedJobs τ := rfl
      have hoffered : job ∈ offeredJobs τ := h.flow.subset (by rw [pending]; simp)
      obtain ⟨hcommitted, hcursor⟩ := h.settled job worker
      refine ⟨?_, ?_, ?_, hsettled, ?_, ?_⟩
      · have := h.flow
        rw [pending, List.append_assoc] at this
        exact this
      · rw [offers]
        exact h.numbers
      · intro other hother
        rw [epoch, age_cons_of_ne (by simp [FlushEvent.offeredJob])]
        exact h.stamped other hother
      · intro other hother
        rw [hpub, List.mem_cons] at hother
        cases hother with
        | inl heq =>
            rw [heq]
            exact mem_committedJobs_cons hcommitted
        | inr hmem => exact mem_committedJobs_cons (h.commits other hmem)
      · intro ht
        have hiff := h.epoch_eq_iff hoffered (ht [] job τ rfl)
        rw [watermark, expected, landed_published]
        by_cases hnow : job ∈ offeredJobs (sinceReset τ)
        · rw [if_pos (hiff.mpr hnow), if_pos hnow, hcursor]
          rfl
        · rw [if_neg fun heq => hnow (hiff.mp heq), if_neg hnow, h.watermark ht.tail]
          rfl

end FlushInv

/-- A commit has failed and none is published any more. -/
def Doomed (s : Flushing) : Prop :=
  match s.worker with
  | .waiting => s.poisoned = true
  | .received _ => s.poisoned = true
  | .committed _ => False
  | .failed _ => True
  | .stopped => True

section Run

variable {P : Persist σ π} {W : Wincode} {crc : Crc} {s₀ s₁ s s' : Flushing} {ev : FlushEvent σ}
  {τ : List (FlushEvent σ)}

theorem FlushRun.inv {store : SnapshotStore} {depth : ℕ}
    (h : FlushRun P W crc (Flushing.spawn store depth) τ s) :
    FlushInv store.durableCursor τ s := by
  induction h with
  | start => exact FlushInv.spawn store depth
  | step _ hstep ih => exact ih.step hstep

/-- Without a commit under way the watermark moves by a reset only. -/
theorem Doomed.step (h : Doomed s) (hstep : FlushStep P W crc s ev s') :
    Doomed s' ∧ ev.publishedJob = none ∧
      s'.watermark = if ev.isReset then none else s.watermark := by
  cases hstep with
  | nothing idle encoded => exact ⟨h, rfl, rfl⟩
  | unencodable idle encoded => exact ⟨h, rfl, rfl⟩
  | refuse idle encoded noticed => exact ⟨h, rfl, rfl⟩
  | accept idle encoded clear => exact ⟨h, rfl, rfl⟩
  | acquire caller free => exact ⟨h, rfl, rfl⟩
  | stamp caller => exact ⟨h, rfl, rfl⟩
  | send caller running room => exact ⟨h, rfl, rfl⟩
  | disconnect caller stopped => exact ⟨h, rfl, rfl⟩
  | reset idle => exact ⟨h, rfl, rfl⟩
  | notice poisoned => exact ⟨h, rfl, rfl⟩
  | receive waiting queue =>
      unfold Doomed at h
      rw [waiting] at h
      exact ⟨h, rfl, rfl⟩
  | skip worker poisoned => exact ⟨poisoned, rfl, rfl⟩
  | commit worker clear run =>
      unfold Doomed at h
      rw [worker] at h
      exact absurd (clear.symm.trans h) (by decide)
  | fail worker clear run => exact ⟨trivial, rfl, rfl⟩
  | die worker clear run => exact ⟨trivial, rfl, rfl⟩
  | publish worker =>
      unfold Doomed at h
      rw [worker] at h
      exact h.elim
  | poison worker => exact ⟨rfl, rfl, rfl⟩

theorem Doomed.run (h : Doomed s₁) (hrun : FlushRun P W crc s₁ τ s) :
    Doomed s ∧ publishedJobs τ = [] ∧
      s.watermark = if resetCount τ = 0 then s₁.watermark else none := by
  induction hrun with
  | start => exact ⟨h, rfl, rfl⟩
  | @step τ s s' ev _ hstep ih =>
      obtain ⟨hdoomed, hpub, hmark⟩ := ih
      obtain ⟨hdoomed', hev, hmark'⟩ := hdoomed.step hstep
      refine ⟨hdoomed', ?_, ?_⟩
      · rw [publishedJobs, List.filterMap_cons, hev]
        exact hpub
      · rw [hmark', hmark, resetCount, resetCount, List.countP_cons]
        cases ev.isReset <;> simp

/-- Once the apply thread sees the flag, an offer that would submit is refused. -/
theorem noticed_step (h : s.noticed = true) (hstep : FlushStep P W crc s ev s') :
    s'.noticed = true ∧ ∀ engine entry bytes point, ev = .offer engine entry →
      engine.encodeDurableSnapshot P W crc [] = (bytes, .ok (some point)) → entry = .lost := by
  cases hstep with
  | nothing idle encoded =>
      refine ⟨h, fun engine entry bytes point hev henc => ?_⟩
      cases hev
      rw [henc] at encoded
      cases encoded
  | unencodable idle encoded =>
      refine ⟨h, fun engine entry bytes point hev henc => ?_⟩
      cases hev
      rfl
  | refuse idle encoded noticed =>
      refine ⟨h, fun engine entry bytes point hev henc => ?_⟩
      cases hev
      rfl
  | accept idle encoded clear => exact absurd (clear.symm.trans h) (by decide)
  | notice poisoned => exact ⟨rfl, fun _ _ _ _ hev => nomatch hev⟩
  | acquire caller free => exact ⟨h, fun _ _ _ _ hev => nomatch hev⟩
  | stamp caller => exact ⟨h, fun _ _ _ _ hev => nomatch hev⟩
  | send caller running room => exact ⟨h, fun _ _ _ _ hev => nomatch hev⟩
  | disconnect caller stopped => exact ⟨h, fun _ _ _ _ hev => nomatch hev⟩
  | reset idle => exact ⟨h, fun _ _ _ _ hev => nomatch hev⟩
  | receive waiting queue => exact ⟨h, fun _ _ _ _ hev => nomatch hev⟩
  | skip worker poisoned => exact ⟨h, fun _ _ _ _ hev => nomatch hev⟩
  | commit worker clear run => exact ⟨h, fun _ _ _ _ hev => nomatch hev⟩
  | fail worker clear run => exact ⟨h, fun _ _ _ _ hev => nomatch hev⟩
  | die worker clear run => exact ⟨h, fun _ _ _ _ hev => nomatch hev⟩
  | publish worker => exact ⟨h, fun _ _ _ _ hev => nomatch hev⟩
  | poison worker => exact ⟨h, fun _ _ _ _ hev => nomatch hev⟩

theorem noticed_run (h : s₁.noticed = true) (hrun : FlushRun P W crc s₁ τ s) :
    s.noticed = true ∧ ∀ engine entry bytes point, .offer engine entry ∈ τ →
      engine.encodeDurableSnapshot P W crc [] = (bytes, .ok (some point)) → entry = .lost := by
  induction hrun with
  | start => exact ⟨h, fun _ _ _ _ hmem => absurd hmem (List.not_mem_nil)⟩
  | step _ hstep ih =>
      obtain ⟨hnoticed, hoffers⟩ := ih
      obtain ⟨hnoticed', hoffer⟩ := noticed_step hnoticed hstep
      refine ⟨hnoticed', fun engine entry bytes point hmem henc => ?_⟩
      cases List.mem_cons.mp hmem with
      | inl hev => exact hoffer engine entry bytes point hev.symm henc
      | inr hmem => exact hoffers engine entry bytes point hmem henc

theorem sinceReset_of_resetCount_eq_zero (h : resetCount τ = 0) : sinceReset τ = τ := by
  rw [resetCount, List.countP_eq_zero] at h
  exact List.takeWhile_eq_self_iff.mpr fun ev hev => by simpa using h ev hev

/-- The jobs of a run land in the order in which they were offered. -/
theorem FlushInv.landed_sorted {opened : Cursor} (h : FlushInv opened τ s) :
    (landed τ).Pairwise fun job other => other.number < job.number := by
  have hoffers : (offeredJobs τ).Pairwise fun job other => other.number < job.number := by
    rw [← List.pairwise_map (f := Job.number) (R := fun a b => b < a), h.numbers,
      List.pairwise_reverse]
    exact List.pairwise_lt_range
  have hsub : (landed τ).Sublist (offeredJobs τ) :=
    List.filter_sublist.trans (((sinceReset_sublist τ).filterMap _).trans
      ((List.sublist_append_right _ _).trans h.flow))
  exact hoffers.sublist hsub

theorem mem_landed {job : Job} (h : job ∈ landed τ) :
    job ∈ offeredJobs (sinceReset τ) ∧ job ∈ publishedJobs τ := by
  obtain ⟨hpub, hoff⟩ := List.mem_filter.mp h
  exact ⟨of_decide_eq_true hoff, ((sinceReset_sublist τ).filterMap _).subset hpub⟩

/-- **The watermark.**  In every run of the two threads, as long as no commit is published after as
many resets as the epoch can count:  the watermark is the cursor of the opened store until the first
reset or published commit;  after it, it is none or the cursor of a snapshot that was offered after
the last reset and committed;  it stays none from a reset until such a commit is published;  and it
follows the order of the offers.

A failed commit leaves it as it is until a reset, and once the flag of the failure is seen every
offer that has a snapshot is refused. -/
theorem FlushRun.watermark_follows {store : SnapshotStore} {depth : ℕ}
    (h : FlushRun P W crc (Flushing.spawn store depth) τ s) :
    (Timely τ →
      (resetCount τ = 0 → publishedJobs τ = [] → s.watermark = store.durableCursor) ∧
      (resetCount τ ≠ 0 ∨ publishedJobs τ ≠ [] → s.watermark = none ∨
        ∃ job ∈ offeredJobs (sinceReset τ), job ∈ committedJobs τ ∧ s.watermark = job.cursor) ∧
      (resetCount τ ≠ 0 → landed τ = [] → s.watermark = none) ∧
      (∀ job rest, landed τ = job :: rest →
        s.watermark = job.cursor ∧ ∀ other ∈ rest, other.number < job.number)) ∧
    (∀ τ₁ s₁ s₂ job τ₂, FlushRun P W crc (Flushing.spawn store depth) τ₁ s₁ →
      FlushStep P W crc s₁ (.failed job) s₂ → FlushRun P W crc s₂ τ₂ s →
      publishedJobs τ₂ = [] ∧ s.watermark = if resetCount τ₂ = 0 then s₁.watermark else none) ∧
    (∀ τ₁ s₁ s₂ τ₂ engine entry bytes point, FlushRun P W crc (Flushing.spawn store depth) τ₁ s₁ →
      FlushStep P W crc s₁ .noticed s₂ → FlushRun P W crc s₂ τ₂ s → .offer engine entry ∈ τ₂ →
      engine.encodeDurableSnapshot P W crc [] = (bytes, .ok (some point)) → entry = .lost) := by
  have hinv := h.inv
  refine ⟨fun ht => ?_, ?_, ?_⟩
  · have hmark := hinv.watermark ht
    refine ⟨?_, ?_, ?_, ?_⟩
    · intro hzero hnone
      rw [hmark, expected, landed, sinceReset_of_resetCount_eq_zero hzero, hnone]
      exact if_pos hzero
    · intro hmoved
      cases hlanded : landed τ with
      | nil =>
          have hreset : resetCount τ ≠ 0 := by
            intro hzero
            refine hmoved.elim (fun hne => hne hzero) fun hpub => hpub ?_
            -- every published job was offered before, so without a reset all of them count
            rw [landed, sinceReset_of_resetCount_eq_zero hzero, List.filter_eq_nil_iff] at hlanded
            refine List.eq_nil_iff_forall_not_mem.mpr fun job hjob => hlanded job hjob ?_
            exact decide_eq_true (hinv.flow.subset (List.mem_append_right _ hjob))
          left
          rw [hmark, expected, hlanded]
          exact if_neg hreset
      | cons job rest =>
          obtain ⟨hoff, hpub⟩ := mem_landed (hlanded ▸ List.mem_cons_self : job ∈ landed τ)
          exact Or.inr ⟨job, hoff, hinv.commits job hpub, by rw [hmark, expected, hlanded]; rfl⟩
    · intro hreset hnone
      rw [hmark, expected, hnone]
      exact if_neg hreset
    · intro job rest hlanded
      have hsorted := hinv.landed_sorted
      rw [hlanded, List.pairwise_cons] at hsorted
      exact ⟨by rw [hmark, expected, hlanded]; rfl, hsorted.1⟩
  · intro τ₁ s₁ s₂ job τ₂ _ hstep hrest
    have hfail : Doomed s₂ ∧ s₂.watermark = s₁.watermark := by
      cases hstep with
      | fail worker clear run => exact ⟨trivial, rfl⟩
    obtain ⟨-, hpub, hmark⟩ := hfail.1.run hrest
    exact ⟨hpub, hfail.2 ▸ hmark⟩
  · intro τ₁ s₁ s₂ τ₂ engine entry bytes point _ hstep hrest hmem henc
    have hnoticed : s₂.noticed = true := by
      cases hstep with
      | notice poisoned => rfl
    exact (noticed_run hnoticed hrest).2 engine entry bytes point hmem henc

end Run

/-! ### A small run -/

/-- A store that has not committed yet. -/
def freshStore : SnapshotStore := ⟨1, fun _ => none, 0, false⟩

/-- The engine after a batch and a checkpoint. -/
def savedEngine : Engine UInt64 := summedEngine.checkpoint

/-- The bytes that an offer of the engine submits. -/
def savedBytes : List UInt8 := (savedEngine.encodeDurableSnapshot sumPersist fixint crc32c []).1

theorem savedEngine_encodes : savedEngine.encodeDurableSnapshot sumPersist fixint crc32c [] =
    (savedBytes, .ok (some ⟨3, 1⟩)) := by
  have hsecond : (savedEngine.encodeDurableSnapshot sumPersist fixint crc32c []).2 =
      .ok (some ⟨3, 1⟩) := rfl
  exact Prod.ext rfl hsecond

/-- A filesystem that says yes to everything. -/
def allGranted : ∀ op : VfsOp, op.Answer
  | .read _ => .ok []
  | .list => .ok []
  | .createDirAll => .ok ()
  | .write _ _ => .ok ()
  | .writeAt _ _ _ => .ok ()
  | .fsyncFile _ => .ok ()
  | .rename _ _ => .ok ()
  | .remove _ => .ok ()
  | .fsyncDir => .ok ()

/-- The job of the first offer. -/
def firstJob : Job := ⟨savedBytes, some ⟨3, 1⟩, 0, 0⟩

/-- The first job is committed and waits to be published. -/
def committedState (store : SnapshotStore) (version : ℕ) : Flushing :=
  { Flushing.spawn store 1 with
    worker := .committed firstJob
    store := store.committed version (some ⟨3, 1⟩)
    available := 0
    offers := 1 }

theorem freshStore_commits : ∃ τ, Prog.Runs (freshStore.commit crc32c firstJob.snapshot firstJob.cursor)
    τ (freshStore.committed 1 (some ⟨3, 1⟩), .ok ()) := by
  have hplay : (Prog.play (fun _ : Unit => allGranted) (List.replicate 8 ())
      (freshStore.commit crc32c firstJob.snapshot firstJob.cursor)).2 =
      some (freshStore.committed 1 (some ⟨3, 1⟩), .ok ()) := rfl
  exact ⟨_, (Prog.runs_play _ hplay).1⟩

/-- A store that was opened on a snapshot. -/
def openedStore : SnapshotStore := freshStore.committed 1 (some ⟨1, 0⟩)

theorem openedStore_commits : ∃ τ, Prog.Runs
    (openedStore.commit crc32c firstJob.snapshot firstJob.cursor)
    τ (openedStore.committed 2 (some ⟨3, 1⟩), .ok ()) := by
  have hplay : (Prog.play (fun _ : Unit => allGranted) (List.replicate 8 ())
      (openedStore.commit crc32c firstJob.snapshot firstJob.cursor)).2 =
      some (openedStore.committed 2 (some ⟨3, 1⟩), .ok ()) := rfl
  exact ⟨_, (Prog.runs_play _ hplay).1⟩

theorem committedState_reached {store : SnapshotStore} {version : ℕ} (hcommit : ∃ τ, Prog.Runs
    (store.commit crc32c firstJob.snapshot firstJob.cursor) τ
    (store.committed version (some ⟨3, 1⟩), .ok ())) :
    ∃ τ, FlushRun (σ := UInt64) sumPersist fixint crc32c (Flushing.spawn store 1) τ
      (committedState store version) ∧ resetCount τ = 0 ∧ publishedJobs τ = [] ∧
      offeredJobs τ = [firstJob] ∧ committedJobs τ = [firstJob] := by
  obtain ⟨_, hcommit⟩ := hcommit
  have run₁ := FlushRun.step .start
    (FlushStep.accept (s := Flushing.spawn store 1) rfl savedEngine_encodes rfl)
  have run₂ := run₁.step (.acquire rfl Nat.one_pos)
  have run₃ := run₂.step (.stamp rfl)
  have run₄ := run₃.step (.send rfl (fun h => nomatch h) Nat.one_pos)
  have run₅ := run₄.step (.receive rfl rfl)
  have run₆ := run₅.step (.commit rfl rfl hcommit : FlushStep _ _ _ _ (.committed firstJob) _)
  exact ⟨_, run₆, rfl, rfl, rfl, rfl⟩

/-- The first commit is published: the watermark is its cursor. -/
theorem first_commit_lands : ∃ τ s, FlushRun (σ := UInt64) sumPersist fixint crc32c
    (Flushing.spawn freshStore 1) τ s ∧ s.watermark = some ⟨3, 1⟩ := by
  obtain ⟨τ, hrun, hreset, -, hoffers, -⟩ := committedState_reached freshStore_commits
  have hpub := hrun.step (.publish rfl : FlushStep _ _ _ _ (.published firstJob) _)
  have hlanded : landed (.published firstJob :: τ) = firstJob :: landed τ := by
    rw [landed_published, sinceReset_of_resetCount_eq_zero hreset, hoffers]
    exact if_pos List.mem_cons_self
  have htimely : Timely (.published firstJob :: τ) := by
    rintro τ₂ job τ₁ h
    have hle : age job τ₁ ≤ resetCount (.published firstJob :: τ) := by
      rw [h, resetCount, List.countP_append, List.countP_cons]
      have : age job τ₁ ≤ List.countP (·.isReset) τ₁ := (List.takeWhile_sublist _).countP_le
      omega
    have hzero : resetCount (.published firstJob :: τ) = 0 := by
      rw [resetCount, List.countP_cons, if_neg (by simp [FlushEvent.isReset])]
      exact hreset
    omega
  obtain ⟨-, -, -, hlast⟩ := hpub.watermark_follows.1 htimely
  exact ⟨_, _, hpub, (hlast firstJob (landed τ) hlanded).1⟩

/-- Resets in a row. -/
theorem FlushRun.resets {P : Persist σ π} {W : Wincode} {crc : Crc} {s₀ s : Flushing}
    {τ : List (FlushEvent σ)} (h : FlushRun P W crc s₀ τ s) (idle : s.caller = .idle) (n : ℕ) :
    FlushRun P W crc s₀ (List.replicate (n + 1) .reset ++ τ)
      { s with epoch := s.epoch + UInt64.ofNat (n + 1), watermark := none } := by
  induction n with
  | zero => exact h.step (.reset idle)
  | succ n ih =>
      have := ih.step (.reset idle)
      rw [List.replicate_succ, List.cons_append]
      rw [show s.epoch + UInt64.ofNat (n + 1 + 1) = s.epoch + UInt64.ofNat (n + 1) + 1 by
        rw [UInt64.add_assoc, UInt64.ofNat_add (n + 1) 1]
        rfl]
      exact this

/-- After 2^64 resets the epoch is the same again: the commit of a snapshot that was offered before
all of them moves the watermark.  Without any reset, a commit that is not published yet leaves the
watermark at the cursor of the opened store, which no offered snapshot has. -/
theorem stale_commit_lands :
    (∃ τ s, FlushRun (σ := UInt64) sumPersist fixint crc32c (Flushing.spawn freshStore 1) τ s ∧
      resetCount τ ≠ 0 ∧ offeredJobs (sinceReset τ) = [] ∧ s.watermark = some ⟨3, 1⟩) ∧
    ∃ τ s, FlushRun (σ := UInt64) sumPersist fixint crc32c (Flushing.spawn openedStore 1) τ s ∧
      resetCount τ = 0 ∧ committedJobs τ = [firstJob] ∧ offeredJobs τ = [firstJob] ∧
      firstJob.cursor = some ⟨3, 1⟩ ∧ s.watermark = some ⟨1, 0⟩ := by
  constructor
  · obtain ⟨τ, hrun, -, -, -⟩ := committedState_reached freshStore_commits
    have hwrap : (committedState freshStore 1).epoch + UInt64.ofNat (2 ^ 64 - 1 + 1) =
        firstJob.epoch := by decide
    have hresets := (hrun.resets rfl (2 ^ 64 - 1)).step
      (.publish rfl : FlushStep _ _ _ _ (.published firstJob) _)
    generalize 2 ^ 64 - 1 = n at hwrap hresets
    refine ⟨_, _, hresets, ?_, ?_, ?_⟩
    · rw [List.replicate_succ, List.cons_append, resetCount, List.countP_cons, List.countP_cons]
      simp [FlushEvent.isReset]
    · rw [sinceReset_cons_of_not rfl, List.replicate_succ, List.cons_append, sinceReset_reset]
      rfl
    · exact (if_pos hwrap).trans (SnapshotStore.durableCursor_committed _ _ _)
  · obtain ⟨τ, hrun, hreset, -, hoffers, hcommits⟩ := committedState_reached openedStore_commits
    exact ⟨τ, _, hrun, hreset, hcommits, hoffers, rfl,
      freshStore.durableCursor_committed 1 (some ⟨1, 0⟩)⟩

end Works.Chainfold
