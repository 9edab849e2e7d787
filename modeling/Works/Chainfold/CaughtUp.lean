import Works.Chainfold.OneChain

/-! # Being caught up

`Driver::is_caught_up` after a tick against one chain.  A driver that says it has caught up has
folded every event of that chain up to the head, except when it took the source for one that
lags (`isCaughtUp_iff`): a capped walk leaves a mark above the head of a shorter chain that
shares the cursor block, and then nothing is read. -/

namespace Works.Chainfold

open Works.Lib Prog Engine BlockRing

variable {σ E ε κ : Type}

/-- The engine is on the chain and has folded its events from the start block to the head. -/
structure CaughtUpOn (A : Fold σ E ε) (C : Chain E) (start : ℕ) (init : σ) (e : Engine σ) :
    Prop where
  on : ∀ b ∈ e.observed, C.Has b
  covered : ∀ x ∈ C.eventsIn start C.headNumber, some x.pos ≤ e.cursor
  fold : e.fold = foldOver A init (C.eventsIn start C.headNumber)

/-- The driver takes the source for one that lags while events are left to fold: its engine
stands where the last tick left it, on the chain, and its walked mark is above the head. -/
structure Misled (C : Chain E) (start : ℕ) (d : Driver σ κ) : Prop where
  active : d.engine.status = .active
  left : d.leftAt = some d.enginePoint
  mark : ∃ w, d.walked = some w ∧ C.headNumber < w.number
  on : ∀ b, d.engine.observed.getLast? = some b → C.Has b
  more : ∃ x ∈ C.eventsIn start C.headNumber, d.engine.cursor < some x.pos

section OneChain

variable {A : Fold σ E ε} {chains : Set (Chain E)} {C : Chain E} {start : ℕ} {init : σ}
  {e : Engine σ}

theorem covered_iff_forall {c : Cursor} : Covered C start c (C.headNumber + 1) ↔
    ∀ x ∈ C.eventsIn start C.headNumber, some x.pos ≤ c := by
  rw [covered_iff, above, List.filter_eq_nil_iff]
  simp

/-- An engine whose newest block is on the chain is on it with all its blocks. -/
theorem Sound.on (hcom : Committed chains) (hC : C ∈ chains) (h : Sound A chains start init e)
    (hactive : e.status = .active) (hnewest : ∀ b, e.observed.getLast? = some b → C.Has b) :
    ∀ b ∈ e.observed, C.Has b := by
  intro b hb
  cases hc : e.cursor with
  | none =>
      have hnil : e.observed = [] := h.ringOk.iter_eq_nil_iff.mp hc
      rw [hnil] at hb
      simp at hb
  | some p =>
      obtain ⟨newest, hlast, hnum⟩ := h.ringOk.getLast? hc
      have hback := h.engine (Or.inl hactive)
      rw [hc] at hback
      exact (hback.on hcom hC (List.mem_of_getLast? hlast) hnum (hnewest newest hlast)).1 b hb
        (h.ringOk.number_le hc b hb)

/-- A sound engine on the chain with nothing left to fold has folded everything. -/
theorem Sound.caughtUpOn (hcom : Committed chains) (hC : C ∈ chains)
    (h : Sound A chains start init e) (hactive : e.status = .active)
    (hon : ∀ b ∈ e.observed, C.Has b) (hcov : Covered C start e.cursor (C.headNumber + 1)) :
    CaughtUpOn A C start init e where
  on := hon
  covered := covered_iff_forall.mp hcov
  fold := by
    have hback := h.engine (Or.inl hactive)
    have hall := covered_iff_forall.mp hcov
    cases hc : e.cursor with
    | none =>
        have hnil : C.eventsIn start C.headNumber = [] := by
          rw [List.eq_nil_iff_forall_not_mem]
          intro x hx
          have := hall x hx
          rw [hc] at this
          exact absurd this (by simp)
        rw [hback.fresh hc, hnil]
        rfl
    | some p =>
        obtain ⟨newest, hlast, hnum⟩ := h.ringOk.getLast? hc
        have hmem := List.mem_of_getLast? hlast
        have hCn := hon newest hmem
        rw [hc] at hback
        obtain ⟨hstart, -⟩ := hback.chain p rfl
        obtain ⟨-, hfold⟩ := hback.on hcom hC hmem hnum hCn
        rw [hfold, upTo_eq (hnum ▸ hCn.le) hstart, List.filter_eq_self.mpr]
        intro x hx
        have := hall x hx
        rw [hc, Option.some_le_some] at this
        simpa using this

end OneChain

namespace Driver

theorem isCaughtUp_settle (d : Driver σ κ) (t : Tick) :
    (d.settle t).isCaughtUp = true ↔ d.caughtUp = true ∧ d.engine.status = .active := by
  have hactive : d.engine.status.isActive = true ↔ d.engine.status = .active :=
    EngineStatus.isActive_iff
  have heq : (d.settle t).isCaughtUp = (d.caughtUp && d.engine.status.isActive &&
      decide ((if d.engine.status.isActive then some d.enginePoint else none) =
        some d.enginePoint)) := rfl
  rw [heq]
  by_cases h : d.engine.status.isActive = true
  · rw [h]
    simp [hactive.mp h]
  · have hne : d.engine.status ≠ .active := fun hs => h (hactive.mpr hs)
    simp [h, hne]

section Truthful

variable {A : Fold σ E ε} {chains : Set (Chain E)} {C : Chain E} {τ : Trace E} {top : ℕ}
  {d d' : Driver σ κ} {t : Tick}

/-- **Being caught up is truthful** exactly when the driver is not misled. -/
theorem step_isCaughtUp_iff (hcom : Committed chains) (hC : C ∈ chains) (K : Sink κ σ)
    (hd : Kept A chains top d) (hrun : RunsOn (d.step A K) τ (d', t)) (hτ : AnsweredBy C τ)
    (hle : ∀ p, d.engine.cursor = some p → p.block ≤ C.headNumber) :
    (d'.isCaughtUp = true → CaughtUpOn A C d.config.startBlock d.initial d'.engine) ↔
      ¬ Misled C d.config.startBlock d := by
  unfold step at hrun
  obtain ⟨τ₁, ⟨d₂, t₂⟩, τ₂, rfl, hpoll, hend⟩ := runsOn_bind_iff.mp hrun
  rw [runsOn_pure_iff, Prod.mk.injEq] at hend
  obtain ⟨rfl, rfl, rfl⟩ := hend
  rw [List.append_nil] at hτ
  have hgood := catchCaller_good K hd
  rw [isCaughtUp_settle]
  show (_ → CaughtUpOn A C d.config.startBlock d.initial d₂.engine) ↔ _
  obtain ⟨sink, c, s, n, heq⟩ := catchCaller_eq K d
  set d₁ := d.catchCaller K with hd₁
  have hengine : d₁.engine = d.engine := by rw [heq]
  have hconfig : d₁.config = d.config := by rw [heq]
  have hinit : d₁.initial = d.initial := by rw [heq]
  have hmark : ∀ w, d₁.walked = some w ↔ d.leftAt = some d.enginePoint ∧ d.walked = some w := by
    intro w
    rw [heq]
    dsimp only
    split_ifs with hleft
    · simp [hleft]
    · simp [hleft]
  by_cases hactive : d.engine.status = .active
  · have hactive₁ : d₁.engine.status = .active := hengine ▸ hactive
    have hsound := hgood.sound
    have hon : (∀ b, d.engine.observed.getLast? = some b → C.Has b) →
        ∀ b ∈ d.engine.observed, C.Has b := hd.sound.on hcom hC hactive
    -- a driver that is misled has a mark above the head and is on the chain
    have hahead : MarkBelow C d₁ → ¬ Misled C d.config.startBlock d := by
      intro hbelow hmis
      obtain ⟨w, hw, hlt⟩ := hmis.mark
      exact absurd (hbelow w ((hmark w).mpr ⟨hmis.left, hw⟩)) (not_le.mpr hlt)
    have hvacuous : ¬ (d₂.caughtUp = true ∧ d₂.engine.status = .active) →
        ¬ Misled C d.config.startBlock d →
        ((d₂.caughtUp = true ∧ d₂.engine.status = .active →
          CaughtUpOn A C d.config.startBlock d.initial d₂.engine) ↔
          ¬ Misled C d.config.startBlock d) :=
      fun hno hmis => ⟨fun _ => hmis, fun _ hyes => absurd hyes hno⟩
    cases pollApply_polled hcom hC K hpoll hτ hgood hactive₁ (by rw [hengine]; exact hle) with
    | lagging w mark behind on engine caughtUp tick =>
        obtain ⟨hleft, hw⟩ := (hmark w).mp mark
        rw [hengine] at engine on
        rw [engine]
        constructor
        · intro h hmis
          obtain ⟨x, hx, hlt⟩ := hmis.more
          exact absurd ((h ⟨caughtUp, hactive⟩).covered x hx) (not_le.mpr hlt)
        · intro hmis _
          refine hd.sound.caughtUpOn hcom hC hactive on (covered_iff_forall.mpr ?_)
          intro x hx
          by_contra hlt
          exact hmis ⟨hactive, hleft, ⟨w, hw, behind⟩, fun b hb => on b (List.mem_of_getLast? hb),
            x, hx, not_le.mp hlt⟩
    | idle mark on covered engine caughtUp tick =>
        refine iff_of_true ?_ (hahead mark)
        intro _
        have hfull := hsound.caughtUpOn hcom hC hactive₁ on covered
        rw [hconfig, hinit] at hfull
        refine ⟨?_, ?_, engine.fold.trans hfull.fold⟩
        · rw [engine.observed]
          exact hfull.on
        · rw [engine.cursor]
          exact hfull.covered
    | capped a mark on engine caughtUp walked has past lost tick =>
        exact hvacuous (by simp [caughtUp]) (hahead mark)
    | folded mark on status le more caughtUp tick =>
        exact hvacuous (by simp [caughtUp]) (hahead mark)
    | stopped mark status n le on failed => exact hvacuous (by simp [status]) (hahead mark)
    | recovered off ends =>
        obtain ⟨b, hb, hoff⟩ := off
        rw [hengine] at hb
        refine hvacuous ?_ fun hmis => hoff (hon hmis.on b hb)
        cases ends with
        | on status on caughtUp tick => simp [caughtUp]
        | beyond status horizon beyond told => simp [status]
  · unfold pollApply at hpoll
    rw [if_neg (fun h => hactive (hengine ▸ EngineStatus.isActive_iff.mp h))] at hpoll
    rw [runsOn_pure_iff, Prod.mk.injEq] at hpoll
    rw [hpoll.2.1]
    refine iff_of_true ?_ fun hmis => hactive hmis.active
    rintro ⟨-, h⟩
    exact absurd (hengine ▸ h) hactive

end Truthful

end Driver

/-- **A driver that says it has caught up has**, exactly when it is not misled. -/
theorem Reached.isCaughtUp_iff {A : Fold σ E ε} {K : Sink κ σ} {chains : Set (Chain E)}
    (hcom : Committed chains) {fold : σ} {config : DriverConfig} {d d' : Driver σ κ}
    (h : Reached A K chains Bracketed fold config d) {C : Chain E} (hC : C ∈ chains)
    {τ : Trace E} {t : Tick} (hrun : RunsOn (d.step A K) τ (d', t)) (hτ : AnsweredBy C τ)
    (hle : ∀ p, d.engine.cursor = some p → p.block ≤ C.headNumber) :
    (d'.isCaughtUp = true → CaughtUpOn A C config.startBlock fold d'.engine) ↔
      ¬ Misled C config.startBlock d := by
  obtain ⟨hkept, rfl, rfl⟩ := h.kept hcom fun τ hτ hb => bracketed_rule hτ hb
  exact Driver.step_isCaughtUp_iff hcom hC K hkept hrun hτ hle

/-! ### A driver that is misled -/

/-- `n` ticks of a scripted source. -/
def Driver.tickedTimes (A : Fold σ E ε) (K : Sink κ σ) (window : ℕ)
    (script : List (Bool × Chain E)) : ℕ → Driver σ κ → Driver σ κ
  | 0, d => d
  | n + 1, d => tickedTimes A K window script n (d.ticked A K window script)

theorem Reached.tickedTimes {A : Fold σ E ε} {K : Sink κ σ} {chains : Set (Chain E)} {fold : σ}
    {config : DriverConfig} {C : Chain E} (hC : C ∈ chains) {ok : Bool} {window m : ℕ} :
    ∀ (n : ℕ) {d : Driver σ κ}, Reached A K chains Bracketed fold config d →
      (∀ k < n, ((d.tickedTimes A K window (List.replicate m (ok, C)) k).tickOn A K window
        (List.replicate m (ok, C))).isSome = true) →
      Reached A K chains Bracketed fold config
        (d.tickedTimes A K window (List.replicate m (ok, C)) n)
  | 0, _, h, _ => h
  | n + 1, _, h, hsome =>
      Reached.tickedTimes hC n (h.next (Next.tickedOn hC (hsome 0 (Nat.succ_pos n))))
        fun k hk => hsome (k + 1) (Nat.succ_lt_succ hk)

/-- A driver whose source failed six times, which has folded the first block of the long chain
and walked two more. -/
def sampleMisled : Driver UInt64 Unit :=
  (sampleDriver.tickedTimes sumFold noSink 1 (List.replicate 1 (false, longChain)) 6).tickedTimes
    sumFold noSink 1 (List.replicate 8 (true, longChain)) 2

theorem sampleMisled_reached :
    Reached sumFold noSink sampleChains Bracketed 0 ⟨0, some 1, none⟩ sampleMisled :=
  Reached.tickedTimes (Or.inl rfl) 2
    (Reached.tickedTimes (Or.inl rfl) 6 (sampleDriver_reached Bracketed)
      (by decide +kernel)) (by decide +kernel)

/-- The head of the short chain is above the cursor block. -/
theorem sampleMisled_block (p : Position) (hp : sampleMisled.engine.cursor = some p) :
    p.block ≤ shortChain.headNumber := by
  have hcursor : sampleMisled.engine.cursor = some ⟨0, 0⟩ := by decide +kernel
  rw [hcursor, Option.some.injEq] at hp
  rw [← hp]
  exact Nat.zero_le _

/-- The script of the tick that misleads. -/
def misleading : List (Bool × Chain ℕ) := List.replicate 8 (true, shortChain)

theorem misleading_step : (scripted .genesis 1 misleading (sampleMisled.step sumFold noSink)).2 =
    some (sampleMisled.ticked sumFold noSink 1 misleading, .idle) :=
  scripted_step (by decide +kernel)

theorem sampleMisled_iff :
    ((sampleMisled.ticked sumFold noSink 1 misleading).isCaughtUp = true →
      CaughtUpOn sumFold shortChain 0 0 (sampleMisled.ticked sumFold noSink 1 misleading).engine) ↔
      ¬ Misled shortChain 0 sampleMisled :=
  sampleMisled_reached.isCaughtUp_iff sampleChains_committed (Or.inr (Or.inl rfl))
    (runsOn_scripted .genesis 1 misleading_step).1 (answeredBy_scripted .genesis 1 misleading_step)
    sampleMisled_block

/-- The driver says it has caught up with the short chain and has not folded its second event. -/
theorem not_isCaughtUp_truthful : ∃ (d d' : Driver UInt64 Unit) (τ : Trace ℕ) (t : Tick),
    Reached sumFold noSink sampleChains Bracketed 0 ⟨0, some 1, none⟩ d ∧
    RunsOn (d.step sumFold noSink) τ (d', t) ∧ AnsweredBy shortChain τ ∧
    (∀ p, d.engine.cursor = some p → p.block ≤ shortChain.headNumber) ∧ d'.isCaughtUp = true ∧
    ¬ CaughtUpOn sumFold shortChain 0 0 d'.engine := by
  refine ⟨sampleMisled, sampleMisled.ticked sumFold noSink 1 misleading, _, .idle,
    sampleMisled_reached, (runsOn_scripted .genesis 1 misleading_step).1,
    answeredBy_scripted .genesis 1 misleading_step, sampleMisled_block, by decide +kernel, ?_⟩
  intro h
  have hfold := h.fold
  have hevents : (sampleMisled.ticked sumFold noSink 1 misleading).engine.fold = 10 := by
    decide +kernel
  have hall : foldOver sumFold 0 (shortChain.eventsIn 0 shortChain.headNumber) = 17 := by decide
  rw [hevents, hall] at hfold
  exact absurd hfold (by decide)

end Works.Chainfold
