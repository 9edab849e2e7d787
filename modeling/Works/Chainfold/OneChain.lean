import Works.Chainfold.Recovery

/-! # Ticks against one chain

What a tick does while the source answers from one chain and does not fail, the head being at or
above the cursor block.  A scan then finds the next events of that chain or that there are none,
unless a walked mark above the head makes the driver take the source for one that lags; an engine
that is not on the chain is rolled back onto it or starts again (`pollApply_polled`). -/

namespace Works.Chainfold

open Works.Lib Prog Engine BlockRing

variable {σ E ε κ : Type}

section Answered

variable {C : Chain E} {τ τ₁ τ₂ : Trace E}

theorem AnsweredBy.append : AnsweredBy C (τ₁ ++ τ₂) ↔ AnsweredBy C τ₁ ∧ AnsweredBy C τ₂ := by
  unfold AnsweredBy
  rw [List.forall_mem_append]

theorem AnsweredBy.through {chains : Set (Chain E)} (hC : C ∈ chains) (h : AnsweredBy C τ) :
    Through chains C.head τ := by
  intro x hx
  obtain ⟨heq, htrue, -⟩ := h x hx
  rw [heq]
  exact ⟨hC, htrue, Chain.has_head⟩

theorem AnsweredBy.head {r : Option BlockRef} {D : Chain E}
    (h : AnsweredBy C ((⟨.head, r⟩, D) :: τ)) : r = some C.head := by
  obtain ⟨-, htrue, hans⟩ := h _ List.mem_cons_self
  cases r with
  | none => exact absurd rfl hans
  | some head => rw [htrue head rfl]

theorem AnsweredBy.headerAt {n : ℕ} {r : Option (Option BlockRef)} {D : Chain E}
    (h : AnsweredBy C ((⟨.headerAt n, r⟩, D) :: τ)) : r = some (C.refAt n) := by
  obtain ⟨-, htrue, hans⟩ := h _ List.mem_cons_self
  cases r with
  | none => exact absurd rfl hans
  | some header => rw [htrue header rfl]

theorem AnsweredBy.not_failed (h : AnsweredBy C τ) : ¬ ∃ x ∈ τ, ¬ Answered x.1 := by
  rintro ⟨x, hx, hans⟩
  exact hans (h x hx).2.2

theorem AnsweredBy.tail {x : Exchange (Answer E) × Chain E} (h : AnsweredBy C (x :: τ)) :
    AnsweredBy C τ :=
  fun y hy => h y (List.mem_cons_of_mem x hy)

/-- The answer of the lagging check, when nothing observed is above the head. -/
theorem isLagging_spec {observed : List BlockRef} (hle : ∀ b ∈ observed, b.number ≤ C.headNumber)
    {r : Option Bool} (hrun : RunsOn (isLagging observed C.head) τ r) (hτ : AnsweredBy C τ) :
    r = some (decide (∀ b, observed.getLast? = some b → C.Has b)) := by
  have hall : (observed.takeWhile fun seen => decide (seen.number ≤ C.head.number)) = observed := by
    rw [List.takeWhile_eq_self_iff]
    intro b hb
    exact decide_eq_true (hle b hb)
  unfold isLagging at hrun
  rw [hall] at hrun
  cases hlast : observed.getLast? with
  | none =>
      simp only [hlast] at hrun
      rw [runsOn_pure_iff] at hrun
      simp [hrun.2]
  | some seen =>
      simp only [hlast] at hrun
      split_ifs at hrun with hnum
      · rw [runsOn_pure_iff] at hrun
        rw [hrun.2]
        simp only [Option.some.injEq, forall_eq', decide_eq_decide]
        constructor
        · intro h
          rw [h]
          exact Chain.has_head
        · intro h
          exact h.eq Chain.has_head hnum
      · obtain ⟨r', D, τ', rfl, hgo⟩ := runsOn_query_bind_iff.mp hrun
        rw [runsOn_pure_iff, hτ.headerAt] at hgo
        obtain ⟨a, ha, hna⟩ := C.exists_refAt (hle seen (List.mem_of_getLast? hlast))
        have href : C.refAt seen.number = some a := Chain.refAt_eq_some_iff.mpr ⟨ha, hna⟩
        rw [hgo.2, href]
        simp only [Option.map_some, Option.all_some, Option.some.injEq, forall_eq',
          decide_eq_decide]
        constructor
        · intro h
          rw [← h]
          exact ha
        · intro h
          exact ha.eq h hna

theorem AnsweredBy.standsOn (h : AnsweredBy C τ) : StandsOn C τ :=
  fun x hx => ⟨(h x hx).1, (h x hx).2.1⟩

end Answered

/-- The end of a run is a halt or a poisoned state. -/
theorem Advanced.stop {A : Fold σ E ε} {C : Chain E} {start n : ℕ} {e e' : Engine σ} {r : Except (ApplyError ε) ApplySummary}
    (h : Advanced A C start n e e' r) {err : ApplyError ε} (hr : r = .error err) :
    errorOf (consume A (above C start e.cursor n) e ApplySummary.zero).2 ≠ none ∧
      ∃ pos error, err = .halted pos error ∨ err = .poisoned pos error := by
  have hrun := h.run
  rw [hr] at hrun
  rcases hc : consume A (above C start e.cursor n) e ApplySummary.zero with ⟨e'', err' | s⟩
  · rw [hc] at hrun
    obtain rfl : err = err' := Option.some.inj hrun
    refine ⟨by simp [errorOf], ?_⟩
    obtain ⟨pos, error, ⟨heq, -⟩ | ⟨heq, -⟩⟩ := consume_error A hc
    · exact ⟨pos, error, Or.inl heq⟩
    · exact ⟨pos, error, Or.inr heq⟩
  · rw [hc] at hrun
    cases hrun

/-! ### Recovery -/

namespace Driver

section Recovery

variable {A : Fold σ E ε} {chains : Set (Chain E)} {C : Chain E} {τ : Trace E}
  {d d' : Driver σ κ} {t : Tick}

/-- Where recovery ends: on the chain, or with a start block below the horizon of the source. -/
inductive OnOrBeyond (C : Chain E) (τ : Trace E) (d d' : Driver σ κ) (t : Tick) : Prop
  | on (status : d'.engine.status = .active) (on : ∀ b ∈ d'.engine.observed, C.Has b)
      (caughtUp : d'.caughtUp = false) (tick : t ≠ .idle)
  | beyond (status : d'.engine.status ≠ .active) (horizon : ℕ)
      (beyond : d.config.startBlock < horizon)
      (told : ∃ x ∈ τ, x.1 = ⟨.horizon, .fromBlock horizon⟩)

/-- **Recovery ends on the chain**, or beyond the horizon of the source. -/
theorem recoverViaBisection_on (hcom : Committed chains) (hC : C ∈ chains)
    (hs : Sound A chains d.config.startBlock d.initial d.engine)
    (hactive : d.engine.status = .active) (hrun : RunsOn d.recoverViaBisection τ (d', t))
    (hτ : AnsweredBy C τ) : OnOrBeyond C τ d d' t := by
  obtain ⟨kept, gone, hforks⟩ := hs.exists_forks hcom hC hactive
  cases recoverViaBisection_ends hs.ringOk hactive hforks hτ.standsOn hrun with
  | failed fails engine tick => exact absurd fails hτ.not_failed
  | rolledBack answered common newest to_ rollback cursor settled caughtUp tick =>
      obtain ⟨slot, -, -, hrestored⟩ := rollback_cases rollback
      refine .on ?_ settled.observed caughtUp (by rw [tick]; simp)
      rw [hrestored]
      rfl
  | restarted answered nothing horizon told reaches engine caughtUp tick =>
      refine .on ?_ ?_ caughtUp (by rw [tick]; simp)
      · rw [engine]
        rfl
      · intro b hb
        rw [engine] at hb
        simp [Engine.reset, observed] at hb
  | beyond answered nothing number told lost engine tick =>
      refine .beyond ?_ number lost ⟨_, told, rfl⟩
      rw [engine]
      simp [markUnrecoverable]

end Recovery

/-! ### A poll -/

/-- The engine has the state, the cursor, the blocks and the status it had. -/
structure Stays (e e' : Engine σ) : Prop where
  fold : e'.fold = e.fold
  cursor : e'.cursor = e.cursor
  observed : e'.observed = e.observed
  status : e'.status = e.status

/-- The walked mark is not above the head. -/
def MarkBelow (C : Chain E) (d : Driver σ κ) : Prop :=
  ∀ w, d.walked = some w → w.number ≤ C.headNumber

/-- What a poll of one chain does. -/
inductive Polled (A : Fold σ E ε) (C : Chain E) (τ : Trace E) (d d' : Driver σ κ) (t : Tick) : Prop
  | lagging (w : BlockRef) (mark : d.walked = some w) (behind : C.headNumber < w.number)
      (on : ∀ b ∈ d.engine.observed, C.Has b) (engine : d'.engine = d.engine)
      (caughtUp : d'.caughtUp = true) (tick : t = .idle)
  | idle (mark : MarkBelow C d) (on : ∀ b ∈ d.engine.observed, C.Has b)
      (covered : Covered C d.config.startBlock d.engine.cursor (C.headNumber + 1))
      (engine : Stays d.engine d'.engine) (caughtUp : d'.caughtUp = true)
      (tick : t = .idle ∨ t ≠ .idle ∧ d.durabilityLost = false ∧ d'.durabilityLost = true)
  | capped (a : BlockRef) (mark : MarkBelow C d) (on : ∀ b ∈ d.engine.observed, C.Has b)
      (engine : Stays d.engine d'.engine) (caughtUp : d'.caughtUp = false)
      (walked : d'.walked = some a) (has : C.Has a)
      (past : ∀ w, d.walked = some w → C.Has w → w.number < a.number)
      (lost : d.durabilityLost = true → d'.durabilityLost = true) (tick : t ≠ .idle)
  | folded (mark : MarkBelow C d) (on : ∀ b ∈ d'.engine.observed, C.Has b) (status : d'.engine.status = .active)
      (le : d.engine.cursor ≤ d'.engine.cursor)
      (more : ∃ x ∈ above C d.config.startBlock d.engine.cursor C.headNumber,
        some x.pos ≤ d'.engine.cursor)
      (caughtUp : d'.caughtUp = false) (tick : t ≠ .idle)
  | stopped (mark : MarkBelow C d) (status : d'.engine.status ≠ .active) (n : ℕ)
      (le : n ≤ C.headNumber)
      (on : ∀ b ∈ d.engine.observed, C.Has b)
      (failed : errorOf (consume A (above C d.config.startBlock d.engine.cursor n) d.engine
        ApplySummary.zero).2 ≠ none)
  | recovered (off : ∃ b ∈ d.engine.observed, ¬ C.Has b) (ends : OnOrBeyond C τ d d' t)

section Poll

variable {A : Fold σ E ε} {chains : Set (Chain E)} {C : Chain E} {τ : Trace E} {top : ℕ}
  {d d' : Driver σ κ} {t : Tick}

theorem Polled.of_append {τ₁ τ₂ : Trace E} (h : Polled A C τ₂ d d' t) :
    Polled A C (τ₁ ++ τ₂) d d' t := by
  cases h with
  | lagging w mark behind on engine caughtUp tick =>
      exact .lagging w mark behind on engine caughtUp tick
  | idle mark on covered engine caughtUp tick => exact .idle mark on covered engine caughtUp tick
  | capped a mark on engine caughtUp walked has past lost tick =>
      exact .capped a mark on engine caughtUp walked has past lost tick
  | folded mark on status le more caughtUp tick =>
      exact .folded mark on status le more caughtUp tick
  | stopped mark status n le on failed => exact .stopped mark status n le on failed
  | recovered off ends =>
      refine .recovered off ?_
      cases ends with
      | on status on caughtUp tick => exact .on status on caughtUp tick
      | beyond status horizon beyond told =>
          obtain ⟨x, hx, heq⟩ := told
          exact .beyond status horizon beyond ⟨x, List.mem_append_right _ hx, heq⟩

/-- A refused batch starts a recovery. -/
theorem applyScan_forked (K : Sink κ σ) {b : Batch E} {head : BlockRef} {cap : Option BlockRef}
    (h : ∃ err, Forked err ∧ d.engine.applyBatch A b = (d.engine, .error err)) :
    d.applyScan A K b head cap =
      ({ d with consecutiveErrors := 0, walked := none } : Driver σ κ).recoverViaBisection := by
  obtain ⟨err, hforked, heq⟩ := h
  unfold applyScan
  cases hforked with
  | missingBoundary => simp only [heq]
  | forkSuspected observed refetched hne => simp only [heq]

/-- An accepted batch. -/
theorem applyScan_ok (K : Sink κ σ) {b : Batch E} {head : BlockRef} {cap : Option BlockRef}
    {summary : ApplySummary} (h : (d.engine.applyBatch A b).2 = .ok summary) :
    d.applyScan A K b head cap = pure (({ d with
      consecutiveErrors := 0
      walked := none
      engine := (d.engine.applyBatch A b).1 } : Driver σ κ).accept K summary head d.walked cap
        b.isEmpty) := by
  unfold applyScan
  rcases hap : d.engine.applyBatch A b with ⟨e, err | s⟩
  · rw [hap] at h
    cases h
  · rw [hap, Except.ok.injEq] at h
    simp only [hap, h]

/-- A batch that stops the engine. -/
theorem applyScan_stopped (K : Sink κ σ) {b : Batch E} {head : BlockRef}
    {cap : Option BlockRef} {err : ApplyError ε}
    (h : (d.engine.applyBatch A b).2 = .error err)
    (herr : ∃ pos error, err = .halted pos error ∨ err = .poisoned pos error)
    (hrun : RunsOn (d.applyScan A K b head cap) τ (d', t)) :
    d'.engine = (d.engine.applyBatch A b).1 := by
  unfold applyScan at hrun
  rcases hap : d.engine.applyBatch A b with ⟨e, err' | s⟩
  · rw [hap, Except.error.injEq] at h
    subst h
    obtain ⟨pos, error, rfl | rfl⟩ := herr
    · simp only [hap] at hrun
      rw [runsOn_pure_iff, Prod.mk.injEq] at hrun
      rw [hrun.2.1]
    · simp only [hap] at hrun
      rw [runsOn_pure_iff, Prod.mk.injEq] at hrun
      rw [hrun.2.1]
  · rw [hap] at h
    cases h

theorem stays_checkpoint (e : Engine σ) : Stays e e.checkpoint := by
  unfold Engine.checkpoint
  split_ifs
  · exact ⟨rfl, rfl, rfl, rfl⟩
  · exact ⟨rfl, rfl, rfl, rfl⟩

theorem Stays.trans {e₁ e₂ e₃ : Engine σ} (h : Stays e₁ e₂) (h' : Stays e₂ e₃) : Stays e₁ e₃ :=
  ⟨h'.fold.trans h.fold, h'.cursor.trans h.cursor, h'.observed.trans h.observed,
    h'.status.trans h.status⟩

theorem stays_of_untouched {e e' : Engine σ} (h : Untouched e e') : Stays e e' :=
  ⟨h.fold, h.cursor, congrArg BlockRing.iter h.ring, h.status⟩

/-- Only a walked mark can be above a head that is at or above the cursor block. -/
theorem exists_mark_above {n : ℕ}
    (hbelow : (d.floor.any fun floor => decide (n < floor)) = true)
    (hle : ∀ p, d.engine.cursor = some p → p.block ≤ n) :
    ∃ w, d.walked = some w ∧ n < w.number := by
  unfold Driver.floor at hbelow
  cases hw : d.walked with
  | some w =>
      rw [hw] at hbelow
      exact ⟨w, rfl, by simpa using hbelow⟩
  | none =>
      cases hc : d.engine.cursor with
      | none => simp [hw, hc] at hbelow
      | some p =>
          rw [hw, hc] at hbelow
          have hlt : n < p.block := by simpa using hbelow
          exact absurd (hle p hc) (not_le.mpr hlt)

/-- **What a poll does** while every answer comes from one chain. -/
theorem pollApply_polled (hcom : Committed chains) (hC : C ∈ chains) (K : Sink κ σ)
    (hrun : RunsOn (d.pollApply A K) τ (d', t)) (hτ : AnsweredBy C τ) (hd : Good A chains top d)
    (hactive : d.engine.status = .active)
    (hle : ∀ p, d.engine.cursor = some p → p.block ≤ C.headNumber) :
    Polled A C τ d d' t := by
  unfold pollApply at hrun
  rw [if_pos (EngineStatus.isActive_iff.mpr hactive)] at hrun
  obtain ⟨τ₁, out, τ₂, rfl, hscan, hgo⟩ := runsOn_bind_iff.mp hrun
  obtain ⟨hτ₁, hτ₂⟩ := AnsweredBy.append.mp hτ
  set d₀ : Driver σ κ := { d with generation := d.generation + 1 } with hd₀
  have hgood : Good A chains top d₀ := hd.of_eq rfl rfl rfl (Or.inl rfl) rfl
  have hnumber : ∀ b ∈ d.engine.observed, b.number ≤ C.headNumber := by
    intro b hb
    cases hc : d.engine.cursor with
    | none =>
        have hnil : d.engine.observed = [] := hd.sound.ringOk.iter_eq_nil_iff.mp hc
        rw [hnil] at hb
        simp at hb
    | some p => exact (hd.sound.ringOk.number_le hc b hb).trans (hle p hc)
  -- a recovery starts with an engine that is off the chain
  have hforked : ∀ (walked : Option BlockRef) (b : Batch E) (head : BlockRef)
      (cap : Option BlockRef), Shown C d.engine.cursor b →
      ((∃ err, Forked err ∧ d.engine.applyBatch A b = (d.engine, .error err)) ∧
        ∃ p, d.engine.cursor = some p ∧
          (b.boundary = none ∨ ∃ a ∈ d.engine.observed, ¬ C.Has a)) →
      RunsOn (({ d₀ with walked := walked } : Driver σ κ).applyScan A K b head cap) τ₂ (d', t) →
      Polled A C (τ₁ ++ τ₂) d d' t := by
    rintro walked b head cap hshown ⟨hforked, p, hp, hwhy⟩ happly
    rw [applyScan_forked (d := { d₀ with walked := walked }) K hforked] at happly
    have hends := recoverViaBisection_on (A := A)
      (d := { d₀ with consecutiveErrors := 0, walked := none }) hcom hC hd.sound hactive happly hτ₂
    refine Polled.of_append (.recovered ?_ ?_)
    · rcases hwhy with hnone | hoff
      · have href := hshown p hp hnone
        obtain ⟨a, ha, hna⟩ := C.exists_refAt (hle p hp)
        rw [Chain.refAt_eq_some_iff.mpr ⟨ha, hna⟩] at href
        cases href
      · exact hoff
    · cases hends with
      | on status on caughtUp tick => exact .on status on caughtUp tick
      | beyond status horizon beyond told => exact .beyond status horizon beyond told
  cases scanCases hscan with
  | headError D => cases hτ₁.head
  | @lagError head D τ₃ below h =>
      have heq := hτ₁.head
      rw [Option.some.injEq] at heq
      subst heq
      cases isLagging_spec hnumber h hτ₁.tail
  | @lagging head D τ₃ below h =>
      have heq := hτ₁.head
      rw [Option.some.injEq] at heq
      subst heq
      have hlag := isLagging_spec hnumber h hτ₁.tail
      rw [Option.some.injEq, eq_comm, decide_eq_true_eq] at hlag
      rw [runsOn_pure_iff, Prod.mk.injEq] at hgo
      -- only a walked mark can be above the head
      obtain ⟨w, hw, hlt⟩ := exists_mark_above (d := d₀) below hle
      have hon : ∀ b ∈ d.engine.observed, C.Has b := by
        intro b hb
        cases hc : d.engine.cursor with
        | none =>
            have hnil : d.engine.observed = [] := hd.sound.ringOk.iter_eq_nil_iff.mp hc
            rw [hnil] at hb
            simp at hb
        | some p =>
            obtain ⟨newest, hnewest, hnum⟩ := hd.sound.ringOk.getLast? hc
            have hback := hd.sound.engine (Or.inl hactive)
            rw [hc] at hback
            exact (hback.on hcom hC (List.mem_of_getLast? hnewest) hnum (hlag newest hnewest)).1 b hb
              (hd.sound.ringOk.number_le hc b hb)
      rw [hgo.2.1, hgo.2.2]
      exact .lagging w hw hlt hon rfl rfl rfl
  | @walked head D τ₃ τ₄ _ below h =>
      have heq := hτ₁.head
      rw [Option.some.injEq] at heq
      subst heq
      obtain ⟨hτ₃, hτ₄⟩ := AnsweredBy.append.mp hτ₁.tail
      have hmark : (∀ b ∈ d.engine.observed, C.Has b) → MarkBelow C d := by
        intro hon w hw
        by_contra hgt
        have hlt : C.head.number < w.number := not_le.mp hgt
        have hlag := isLagging_spec hnumber (below (by simpa [Driver.floor, hd₀, hw] using hlt)) hτ₃
        rw [Option.some.injEq, eq_comm, decide_eq_false_iff_not] at hlag
        exact hlag fun b hb => hon b (List.mem_of_getLast? hb)
      have hout := scanFrom_spec hcom hC Chain.has_head (hgood.started hactive)
        (hgood.marked hactive) h (hτ₄.through hC) (Or.inl fun x hx => (hτ₄ x hx).1)
      cases hoc : out.outcome with
      | none =>
          rw [hoc] at hout
          exact absurd hout hτ₄.not_failed
      | some scan =>
          simp only [hoc] at hgo hout
          cases scan with
          | refused => exact hout.elim
          | lagging => exact hout.elim
          | ready head' =>
              dsimp only at hgo
              obtain ⟨rfl, hshown, n, hn, hbatch, hfull⟩ := hout
              obtain ⟨-, hcases⟩ := hd.sound.applyBatch hcom hC hactive hbatch
              rcases hcases with hfork | hadv
              · exact hforked _ _ _ _ hshown hfork hgo
              · rcases hr : (d.engine.applyBatch A out.batch).2 with err | summary
                · obtain ⟨hfailed, hstop⟩ := hadv.stop hr
                  refine .stopped (hmark hadv.before) ?_ n hn hadv.before hfailed
                  rw [applyScan_stopped (d := { d₀ with walked := out.walked }) K hr hstop hgo]
                  exact hadv.error err hr
                · rw [applyScan_ok (d := { d₀ with walked := out.walked }) K hr, runsOn_pure_iff] at hgo
                  obtain ⟨e, sink, c, s, refused, he, hrefused, hacc⟩ := accept_eq K
                    ({ d₀ with
                      consecutiveErrors := 0
                      walked := none
                      engine := (d.engine.applyBatch A out.batch).1 } : Driver σ κ)
                    summary C.head out.walked none out.batch.isEmpty
                  have hstays : Stays (d.engine.applyBatch A out.batch).1 e := by
                    rcases he with rfl | rfl
                    · exact ⟨rfl, rfl, rfl, rfl⟩
                    · exact stays_checkpoint _
                  have heq := hgo.2.trans hacc
                  rw [Prod.mk.injEq] at heq
                  obtain ⟨hd', ht⟩ := heq
                  obtain ⟨hstatus, hcov⟩ := hadv.ok summary hr
                  cases hempty : out.batch.isEmpty with
                  | true =>
                      have hu := applyBatch_empty A d.engine hempty
                      rw [hempty] at hd' ht
                      refine .idle (hmark hadv.before) hadv.before ?_ ((stays_of_untouched hu).trans ?_) ?_ ?_
                      · rw [hfull hempty] at hcov
                        rw [← hu.cursor]
                        exact hcov
                      · rw [hd']
                        exact hstays
                      · rw [hd']
                        rfl
                      · cases refused with
                        | false => exact Or.inl ht
                        | true =>
                            refine Or.inr ⟨?_, hrefused rfl, ?_⟩
                            · rw [ht]
                              simp
                            · rw [hd']
                              exact Bool.or_true _
                  | false =>
                      rw [hempty] at hd' ht
                      refine .folded (hmark hadv.before) ?_ ?_ ?_ ?_ ?_ ?_
                      · rw [hd']
                        show ∀ b ∈ e.observed, C.Has b
                        rw [hstays.observed]
                        exact hadv.has
                      · rw [hd']
                        exact hstays.status.trans hstatus
                      · rw [hd']
                        show _ ≤ e.cursor
                        rw [hstays.cursor]
                        exact hadv.cursor_le
                      · have hne : above C d.config.startBlock d.engine.cursor n ≠ [] := by
                          intro hnil
                          rw [← hbatch.events, ← isEmpty_iff_chainEvents hbatch.valid, hempty] at hnil
                          cases hnil
                        obtain ⟨x, hx⟩ := List.exists_mem_of_ne_nil _ hne
                        obtain ⟨hmem, habove⟩ := List.mem_filter.mp hx
                        obtain ⟨hblock, hsx, hxn⟩ := Chain.mem_eventsIn_iff.mp hmem
                        refine ⟨x, List.mem_filter.mpr ⟨Chain.mem_eventsIn_iff.mpr
                          ⟨hblock, hsx, hxn.trans hn⟩, habove⟩, ?_⟩
                        rw [hd']
                        show _ ≤ e.cursor
                        rw [hstays.cursor]
                        exact hcov x hblock hsx (by omega)
                      · rw [hd']
                        rfl
                      · rw [ht]
                        cases refused <;> simp
          | capped a head' =>
              dsimp only at hgo
              obtain ⟨rfl, hcap⟩ := hout
              obtain ⟨-, hcases⟩ := hd.sound.applyBatch hcom hC hactive hcap.batch
              rcases hcases with hfork | hadv
              · exact hforked _ _ _ _ hcap.shown hfork hgo
              · rcases hr : (d.engine.applyBatch A out.batch).2 with err | summary
                · obtain ⟨hfailed, hstop⟩ := hadv.stop hr
                  refine .stopped (hmark hadv.before) ?_ a.number hcap.has.le hadv.before hfailed
                  rw [applyScan_stopped (d := { d₀ with walked := out.walked }) K hr hstop hgo]
                  exact hadv.error err hr
                · rw [applyScan_ok (d := { d₀ with walked := out.walked }) K hr, runsOn_pure_iff] at hgo
                  obtain ⟨e, sink, c, s, refused, he, hrefused, hacc⟩ := accept_eq K
                    ({ d₀ with
                      consecutiveErrors := 0
                      walked := none
                      engine := (d.engine.applyBatch A out.batch).1 } : Driver σ κ)
                    summary C.head out.walked (some a) out.batch.isEmpty
                  have hstays : Stays (d.engine.applyBatch A out.batch).1 e := by
                    rcases he with rfl | rfl
                    · exact ⟨rfl, rfl, rfl, rfl⟩
                    · exact stays_checkpoint _
                  have heq := hgo.2.trans hacc
                  rw [Prod.mk.injEq, hcap.empty] at heq
                  obtain ⟨hd', ht⟩ := heq
                  have hu := applyBatch_empty A d.engine hcap.empty
                  refine .capped a (hmark hadv.before) hadv.before ((stays_of_untouched hu).trans ?_) ?_ ?_ hcap.has
                    (hcap.past fun x hx => (hτ₄ x hx).1) ?_ ?_
                  · rw [hd']
                    exact hstays
                  · rw [hd']
                    rfl
                  · rw [hd']
                    rfl
                  · intro hlost
                    rw [hd']
                    show (d.durabilityLost || refused) = true
                    rw [hlost, Bool.true_or]
                  · rw [ht]
                    cases refused <;> simp

end Poll

end Driver

end Works.Chainfold
