import Mathlib.Data.List.TakeWhile
import Works.Chainfold.DriverRun
import Works.Chainfold.Rollback

/-! # Recovery from a fork

A driver that is off the chain of its source bisects the observed blocks for the newest one that
is on it.  Chains agree below a block they share, so the observed blocks that are on the chain are
a first part of the ring, and the bisection counts it (`bisect_spec`).  The driver rolls back with
the number of the last of them, which leaves an engine on the chain; without such a block or
without a checkpoint below it, it starts again or gives up (`Reached.recovers_deepest`). -/

namespace Works.Chainfold

open Works.Lib Prog Engine BlockRing

variable {σ E ε κ : Type}

/-! ### The blocks two chains share -/

/-- A list of blocks, split where it leaves a chain. -/
structure Forks (C : Chain E) (observed kept gone : List BlockRef) : Prop where
  split : observed = kept ++ gone
  kept : ∀ b ∈ kept, C.Has b
  gone : ∀ b ∈ gone, ¬ C.Has b

/-- **The blocks of one chain that are on another** are a first part of them. -/
theorem Committed.exists_forks {chains : Set (Chain E)} (hcom : Committed chains) {C D : Chain E}
    (hC : C ∈ chains) (hD : D ∈ chains) : ∀ {observed : List BlockRef}, Ascending observed →
      (∀ b ∈ observed, D.Has b) → ∃ kept gone, Forks C observed kept gone
  | [], _, _ => ⟨[], [], rfl, by simp, by simp⟩
  | b :: bs, hasc, hon => by
      obtain ⟨hb, hbs⟩ := List.pairwise_cons.mp hasc
      by_cases hCb : C.Has b
      · obtain ⟨kept, gone, hforks⟩ := hcom.exists_forks hC hD hbs
          fun a ha => hon a (List.mem_cons_of_mem b ha)
        refine ⟨b :: kept, gone, ?_, ?_, hforks.gone⟩
        · rw [hforks.split, List.cons_append]
        · exact List.forall_mem_cons.mpr ⟨hCb, hforks.kept⟩
      · refine ⟨[], b :: bs, rfl, by simp, List.forall_mem_cons.mpr ⟨hCb, ?_⟩⟩
        -- a later block on the chain would bring this one with it
        intro a ha hCa
        exact hCb (hcom.has hD hC (hon a (List.mem_cons_of_mem b ha)) hCa
          (hon b List.mem_cons_self) (hb a ha).le)

theorem Sound.exists_forks {A : Fold σ E ε} {chains : Set (Chain E)} (hcom : Committed chains)
    {C : Chain E} (hC : C ∈ chains) {start : ℕ} {init : σ} {e : Engine σ}
    (h : Sound A chains start init e) (hactive : e.status = .active) :
    ∃ kept gone, Forks C e.observed kept gone := by
  cases hc : e.cursor with
  | none =>
      have hnil : e.observed = [] := h.ringOk.iter_eq_nil_iff.mp hc
      rw [hnil]
      exact ⟨[], [], rfl, by simp, by simp⟩
  | some p =>
      obtain ⟨-, D, hD, hhas, -⟩ := (h.engine (Or.inl hactive)).chain p hc
      refine hcom.exists_forks hC hD h.ringOk.ascending ?_
      intro b hb
      exact hhas b hb (h.ringOk.number_le hc b hb)

section Forks

variable {C : Chain E} {observed kept gone : List BlockRef}

theorem Forks.length (h : Forks C observed kept gone) : kept.length ≤ observed.length := by
  rw [h.split, List.length_append]
  exact Nat.le_add_right _ _

/-- The chain has the block at a place below the split, and no other. -/
theorem Forks.has_iff (h : Forks C observed kept gone) {i : ℕ} {b : BlockRef}
    (hb : observed[i]? = some b) : C.Has b ↔ i < kept.length := by
  rw [h.split] at hb
  constructor
  · intro hCb
    by_contra hge
    rw [List.getElem?_append_right (not_lt.mp hge)] at hb
    exact h.gone b (List.mem_of_getElem? hb) hCb
  · intro hlt
    rw [List.getElem?_append_left hlt] at hb
    exact h.kept b (List.mem_of_getElem? hb)

/-- The header of the chain at the number of a block has its hash exactly on the chain. -/
theorem Chain.refAt_hash_iff {b : BlockRef} :
    ((C.refAt b.number).any fun header => decide (header.hash = b.hash)) = true ↔ C.Has b := by
  unfold Chain.Has
  cases ha : C.refAt b.number with
  | none => simp
  | some a =>
      obtain ⟨-, hnumber⟩ := Chain.refAt_eq_some_iff.mp ha
      simp only [Option.any_some, decide_eq_true_eq, Option.some.injEq]
      constructor
      · intro hhash
        cases a
        cases b
        exact congrArg₂ BlockRef.mk hnumber hhash
      · intro heq
        rw [heq]

end Forks

/-! ### The bisection -/

/-- Every answer comes from one chain or is a failure. -/
def StandsOn (C : Chain E) (τ : Trace E) : Prop := ∀ x ∈ τ, x.2 = C ∧ Truthful C x.1

/-- Some answer is a failure. -/
def Fails (τ : Trace E) : Prop := ∃ x ∈ τ, ¬ Answered x.1

section Bisect

variable {C : Chain E} {observed kept gone : List BlockRef}

theorem StandsOn.append {τ₁ τ₂ : Trace E} :
    StandsOn C (τ₁ ++ τ₂) ↔ StandsOn C τ₁ ∧ StandsOn C τ₂ := by
  unfold StandsOn
  rw [List.forall_mem_append]

theorem StandsOn.headerAt {n : ℕ} {header : Option BlockRef} {D : Chain E} {τ : Trace E}
    (h : StandsOn C ((⟨.headerAt n, some header⟩, D) :: τ)) : header = C.refAt n :=
  (h _ List.mem_cons_self).2 header rfl

theorem StandsOn.tail {x : Exchange (Answer E) × Chain E} {τ : Trace E}
    (h : StandsOn C (x :: τ)) : StandsOn C τ :=
  fun y hy => h y (List.mem_cons_of_mem x hy)

theorem Fails.append {τ₁ τ₂ : Trace E} : Fails (τ₁ ++ τ₂) ↔ Fails τ₁ ∨ Fails τ₂ := by
  unfold Fails
  simp only [List.mem_append, or_and_right, exists_or]

theorem fails_cons_headerAt {n : ℕ} {header : Option BlockRef} {D : Chain E} {τ : Trace E} :
    Fails ((⟨.headerAt n, some header⟩, D) :: τ) ↔ Fails τ := by
  simp [Fails, Answered]

/-- **The bisection counts the blocks on the chain**, unless a probe fails. -/
theorem bisect_spec (hforks : Forks C observed kept gone) : ∀ (fuel : ℕ) {lo hi : ℕ}
    {τ : Trace E} {found : Option ℕ}, lo ≤ kept.length → kept.length ≤ hi →
    hi ≤ observed.length → hi ≤ lo + fuel →
    RunsOn (Driver.bisect observed fuel lo hi) τ found → StandsOn C τ →
    (found = none ∧ Fails τ) ∨ (found = some kept.length ∧ ¬ Fails τ)
  | 0, lo, hi, τ, found, hlo, hhi, _, hfuel, hrun, _ => by
      rw [Driver.bisect, runsOn_pure_iff] at hrun
      refine Or.inr ⟨?_, by simp [hrun.1, Fails]⟩
      rw [hrun.2, show lo = kept.length by omega]
  | fuel + 1, lo, hi, τ, found, hlo, hhi, hlen, hfuel, hrun, hτ => by
      rw [Driver.bisect] at hrun
      split_ifs at hrun with hlt
      · dsimp only at hrun
        have hmid : lo + (hi - lo) / 2 < observed.length := by omega
        rw [List.getElem?_eq_getElem hmid] at hrun
        obtain ⟨r, D, τ', rfl, hgo⟩ := runsOn_query_bind_iff.mp hrun
        cases r with
        | none =>
            rw [runsOn_pure_iff] at hgo
            exact Or.inl ⟨hgo.2, _, List.mem_cons_self, by simp [Answered]⟩
        | some header =>
            have hhas := hforks.has_iff (List.getElem?_eq_getElem hmid)
            rw [hτ.headerAt] at hgo
            dsimp only at hgo
            rw [fails_cons_headerAt]
            split_ifs at hgo with hsame
            · have hbelow := hhas.mp (Chain.refAt_hash_iff.mp hsame)
              exact bisect_spec hforks fuel (by omega) hhi hlen (by omega) hgo hτ.tail
            · have habove := mt hhas.mpr (mt Chain.refAt_hash_iff.mpr hsame)
              exact bisect_spec hforks fuel hlo (not_lt.mp habove) (by omega) (by omega) hgo
                hτ.tail
      · rw [runsOn_pure_iff] at hrun
        refine Or.inr ⟨?_, by simp [hrun.1, Fails]⟩
        rw [hrun.2, show lo = kept.length by omega]

end Bisect

/-! ### Where a recovery ends -/

/-- The events from a block on can be had again. -/
def ReplayHorizon.Reaches (start : ℕ) (horizon : ReplayHorizon) : Prop :=
  ∀ number, horizon = .fromBlock number → number ≤ start

/-- No checkpoint can be restored at or below the last of the blocks. -/
def NothingBelow (e : Engine σ) (kept : List BlockRef) : Prop :=
  ∀ common, kept.getLast? = some common →
    ∀ s ∈ e.checkpoints.stored, live s e.ring = true → ¬ AtOrBelow common.number s.cursor

/-- The cursor block and all that is observed is on the chain. -/
structure SettledOn (C : Chain E) (e : Engine σ) : Prop where
  cursor : ∀ p, e.cursor = some p → ∃ b, C.Has b ∧ b.number = p.block
  observed : ∀ b ∈ e.observed, C.Has b

/-- Where a recovery ends when the observed blocks on the chain are `kept`. -/
inductive Recovery (C : Chain E) (kept : List BlockRef) (τ : Trace E) (d d' : Driver σ κ)
    (t : Tick) : Prop
  | failed (fails : Fails τ) (engine : d'.engine = d.engine) (tick : t = .sourceError)
  | rolledBack (answered : ¬ Fails τ) (common : BlockRef) (newest : kept.getLast? = some common)
      (to_ : Cursor) (rollback : d.engine.rollbackAtOrBelow common.number = (d'.engine, .ok to_))
      (cursor : d'.engine.cursor = to_) (settled : SettledOn C d'.engine)
      (caughtUp : d'.caughtUp = false) (tick : t = .rolledBack to_)
  | restarted (answered : ¬ Fails τ) (nothing : NothingBelow d.engine kept)
      (horizon : ReplayHorizon) (told : (⟨.horizon, horizon⟩, C) ∈ τ)
      (reaches : horizon.Reaches d.config.startBlock)
      (engine : d'.engine = d.engine.reset d.initial) (caughtUp : d'.caughtUp = false)
      (tick : t = .resynced)
  | beyond (answered : ¬ Fails τ) (nothing : NothingBelow d.engine kept) (number : ℕ)
      (told : (⟨.horizon, .fromBlock number⟩, C) ∈ τ) (lost : d.config.startBlock < number)
      (engine : d'.engine =
        d.engine.markUnrecoverable (.horizonExceeded d.config.startBlock number))
      (tick : t = .terminal d'.engine.status)

namespace Driver

section Ends

variable {C : Chain E} {kept gone : List BlockRef} {τ : Trace E} {d d' : Driver σ κ} {t : Tick}

theorem resyncOrTerminal_ends (hnothing : NothingBelow d.engine kept) (hτ : StandsOn C τ)
    (hrun : RunsOn d.resyncOrTerminal τ (d', t)) : Recovery C kept τ d d' t := by
  obtain ⟨horizon, D, τ', rfl, hgo⟩ := runsOn_query_bind_iff.mp hrun
  obtain rfl : D = C := (hτ _ List.mem_cons_self).1
  have hanswered : τ' = [] → ¬ Fails ((⟨.horizon, horizon⟩, D) :: τ' : Trace E) := by
    rintro rfl
    simp [Fails, Answered]
  have hresync : τ' = [] ∧ (d', t) = d.resync → horizon.Reaches d.config.startBlock →
      Recovery D kept ((⟨.horizon, horizon⟩, D) :: τ') d d' t := by
    rintro ⟨hnil, heq⟩ hreaches
    rw [resync, Prod.mk.injEq] at heq
    rw [heq.1, heq.2]
    exact .restarted (hanswered hnil) hnothing horizon List.mem_cons_self hreaches rfl rfl rfl
  cases horizon with
  | genesis =>
      rw [runsOn_pure_iff] at hgo
      exact hresync hgo (by simp [ReplayHorizon.Reaches])
  | fromBlock number =>
      dsimp only at hgo
      split_ifs at hgo with hlt
      · rw [runsOn_pure_iff, Prod.mk.injEq] at hgo
        obtain ⟨hnil, rfl, rfl⟩ := hgo
        exact .beyond (hanswered hnil) hnothing number List.mem_cons_self hlt rfl rfl
      · rw [runsOn_pure_iff] at hgo
        refine hresync hgo ?_
        intro number' heq
        cases heq
        exact not_lt.mp hlt

/-- A checkpoint at or below a common block leaves the engine on the chain. -/
theorem settledOn_restore {e : Engine σ} (hr : e.RingOk) (hforks : Forks C e.observed kept gone)
    {common : BlockRef} (hcommon : common ∈ kept) {slot : Slot σ}
    (hlive : live slot e.ring = true) (hbelow : AtOrBelow common.number slot.cursor) :
    SettledOn C (e.restore slot) := by
  have hasc : Ascending (kept ++ gone) := hforks.split ▸ hr.ascending
  have hr' := RingOk.restore hr hlive
  have hon : ∀ b ∈ (e.restore slot).observed, C.Has b := by
    intro b hb
    cases hc : slot.cursor with
    | none =>
        have hnil : (e.restore slot).observed = [] := hr'.iter_eq_nil_iff.mp hc
        rw [hnil] at hb
        simp at hb
    | some p =>
        have hle : b.number ≤ common.number := (hr'.number_le hc b hb).trans (hbelow p hc)
        have hmem := observed_restore hr slot b hb
        rw [hforks.split, List.mem_append] at hmem
        rcases hmem with hkept | hgone
        · exact hforks.kept b hkept
        · -- what is off the chain is above every common block
          have hlt := (List.pairwise_append.mp hasc).2.2 common hcommon b hgone
          omega
  refine ⟨?_, hon⟩
  intro p hp
  obtain ⟨b, hb, hnumber⟩ := hr'.getLast? hp
  exact ⟨b, hon b (List.mem_of_getLast? hb), hnumber⟩

theorem rollBackTo_ends (hr : d.engine.RingOk) (hactive : d.engine.status = .active)
    (hforks : Forks C d.engine.observed kept gone) {common : BlockRef}
    (hnewest : kept.getLast? = some common) (hτ : StandsOn C τ)
    (hrun : RunsOn (d.rollBackTo common.number) τ (d', t)) : Recovery C kept τ d d' t := by
  unfold rollBackTo at hrun
  rcases hrb : d.engine.rollbackAtOrBelow common.number with ⟨e, err | c⟩
  · cases err with
    | noCheckpointAtOrBelow block =>
        simp only [hrb] at hrun
        rw [rollback_error hrb] at hrun
        refine resyncOrTerminal_ends ?_ hτ hrun
        intro common' hnewest'
        rw [hnewest, Option.some.injEq] at hnewest'
        rw [← hnewest', ← bestAtOrBelow_eq_none]
        unfold Engine.rollbackAtOrBelow at hrb
        rw [hactive] at hrb
        cases hbest : d.engine.checkpoints.bestAtOrBelow common.number d.engine.ring with
        | none => rfl
        | some slot =>
            rw [hbest] at hrb
            simp at hrb
    | unrecoverable cause =>
        unfold Engine.rollbackAtOrBelow at hrb
        rw [hactive] at hrb
        dsimp only at hrb
        split at hrb
        · simp at hrb
        · simp at hrb
  · simp only [hrb] at hrun
    rw [runsOn_pure_iff, Prod.mk.injEq] at hrun
    obtain ⟨rfl, rfl, rfl⟩ := hrun
    obtain ⟨slot, hbest, hcursor, hrestored⟩ := rollback_cases hrb
    obtain ⟨-, -, -, hlive, hbelow, -⟩ := bestAtOrBelow_eq _ _ _ hbest
    refine .rolledBack (by simp [Fails]) common hnewest c hrb ?_ ?_ rfl rfl
    · show e.cursor = c
      rw [hrestored, hcursor]
      rfl
    · show SettledOn C e
      rw [hrestored]
      exact settledOn_restore hr hforks (List.mem_of_getLast? hnewest) hlive hbelow

/-- **A recovery goes back to the newest common block**, or to the start. -/
theorem recoverViaBisection_ends (hr : d.engine.RingOk) (hactive : d.engine.status = .active)
    (hforks : Forks C d.engine.observed kept gone) (hτ : StandsOn C τ)
    (hrun : RunsOn d.recoverViaBisection τ (d', t)) : Recovery C kept τ d d' t := by
  obtain ⟨τ₁, found, τ₂, rfl, hbisect, hgo⟩ := runsOn_bind_iff.mp hrun
  obtain ⟨hτ₁, hτ₂⟩ := StandsOn.append.mp hτ
  rcases bisect_spec hforks _ (Nat.zero_le _) hforks.length le_rfl (by simp) hbisect hτ₁ with
    ⟨rfl, hfails⟩ | ⟨rfl, hanswered⟩
  · rw [runsOn_pure_iff, Prod.mk.injEq] at hgo
    rw [hgo.2.1, hgo.2.2]
    exact .failed (Fails.append.mpr (Or.inl hfails)) rfl rfl
  · -- the probes did not fail, so the rest of the trace decides
    have hends : Recovery C kept τ₂ { d with vouched := none } d' t →
        Recovery C kept (τ₁ ++ τ₂) d d' t := by
      intro h
      have happend : ¬ Fails τ₂ → ¬ Fails (τ₁ ++ τ₂) := by
        intro h
        rw [Fails.append]
        exact not_or.mpr ⟨hanswered, h⟩
      cases h with
      | failed fails engine tick => exact .failed (Fails.append.mpr (Or.inr fails)) engine tick
      | rolledBack answered common newest to_ rollback cursor settled caughtUp tick =>
          exact .rolledBack (happend answered) common newest to_ rollback cursor settled caughtUp
            tick
      | restarted answered nothing horizon told reaches engine caughtUp tick =>
          exact .restarted (happend answered) nothing horizon (List.mem_append_right _ told)
            reaches engine caughtUp tick
      | beyond answered nothing number told lost engine tick =>
          exact .beyond (happend answered) nothing number (List.mem_append_right _ told) lost
            engine tick
    apply hends
    dsimp only at hgo
    cases hlast : kept.getLast? with
    | none =>
        rw [List.getLast?_eq_none_iff.mp hlast, List.length_nil, if_pos rfl] at hgo
        refine resyncOrTerminal_ends ?_ hτ₂ hgo
        intro common hnewest
        rw [hlast] at hnewest
        cases hnewest
    | some common =>
        have hpos : 0 < kept.length :=
          List.length_pos_of_mem (List.mem_of_getLast? hlast)
        have hget : d.engine.observed[kept.length - 1]? = some common := by
          rw [hforks.split, List.getElem?_append_left (by omega), ← List.getLast?_eq_getElem?,
            hlast]
        rw [if_neg hpos.ne', hget] at hgo
        exact rollBackTo_ends (d := { d with vouched := none }) hr hactive hforks hlast hτ₂ hgo

end Ends

end Driver

/-- **Fork recovery finds the newest common block.**  Whatever chains the driver has followed, the
observed blocks on the chain the source now stands on are a first part of the ring, and the
recovery rolls back with the number of the last of them. -/
theorem Reached.recovers_deepest {A : Fold σ E ε} {K : Sink κ σ} {chains : Set (Chain E)}
    (hcom : Committed chains) {fold : σ} {config : DriverConfig} {d : Driver σ κ}
    (h : Reached A K chains Bracketed fold config d) (hactive : d.engine.status = .active)
    {C : Chain E} (hC : C ∈ chains) {d₀ d' : Driver σ κ} (hd : d₀.engine = d.engine)
    {τ : Trace E} {t : Tick} (hτ : StandsOn C τ)
    (hrun : RunsOn d₀.recoverViaBisection τ (d', t)) :
    ∃ kept gone, Forks C d₀.engine.observed kept gone ∧ Recovery C kept τ d₀ d' t := by
  obtain ⟨hkept, -, -⟩ := h.kept hcom fun τ hτ hb => bracketed_rule hτ hb
  rw [← hd] at hactive
  obtain ⟨kept, gone, hforks⟩ := (hd ▸ hkept.sound).exists_forks hcom hC hactive
  exact ⟨kept, gone, hforks,
    Driver.recoverViaBisection_ends (hd ▸ hkept.sound.ringOk) hactive hforks hτ hrun⟩

/-- The driver after two ticks on the short chain. -/
def sampleForked : Driver UInt64 Unit :=
  (sampleDriver.ticked sumFold noSink 1 (List.replicate 8 (true, shortChain))).ticked sumFold noSink
    1 (List.replicate 8 (true, shortChain))

theorem sampleForked_reached :
    Reached sumFold noSink sampleChains Bracketed 0 ⟨0, some 1, none⟩ sampleForked := by
  have hshort : shortChain ∈ sampleChains := Or.inr (Or.inl rfl)
  exact ((sampleDriver_reached Bracketed).next (Next.tickedOn hshort rfl)).next
    (Next.tickedOn hshort rfl)

theorem sampleForked_recovers : ∃ (τ : Trace ℕ) (d' : Driver UInt64 Unit),
    RunsOn sampleForked.recoverViaBisection τ (d', .rolledBack (some ⟨0, 0⟩)) ∧
      ∃ kept gone, Forks longChain sampleForked.engine.observed kept gone ∧
        Recovery longChain kept τ sampleForked d' (.rolledBack (some ⟨0, 0⟩)) := by
  have hplay : ((scripted (E := ℕ) .genesis 1 (List.replicate 4 (true, longChain))
      sampleForked.recoverViaBisection).2.map Prod.snd) = some (.rolledBack (some ⟨0, 0⟩)) := rfl
  obtain ⟨⟨d', t⟩, hrun, rfl⟩ := Option.map_eq_some_iff.mp hplay
  have hruns := (runsOn_scripted .genesis 1 hrun).1
  refine ⟨_, d', hruns, sampleForked_reached.recovers_deepest sampleChains_committed rfl
    (Or.inl rfl) rfl ?_ hruns⟩
  intro x hx
  obtain ⟨hchain, htrue, -⟩ := answeredBy_scripted .genesis 1 hrun x hx
  exact ⟨hchain, htrue⟩

end Works.Chainfold
