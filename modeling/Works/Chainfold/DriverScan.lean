import Works.Chainfold.Grouping

/-! # What a scan finds

A scan whose answers all come from chains through the head it read is as good as one against a
single chain: below the head these chains agree.  Then the batch holds exactly the events above
the cursor in the blocks from the start block up to some block, the boundary is a block of the
chain, and an empty batch means that there is nothing to fold up to where the walk ended
(`scanFrom_spec`).  What a walk may skip is what its marks say is covered. -/

namespace Works.Chainfold

open Works.Lib Prog BlockRing

variable {σ E ε κ : Type}

/-- Every answer comes from a chain of the run that goes through the block. -/
def Through (chains : Set (Chain E)) (head : BlockRef) (τ : Trace E) : Prop :=
  ∀ x ∈ τ, x.2 ∈ chains ∧ Truthful x.2 x.1 ∧ x.2.Has head

/-- The events of the blocks from `start` to before `n` are at or below the cursor. -/
def Covered (C : Chain E) (start : ℕ) (c : Cursor) (n : ℕ) : Prop :=
  ∀ x, x ∈ C.blockEvents x.block.number → start ≤ x.block.number → x.block.number < n →
    some x.pos ≤ c

/-- The events above the cursor in the blocks `start..=n`. -/
def above (C : Chain E) (start : ℕ) (c : Cursor) (n : ℕ) : List (ChainEvent E) :=
  (C.eventsIn start n).filter fun x => decide (c < some x.pos)

section Above

variable {C : Chain E} {start n : ℕ} {c : Cursor}

theorem Covered.mono {m : ℕ} (h : Covered C start c n) (hm : m ≤ n) : Covered C start c m :=
  fun x hx hs hlt => h x hx hs (lt_of_lt_of_le hlt hm)

theorem covered_iff : Covered C start c (n + 1) ↔ above C start c n = [] := by
  unfold above
  rw [List.filter_eq_nil_iff]
  constructor
  · intro h x hx
    obtain ⟨hb, hs, hn⟩ := Chain.mem_eventsIn_iff.mp hx
    simpa using h x hb hs (by omega)
  · intro h x hx hs hn
    simpa using h x (Chain.mem_eventsIn_iff.mpr ⟨hx, hs, by omega⟩)

/-- What is covered need not be read. -/
theorem above_eq {first : ℕ} (h : Covered C start c first) (hs : start ≤ first)
    (hn : first ≤ n + 1) :
    above C start c n = (C.eventsIn first n).filter fun x => decide (c < some x.pos) := by
  rcases Nat.eq_or_lt_of_le hs with rfl | hlt
  · rfl
  · obtain ⟨m, rfl⟩ : ∃ m, first = m + 1 := ⟨first - 1, by omega⟩
    rw [above, Chain.eventsIn_append (show start ≤ m + 1 by omega) (show m ≤ n by omega),
      List.filter_append]
    have hnil : above C start c m = [] := covered_iff.mp h
    rw [above] at hnil
    rw [hnil, List.nil_append]

/-- Nothing below the cursor block is above the cursor. -/
theorem covered_cursor {p : Position} (hc : c = some p) : Covered C start c p.block := by
  intro x _ _ hlt
  rw [hc]
  exact Option.some_le_some.mpr (Or.inl hlt)

theorem sorted_above : (above C start c n).Pairwise fun a b => a.pos < b.pos :=
  (Chain.sorted_eventsIn start n).filter _

theorem has_of_mem_eventsIn {first last : ℕ} {x : ChainEvent E} (h : x ∈ C.eventsIn first last) :
    C.Has x.block :=
  (Chain.mem_blockEvents (Chain.mem_eventsIn_iff.mp h).1).2

end Above

/-- A valid batch is empty when it has no events. -/
theorem isEmpty_iff_chainEvents {b : Batch E} (h : b.validate = .ok ()) :
    b.isEmpty = true ↔ b.chainEvents = [] := by
  have hv := b.validate_ok_iff.mp h
  rw [Batch.isEmpty_iff]
  constructor
  · intro hs
    rw [Batch.chainEvents, hs]
    rfl
  · intro he
    rw [Batch.chainEvents, List.flatMap_eq_nil_iff] at he
    rw [List.eq_nil_iff_forall_not_mem]
    intro s hs
    have hlen := Engine.length_chainEvents s (Batch.length_eq_of_mem_spans hs)
    rw [he s hs] at hlen
    exact hv.nonempty s hs (List.length_eq_zero_iff.mp hlen.symm)

/-- The block of the chain at the cursor. -/
def AtCursor (C : Chain E) (c : Cursor) (r : BlockRef) : Prop :=
  C.Has r ∧ ∀ p, c = some p → r.number = p.block

/-- The batch holds the events above the cursor up to block `n`, with the block of the chain at
the cursor as its boundary. -/
structure BatchOk (C : Chain E) (start : ℕ) (c : Cursor) (n : ℕ) (b : Batch E) : Prop where
  valid : b.validate = .ok ()
  boundary : ∀ r, b.boundary = some r → AtCursor C c r
  events : b.chainEvents = above C start c n

section Walk

variable {chains : Set (Chain E)} (hcom : Committed chains) {C : Chain E} (hC : C ∈ chains)
  {head : BlockRef} (hhead : C.Has head) {start : ℕ} {c : Cursor}

/-- The events of a window at or above the cursor block. -/
theorem atCursor_spec {first last : ℕ} {batch : Batch E} {scratch : List (ChainEvent E)}
    (hperm : scratch.Perm (C.eventsIn first last)) (hc : ∀ p, c = some p → p.block ≤ first)
    (hb : ∀ r, batch.boundary = some r → AtCursor C c r) :
    ∃ b s, atCursor c first batch scratch = some (b, s) ∧ b.spans = batch.spans ∧
      (∀ r, b.boundary = some r → AtCursor C c r) ∧
      s.Perm ((C.eventsIn first last).filter fun x => decide (c < some x.pos)) := by
  cases c with
  | none =>
      refine ⟨batch, scratch, rfl, rfl, hb, ?_⟩
      rwa [List.filter_eq_self.mpr (by simp)]
  | some p =>
      have hp := hc p rfl
      unfold atCursor
      by_cases hfirst : first = p.block
      · have hhas : ∀ r ∈ (scratch.map (·.block)).filter fun b => decide (b.number = p.block),
            C.Has r ∧ r.number = p.block := by
          intro r hr
          obtain ⟨hmem, hnum⟩ := List.mem_filter.mp hr
          obtain ⟨x, hx, rfl⟩ := List.mem_map.mp hmem
          exact ⟨has_of_mem_eventsIn (hperm.subset hx), by simpa using hnum⟩
        have hany : ((scratch.map (·.block)).filter fun b =>
            decide (b.number = p.block)).tail.any (fun block => !decide (some block =
              ((scratch.map (·.block)).filter fun b => decide (b.number = p.block)).head?)) =
            false := by
          rw [List.any_eq_false]
          intro r hr
          cases href : (scratch.map (·.block)).filter fun b => decide (b.number = p.block) with
          | nil => rw [href] at hr; simp at hr
          | cons r₀ rs =>
              rw [href] at hr hhas
              have h₀ := hhas r₀ List.mem_cons_self
              have h₁ := hhas r (List.mem_of_mem_tail hr)
              have : r = r₀ := h₁.1.eq h₀.1 (h₁.2.trans h₀.2.symm)
              simp [this]
        simp only [if_pos hfirst, hany, Bool.false_eq_true, if_false]
        refine ⟨_, _, rfl, rfl, ?_, ?_⟩
        · intro r hr
          obtain ⟨hCr, hn⟩ := hhas r (List.mem_of_head? hr)
          refine ⟨hCr, ?_⟩
          intro q hq
          rw [← Option.some.inj hq]
          exact hn
        · have := hperm.filter fun x => decide (p < x.pos)
          simpa using this
      · simp only [if_neg hfirst]
        refine ⟨batch, scratch, rfl, rfl, hb, ?_⟩
        rw [List.filter_eq_self.mpr]
        · exact hperm
        · intro x hx
          have hge := (Chain.mem_eventsIn_iff.mp hx).2.1
          rw [decide_eq_true_eq, Option.some_lt_some]
          refine Or.inl ?_
          show p.block < x.block.number
          omega

/-- What a walk leaves. -/
def WalkOk (C : Chain E) (start : ℕ) (c : Cursor) (last : ℕ) (τ : Trace E) : WalkEnd E → Prop
  | .error => ∃ x ∈ τ, ¬ Answered x.1
  | .refused => False
  | .done b => ∃ n ≤ last, BatchOk C start c n b ∧ (b.isEmpty = true → n = last)

include hcom hC hhead

/-- **A walk finds the first events above the cursor**, or that there are none. -/
theorem walk_spec {window last : ℕ} (hlast : last ≤ head.number) :
    ∀ (fuel first : ℕ) (batch : Batch E) {τ : Trace E} {out : WalkEnd E},
      RunsOn (walk c window last fuel first batch) τ out → Through chains head τ →
      last + 1 - first ≤ fuel → batch.spans = [] →
      (∀ r, batch.boundary = some r → AtCursor C c r) →
      start ≤ first → (∀ p, c = some p → p.block ≤ first) → Covered C start c first →
      WalkOk C start c last τ out := by
  have hend : ∀ (first : ℕ) (batch : Batch E) (τ : Trace E), batch.spans = [] →
      (∀ r, batch.boundary = some r → AtCursor C c r) → last < first → Covered C start c first →
      WalkOk C start c last τ (.done batch) := by
    intro first batch τ hb hr hlt hcov
    have hvalid : batch.validate = .ok () := by
      rw [Batch.validate_ok_iff, hb]
      exact ⟨List.Pairwise.nil, by simp, by simp⟩
    refine ⟨last, le_rfl, ⟨hvalid, hr, ?_⟩, fun _ => rfl⟩
    rw [covered_iff.mp (hcov.mono hlt), Batch.chainEvents, hb]
    rfl
  intro fuel
  induction fuel with
  | zero =>
      intro first batch τ out hrun _ hfuel hb hr _ _ hcov
      rw [walk, runsOn_pure_iff] at hrun
      rw [hrun.2]
      exact hend first batch τ hb hr (by omega) hcov
  | succ fuel ih =>
      intro first batch τ out hrun hτ hfuel hb hr hs hc hcov
      rw [walk] at hrun
      split_ifs at hrun with hlt
      · rw [runsOn_pure_iff] at hrun
        rw [hrun.2]
        exact hend first batch τ hb hr hlt hcov
      · set to_ := min last (satAdd first (window - 1)) with hto
        obtain ⟨r, D, τ', rfl, hgo⟩ := runsOn_query_bind_iff.mp hrun
        obtain ⟨hD, htrue, hDhead⟩ := hτ _ List.mem_cons_self
        cases r with
        | none =>
            rw [runsOn_pure_iff] at hgo
            rw [hgo.2]
            exact ⟨_, List.mem_cons_self, fun h => h rfl⟩
        | some scratch =>
            have htolast : to_ ≤ last := min_le_left _ _
            have hperm : scratch.Perm (C.eventsIn first to_) := by
              rw [← hcom.eventsIn hD hC hDhead hhead (htolast.trans hlast)]
              exact htrue scratch rfl
            have hin : (scratch.any fun x =>
                !decide (first ≤ x.block.number ∧ x.block.number ≤ to_)) = false := by
              rw [List.any_eq_false]
              intro x hx
              have := (Chain.mem_eventsIn_iff.mp (hperm.subset hx)).2
              simp [this]
            obtain ⟨b, s, hat, hbs, hbr, hsperm⟩ := (@atCursor_spec _ _ _ _ _ batch) hperm hc hr
            simp only [hin, Bool.false_eq_true, if_false, hat] at hgo
            have hmax' : head.number ≤ U64_MAX := hhead.le.trans Chain.head_le_max
            have hfirstto : first ≤ to_ := by
              have : first ≤ satAdd first (window - 1) ∨ U64_MAX < first := by
                unfold satAdd
                omega
              omega
            rw [← above_eq hcov hs (hfirstto.trans (Nat.le_succ _))] at hsperm
            split_ifs at hgo with hempty hmax
            · have hnil : s = [] := by simpa using hempty
              rw [hnil] at hsperm
              have hcov' := covered_iff.mpr hsperm.symm.eq_nil
              rw [runsOn_pure_iff] at hgo
              rw [hgo.2]
              exact hend (to_ + 1) b _ (hbs.trans hb) hbr (by omega) hcov'
            · have hnil : s = [] := by simpa using hempty
              rw [hnil] at hsperm
              have hcov' := covered_iff.mpr hsperm.symm.eq_nil
              have hpost := ih (to_ + 1) b hgo (fun x hx => hτ x (List.mem_cons_of_mem _ hx))
                (by omega) (hbs.trans hb) hbr (by omega)
                (fun p hp => (hc p hp).trans (hfirstto.trans (Nat.le_succ _))) hcov'
              cases out with
              | error =>
                  obtain ⟨x, hx, hans⟩ := hpost
                  exact ⟨x, List.mem_cons_of_mem _ hx, hans⟩
              | refused => exact hpost
              | done b' => exact hpost
            · rw [runsOn_pure_iff] at hgo
              rw [hgo.2]
              obtain ⟨hev, hbd, hval⟩ := groupInto_spec (hbs.trans hb) hsperm sorted_above
                fun x hx y hy hn => (has_of_mem_eventsIn (List.mem_of_mem_filter hx)).eq
                  (has_of_mem_eventsIn (List.mem_of_mem_filter hy)) hn
              refine ⟨to_, htolast, ⟨hval, by rw [hbd]; exact hbr, hev⟩, ?_⟩
              intro he
              rw [isEmpty_iff_chainEvents hval, hev] at he
              rw [he, List.perm_nil] at hsperm
              simp [hsperm] at hempty

end Walk

/-! ### Marks -/

/-- What the marks of a driver promise, on every chain of the run: a chain through the vouched
head or the walked block goes through the newest observed block and has nothing above the
cursor in the cursor block, or up to the walked block; and a chain through the vouched head
goes through the walked block. -/
structure MarksOk (chains : Set (Chain E)) (start : ℕ) (c : Cursor)
    (newest walked vouched : Option BlockRef) : Prop where
  of_vouched : ∀ v, vouched = some v → ∀ p, c = some p → ∀ C ∈ chains, C.Has v →
    (∀ b, newest = some b → C.Has b) ∧ Covered C start c (p.block + 1)
  of_walked : ∀ w, walked = some w → ∀ C ∈ chains, C.Has w →
    (∀ b, newest = some b → C.Has b) ∧ Covered C start c (w.number + 1)
  walked_ge : ∀ w, walked = some w → start ≤ w.number ∧ ∀ p, c = some p → p.block ≤ w.number
  both : ∀ w v, walked = some w → vouched = some v → ∀ C ∈ chains, C.Has v → C.Has w

theorem MarksOk.clear (chains : Set (Chain E)) (start : ℕ) (c : Cursor)
    (newest : Option BlockRef) : MarksOk chains start c newest none none :=
  ⟨by simp, by simp, by simp, by simp⟩

namespace Driver

variable {d : Driver σ κ}

/-- The marks of the driver hold for its engine. -/
def Marked (chains : Set (Chain E)) (d : Driver σ κ) : Prop :=
  MarksOk chains d.config.startBlock d.engine.cursor d.engine.observed.getLast? d.walked d.vouched

/-- The cursor is in the newest observed block, which is one that is folded. -/
def Started (d : Driver σ κ) : Prop :=
  ∀ p, d.engine.cursor = some p → d.config.startBlock ≤ p.block ∧ p.block ≤ U64_MAX ∧
    ∃ b, d.engine.observed.getLast? = some b ∧ b.number = p.block

/-- Where a walk may start. -/
structure StartOk (C : Chain E) (d : Driver σ κ) (s : WalkStart) : Prop where
  start_le : d.config.startBlock ≤ s.first
  cursor_le : ∀ p, d.engine.cursor = some p → p.block ≤ s.first
  covered : Covered C d.config.startBlock d.engine.cursor s.first
  resumed : s.resumed = true → ∀ b, d.engine.observed.getLast? = some b → C.Has b

theorem startOk_firstBlock (C : Chain E) (hd : d.Started) (walked : Option BlockRef) :
    StartOk C d ⟨walked, d.firstBlock, false⟩ := by
  cases hc : d.engine.cursor with
  | none =>
      refine ⟨?_, by simp [hc], ?_, by simp⟩
      · simp [firstBlock, hc]
      · intro x _ hs hlt
        simp only [firstBlock, hc] at hlt
        omega
  | some p =>
      have hfirst : d.firstBlock = p.block := by simp [firstBlock, hc]
      refine ⟨?_, ?_, ?_, by simp⟩
      · show d.config.startBlock ≤ d.firstBlock
        rw [hfirst]
        exact (hd p hc).1
      · intro q hq
        rw [hc, Option.some.injEq] at hq
        rw [hfirst, hq]
      · rw [hfirst]
        exact covered_cursor hc

theorem le_satAdd {n : ℕ} (h : n ≤ U64_MAX) : n ≤ satAdd n 1 := by
  unfold satAdd
  omega

theorem satAdd_le (n k : ℕ) : satAdd n k ≤ n + k := min_le_left _ _

/-- What the closing reads of a scan say. -/
def ConcludeOk (chains : Set (Chain E)) (head : BlockRef) (last : ℕ) (b : Batch E)
    (τ : Trace E) : Option Scan → Prop
  | none => ∃ x ∈ τ, ¬ Answered x.1
  | some .refused => False
  | some .lagging => False
  | some (.ready h) => h = head ∧ (b.isEmpty = true → head.number ≤ last)
  | some (.capped a h) => h = head ∧ b.isEmpty = true ∧ last < head.number ∧ a.number = last ∧
      ∃ D ∈ chains, D.Has head ∧ D.Has a

section Start

variable {chains : Set (Chain E)} (hcom : Committed chains) {C : Chain E} (hC : C ∈ chains)
  {head : BlockRef} (hhead : C.Has head)

/-- Above a walked mark of the chain. -/
theorem startOk_walked (hC : C ∈ chains) (hm : Marked chains d) {w : BlockRef}
    (hw : d.walked = some w) (hCw : C.Has w) (walked : Option BlockRef) :
    StartOk C d ⟨walked, satAdd w.number 1, true⟩ := by
  obtain ⟨hnew, hcov⟩ := hm.of_walked w hw C hC hCw
  obtain ⟨hge, hple⟩ := hm.walked_ge w hw
  have hle : w.number ≤ satAdd w.number 1 := le_satAdd (hCw.le.trans Chain.head_le_max)
  exact ⟨hge.trans hle, fun p hp => (hple p hp).trans hle, hcov.mono (satAdd_le _ _),
    fun _ => hnew⟩

include hcom hC hhead

/-- **A walk starts where nothing is left to fold below.** -/
theorem walkStart_spec (hd : d.Started) (hm : Marked chains d) {τ : Trace E} {s : WalkStart}
    (hrun : RunsOn (d.walkStart head) τ (some s)) (hτ : Through chains head τ)
    (hrange : s.first ≤ head.number ∨ ∀ x ∈ τ, x.2 = C) :
    StartOk C d s ∧ ((∀ x ∈ τ, x.2 = C) → ∀ w, d.walked = some w → C.Has w →
      s.first = satAdd w.number 1) := by
  unfold walkStart at hrun
  cases hw : d.walked with
  | some w =>
      simp only [hw] at hrun
      split_ifs at hrun with hskip
      · rw [runsOn_pure_iff, Option.some.injEq] at hrun
        have hCw : C.Has w := by
          rcases hskip with hv | rfl
          · exact hm.both w head hw hv C hC hhead
          · exact hhead
        rw [hrun.2]
        refine ⟨startOk_walked hC hm hw hCw _, ?_⟩
        intro _ w' hw' _
        rw [← Option.some.inj hw']
      · obtain ⟨r, D, τ', rfl, hgo⟩ := runsOn_query_bind_iff.mp hrun
        rw [runsOn_pure_iff] at hgo
        obtain ⟨hD, htrue, hDhead⟩ := hτ _ List.mem_cons_self
        cases r with
        | none => simp at hgo
        | some header =>
            have hs := hgo.2
            rw [Option.map_some, Option.some.injEq] at hs
            split_ifs at hs with hhas
            · have hDw : D.Has w := by
                have := htrue header rfl
                rw [hhas] at this
                exact (Chain.refAt_eq_some_iff.mp this.symm).1
              have hCw : C.Has w := by
                rcases hrange with hle | hall
                · rw [hs] at hle
                  have hwmax := hDw.le.trans Chain.head_le_max
                  exact hcom.has hD hC hDhead hhead hDw ((le_satAdd hwmax).trans hle)
                · rw [← hall _ List.mem_cons_self]
                  exact hDw
              rw [hs]
              refine ⟨startOk_walked hC hm hw hCw _, ?_⟩
              intro _ w' hw' _
              rw [← Option.some.inj hw']
            · rw [hs]
              refine ⟨startOk_firstBlock C hd _, ?_⟩
              intro hall w' hw' hCw'
              rw [← Option.some.inj hw'] at hCw'
              rw [show D = C from hall _ List.mem_cons_self] at htrue
              exact absurd ((htrue header rfl).trans hCw') hhas
  | none =>
      simp only [hw] at hrun
      cases hc : d.engine.cursor with
      | none =>
          simp only [hc] at hrun
          rw [runsOn_pure_iff, Option.some.injEq] at hrun
          rw [hrun.2]
          exact ⟨startOk_firstBlock C hd _, by simp⟩
      | some p =>
          simp only [hc] at hrun
          split_ifs at hrun with hv
          · rw [runsOn_pure_iff, Option.some.injEq] at hrun
            obtain ⟨hnew, hcov⟩ := hm.of_vouched head hv p hc C hC hhead
            have hle := le_satAdd (hd p hc).2.1
            rw [hrun.2]
            refine ⟨⟨(hd p hc).1.trans hle, ?_, hcov.mono (satAdd_le _ _), fun _ => hnew⟩, by simp⟩
            intro q hq
            rw [hc, Option.some.injEq] at hq
            rw [← hq]
            exact hle
          · rw [runsOn_pure_iff, Option.some.injEq] at hrun
            rw [hrun.2]
            exact ⟨startOk_firstBlock C hd _, by simp⟩

/-- Where the chain ends below the cursor block there is no boundary. -/
def Shown (C : Chain E) (c : Cursor) (b : Batch E) : Prop :=
  ∀ p, c = some p → b.boundary = none → C.refAt p.block = none

/-- The boundary is the block of the chain at the cursor. -/
theorem fillBoundary_spec (hd : d.Started) {s : WalkStart} (hs : StartOk C d s) {τ : Trace E}
    {b b' : Batch E} {n : ℕ} (hrun : RunsOn (d.fillBoundary head s.resumed b) τ (some b'))
    (hτ : Through chains head τ) (hb : BatchOk C d.config.startBlock d.engine.cursor n b)
    (hrange : s.first ≤ head.number ∨ ∀ x ∈ τ, x.2 = C) :
    BatchOk C d.config.startBlock d.engine.cursor n b' ∧ b'.isEmpty = b.isEmpty ∧
      Shown C d.engine.cursor b' := by
  have hwith : ∀ r, (∀ a, r = some a → AtCursor C d.engine.cursor a) →
      (∀ p, d.engine.cursor = some p → r = none → C.refAt p.block = none) →
      BatchOk C d.config.startBlock d.engine.cursor n (b.withBoundary r) ∧
        (b.withBoundary r).isEmpty = b.isEmpty ∧ Shown C d.engine.cursor (b.withBoundary r) :=
    fun r hr hnone => ⟨⟨hb.valid, hr, hb.events⟩, rfl, hnone⟩
  unfold fillBoundary at hrun
  cases hc : d.engine.cursor with
  | none =>
      simp only [hc] at hrun
      rw [runsOn_pure_iff, Option.some.injEq] at hrun
      rw [hrun.2]
      rw [hc] at hb
      exact ⟨hb, rfl, by intro p hp; cases hp⟩
  | some p =>
      rw [hc] at hwith hb
      simp only [hc] at hrun
      obtain ⟨-, -, newest, hnewest, hnum⟩ := hd p hc
      split_ifs at hrun with hsome hres hhead'
      · rw [runsOn_pure_iff, Option.some.injEq] at hrun
        rw [hrun.2]
        refine ⟨hb, rfl, ?_⟩
        intro q _ hnone
        rw [hnone] at hsome
        simp at hsome
      · rw [runsOn_pure_iff, Option.some.injEq] at hrun
        rw [hrun.2]
        refine hwith _ ?_ ?_
        · intro a ha
          refine ⟨hs.resumed hres a ha, ?_⟩
          intro q hq
          rw [hnewest, Option.some.injEq] at ha
          rw [← ha, ← Option.some.inj hq]
          exact hnum
        · intro q _ hnone
          rw [hnewest] at hnone
          cases hnone
      · rw [runsOn_pure_iff, Option.some.injEq] at hrun
        rw [hrun.2]
        refine hwith _ ?_ ?_
        · intro a ha
          rw [← Option.some.inj ha]
          refine ⟨hhead, ?_⟩
          intro q hq
          rw [← Option.some.inj hq]
          exact hhead'
        · intro q _ hnone
          cases hnone
      · obtain ⟨r, D, τ', rfl, hgo⟩ := runsOn_query_bind_iff.mp hrun
        rw [runsOn_pure_iff] at hgo
        obtain ⟨hD, htrue, hDhead⟩ := hτ _ List.mem_cons_self
        cases r with
        | none => simp at hgo
        | some header =>
            have heq := hgo.2
            rw [Option.map_some, Option.some.injEq] at heq
            rw [heq]
            have href := htrue header rfl
            have hsame : D.refAt p.block = C.refAt p.block := by
              rcases hrange with hle | hall
              · obtain ⟨a, hDa, hna⟩ :=
                  D.exists_refAt ((hs.cursor_le p hc).trans (hle.trans hDhead.le))
                have hCa := hcom.has hD hC hDhead hhead hDa
                  (hna ▸ (hs.cursor_le p hc).trans hle)
                rw [Chain.refAt_eq_some_iff.mpr ⟨hDa, hna⟩, Chain.refAt_eq_some_iff.mpr ⟨hCa, hna⟩]
              · rw [show D = C from hall _ List.mem_cons_self]
            rw [hsame] at href
            refine hwith header ?_ ?_
            · intro a ha
              rw [ha] at href
              obtain ⟨hCa, hna⟩ := Chain.refAt_eq_some_iff.mp href.symm
              refine ⟨hCa, ?_⟩
              intro q hq
              rw [← Option.some.inj hq]
              exact hna
            · intro q hq hnone
              rw [← Option.some.inj hq, ← href]
              exact hnone

omit hcom hC hhead in
theorem conclude_spec {last : ℕ} {b : Batch E} {τ : Trace E} {out : Option Scan}
    (hrun : RunsOn (conclude head last b) τ out) (hτ : Through chains head τ) :
    ConcludeOk chains head last b τ out := by
  unfold conclude at hrun
  split_ifs at hrun with h₁ h₂
  · obtain ⟨r, D, τ', rfl, hgo⟩ := runsOn_query_bind_iff.mp hrun
    obtain ⟨hD, htrue, hDhead⟩ := hτ _ List.mem_cons_self
    cases r with
    | none =>
        rw [runsOn_pure_iff] at hgo
        rw [hgo.2]
        exact ⟨_, List.mem_cons_self, fun h => h rfl⟩
    | some anchor =>
        obtain ⟨r, D', τ', rfl, hend⟩ := runsOn_query_bind_iff.mp hgo
        obtain ⟨hD', htrue', hDhead'⟩ := hτ _ (List.mem_cons_of_mem _ List.mem_cons_self)
        rw [runsOn_pure_iff] at hend
        cases r with
        | none =>
            rw [hend.2]
            exact ⟨_, List.mem_cons_of_mem _ List.mem_cons_self, fun h => h rfl⟩
        | some again =>
            have hanchor := htrue anchor rfl
            have hagain : again = some head := (htrue' again rfl).trans hDhead'
            obtain ⟨a, ha, hnum⟩ := D.exists_refAt (h₁.1.le.trans hDhead.le)
            have href : D.refAt last = some a := Chain.refAt_eq_some_iff.mpr ⟨ha, hnum⟩
            rw [href] at hanchor
            subst hanchor
            have hout := hend.2
            simp only [Option.map_some, hagain, hnum, and_self, if_true] at hout
            rw [hout]
            exact ⟨rfl, h₁.2, h₁.1, hnum, D, hD, hDhead, ha⟩
  · rw [runsOn_pure_iff] at hrun
    rw [hrun.2]
    refine ⟨rfl, fun he => ?_⟩
    by_contra hlt
    exact h₁ ⟨not_le.mp hlt, he⟩
  · obtain ⟨r, D, τ', rfl, hgo⟩ := runsOn_query_bind_iff.mp hrun
    obtain ⟨hD, htrue, hDhead⟩ := hτ _ List.mem_cons_self
    rw [runsOn_pure_iff] at hgo
    cases r with
    | none =>
        rw [hgo.2]
        exact ⟨_, List.mem_cons_self, fun h => h rfl⟩
    | some again =>
        have hagain : again = some head := (htrue again rfl).trans hDhead
        have hout := hgo.2
        simp only [Option.map_some, hagain, if_true] at hout
        rw [hout]
        exact ⟨rfl, fun he => absurd he h₂⟩

end Start

/-! ### The scan -/

/-- A scan that gives the engine something to fold, or the driver a mark. -/
def Effective (out : Scanned E) : Prop :=
  (∃ a h, out.outcome = some (.capped a h)) ∨
    (∃ h, out.outcome = some (.ready h)) ∧ out.batch.isEmpty = false

/-- A walk that stopped at its cap `a`. -/
structure CappedOk (C : Chain E) (d : Driver σ κ) (head a : BlockRef) (τ : Trace E)
    (b : Batch E) : Prop where
  batch : BatchOk C d.config.startBlock d.engine.cursor a.number b
  shown : Shown C d.engine.cursor b
  empty : b.isEmpty = true
  has : C.Has a
  lt : a.number < head.number
  start_le : d.config.startBlock ≤ a.number
  cursor_le : ∀ p, d.engine.cursor = some p → p.block ≤ a.number
  past : (∀ x ∈ τ, x.2 = C) → ∀ w, d.walked = some w → C.Has w → w.number < a.number

/-- What a scan against the chain through `head` leaves. -/
def OutcomeOk (C : Chain E) (d : Driver σ κ) (head : BlockRef) (τ : Trace E) (b : Batch E) :
    Option Scan → Prop
  | none => ∃ x ∈ τ, ¬ Answered x.1
  | some .refused => False
  | some .lagging => False
  | some (.ready h) => h = head ∧ Shown C d.engine.cursor b ∧ ∃ n ≤ head.number,
      BatchOk C d.config.startBlock d.engine.cursor n b ∧ (b.isEmpty = true → n = head.number)
  | some (.capped a h) => h = head ∧ CappedOk C d head a τ b

theorem walkStart_none {head : BlockRef} {τ : Trace E}
    (hrun : RunsOn (d.walkStart head) τ none) : ∃ x ∈ τ, ¬ Answered x.1 := by
  unfold walkStart at hrun
  split at hrun
  · split_ifs at hrun
    · simp [runsOn_pure_iff] at hrun
    · obtain ⟨r, D, τ', rfl, hgo⟩ := runsOn_query_bind_iff.mp hrun
      rw [runsOn_pure_iff] at hgo
      cases r with
      | none => exact ⟨_, List.mem_cons_self, fun h => h rfl⟩
      | some header => simp at hgo
  · split at hrun
    · split_ifs at hrun
      · simp [runsOn_pure_iff] at hrun
      · simp [runsOn_pure_iff] at hrun
    · simp [runsOn_pure_iff] at hrun

theorem walkStart_walked {head : BlockRef} {τ : Trace E} {s : WalkStart}
    (hrun : RunsOn (d.walkStart head) τ (some s)) : s.walked = d.walked ∨ s.walked = none := by
  unfold walkStart at hrun
  cases hw : d.walked with
  | none =>
      refine Or.inl ?_
      simp only [hw] at hrun
      cases hc : d.engine.cursor with
      | none =>
          simp only [hc, runsOn_pure_iff, Option.some.injEq] at hrun
          rw [hrun.2]
      | some p =>
          simp only [hc] at hrun
          split_ifs at hrun
          · simp only [runsOn_pure_iff, Option.some.injEq] at hrun
            rw [hrun.2]
          · simp only [runsOn_pure_iff, Option.some.injEq] at hrun
            rw [hrun.2]
  | some w =>
      simp only [hw] at hrun
      split_ifs at hrun
      · simp only [runsOn_pure_iff, Option.some.injEq] at hrun
        rw [hrun.2]
        exact Or.inl rfl
      · obtain ⟨r, D, τ', rfl, hgo⟩ := runsOn_query_bind_iff.mp hrun
        rw [runsOn_pure_iff] at hgo
        cases r with
        | none => simp at hgo
        | some header =>
            have hs := hgo.2
            rw [Option.map_some, Option.some.injEq] at hs
            split_ifs at hs
            · rw [hs]
              exact Or.inl rfl
            · rw [hs]
              exact Or.inr rfl

/-- A scan keeps the walked mark or drops it. -/
theorem scanFrom_walked {head : BlockRef} {τ : Trace E} {out : Scanned E}
    (hrun : RunsOn (d.scanFrom head) τ out) : out.walked = d.walked ∨ out.walked = none := by
  unfold scanFrom at hrun
  obtain ⟨window, D₀, τ', rfl, hwin⟩ := runsOn_query_bind_iff.mp hrun
  obtain ⟨τ₁, s, τ'', rfl, hstart, hgo⟩ := runsOn_bind_iff.mp hwin
  cases s with
  | none =>
      rw [runsOn_pure_iff] at hgo
      rw [hgo.2]
      exact Or.inl rfl
  | some s =>
      have hwalked : out.walked = s.walked := by
        obtain ⟨τ₂, w, τ₃', rfl, -, hdone⟩ := runsOn_bind_iff.mp hgo
        cases w with
        | error =>
            rw [runsOn_pure_iff] at hdone
            rw [hdone.2]
        | refused =>
            rw [runsOn_pure_iff] at hdone
            rw [hdone.2]
        | done b =>
            obtain ⟨τ₃, b', τ₄, rfl, -, hend⟩ := runsOn_bind_iff.mp hdone
            cases b' with
            | none =>
                rw [runsOn_pure_iff] at hend
                rw [hend.2]
            | some b' =>
                obtain ⟨τ₅, outcome, τ₆, rfl, -, hpure⟩ := runsOn_bind_iff.mp hend
                rw [runsOn_pure_iff] at hpure
                rw [hpure.2]
      rw [hwalked]
      exact walkStart_walked hstart

theorem fillBoundary_none {head : BlockRef} {resumed : Bool} {b : Batch E} {τ : Trace E}
    (hrun : RunsOn (d.fillBoundary head resumed b) τ none) : ∃ x ∈ τ, ¬ Answered x.1 := by
  unfold fillBoundary at hrun
  split at hrun
  · simp [runsOn_pure_iff] at hrun
  · split_ifs at hrun
    · simp [runsOn_pure_iff] at hrun
    · simp [runsOn_pure_iff] at hrun
    · simp [runsOn_pure_iff] at hrun
    · obtain ⟨r, D, τ', rfl, hgo⟩ := runsOn_query_bind_iff.mp hrun
      rw [runsOn_pure_iff] at hgo
      cases r with
      | none => exact ⟨_, List.mem_cons_self, fun h => h rfl⟩
      | some header => simp at hgo

theorem fillBoundary_isEmpty {head : BlockRef} {resumed : Bool} {b b' : Batch E} {τ : Trace E}
    (hrun : RunsOn (d.fillBoundary head resumed b) τ (some b')) : b'.isEmpty = b.isEmpty := by
  unfold fillBoundary at hrun
  split at hrun
  · rw [runsOn_pure_iff, Option.some.injEq] at hrun
    rw [hrun.2]
  · split_ifs at hrun
    · rw [runsOn_pure_iff, Option.some.injEq] at hrun
      rw [hrun.2]
    · rw [runsOn_pure_iff, Option.some.injEq] at hrun
      rw [hrun.2]
      rfl
    · rw [runsOn_pure_iff, Option.some.injEq] at hrun
      rw [hrun.2]
      rfl
    · obtain ⟨r, D, τ', rfl, hgo⟩ := runsOn_query_bind_iff.mp hrun
      rw [runsOn_pure_iff] at hgo
      cases r with
      | none => simp at hgo
      | some header =>
          have heq := hgo.2
          rw [Option.map_some, Option.some.injEq] at heq
          rw [heq]
          rfl

theorem walk_of_lt {c : Cursor} {window last fuel first : ℕ} {b : Batch E} {τ : Trace E}
    {out : WalkEnd E} (hlt : last < first) (hrun : RunsOn (walk c window last fuel first b) τ out) :
    out = .done b := by
  cases fuel with
  | zero =>
      rw [walk, runsOn_pure_iff] at hrun
      exact hrun.2
  | succ fuel =>
      rw [walk, if_pos hlt, runsOn_pure_iff] at hrun
      exact hrun.2

/-- A scan that starts above the head has no effect. -/
theorem not_effective {head : BlockRef} {b b' : Batch E} {walked : Option BlockRef}
    {outcome : Option Scan} {last : ℕ} {resumed : Bool} {τ₁ τ₂ : Trace E}
    (hb : b.isEmpty = true) (hlast : head.number ≤ last)
    (hfill : RunsOn (d.fillBoundary head resumed b) τ₁ (some b'))
    (hcon : RunsOn (conclude head last b') τ₂ outcome) :
    ¬ Effective (⟨walked, b', outcome⟩ : Scanned E) := by
  have hempty := (fillBoundary_isEmpty hfill).trans hb
  unfold conclude at hcon
  rw [if_neg (fun h => not_lt.mpr hlast h.1), if_pos hempty, runsOn_pure_iff] at hcon
  rintro (⟨a, h, hcap⟩ | ⟨-, hne⟩)
  · rw [hcon.2] at hcap
    simp at hcap
  · rw [hempty] at hne
    simp at hne

theorem isEmpty_new : (Batch.new : Batch E).isEmpty = true := rfl

/-- **What a scan finds** on the chain its head names. -/
theorem scanFrom_spec {chains : Set (Chain E)} (hcom : Committed chains) {C : Chain E}
    (hC : C ∈ chains) {head : BlockRef} (hhead : C.Has head) (hd : d.Started)
    (hm : Marked chains d) {τ : Trace E} {out : Scanned E}
    (hrun : RunsOn (d.scanFrom head) τ out) (hτ : Through chains head τ)
    (hrange : (∀ x ∈ τ, x.2 = C) ∨ Effective out) :
    OutcomeOk C d head τ out.batch out.outcome := by
  have hmax : head.number ≤ U64_MAX := hhead.le.trans Chain.head_le_max
  unfold scanFrom at hrun
  obtain ⟨window, D₀, τ', rfl, hwin⟩ := runsOn_query_bind_iff.mp hrun
  obtain ⟨τ₁, s, τ'', rfl, hstart, hgo⟩ := runsOn_bind_iff.mp hwin
  have hτ₁ : Through chains head τ₁ := fun x hx => hτ x (by simp [hx])
  have hmem₁ : ∀ x ∈ τ₁, x ∈ (⟨⟨Query.window, window⟩, D₀⟩ :: (τ₁ ++ τ'') : Trace E) := by
    intro x hx
    simp [hx]
  cases s with
  | none =>
      rw [runsOn_pure_iff] at hgo
      rw [hgo.2]
      obtain ⟨x, hx, hans⟩ := walkStart_none hstart
      exact ⟨x, hmem₁ x hx, hans⟩
  | some s =>
      dsimp only at hgo
      set last := min head.number (satAdd s.first (satMul d.span (max window 1) - 1)) with hlast
      obtain ⟨τ₂, w, τ₃', rfl, hwalk, hdone⟩ := runsOn_bind_iff.mp hgo
      have hτ₂ : Through chains head τ₂ := fun x hx => hτ x (by simp [hx])
      -- the walk starts at or below the head, or everything comes from one chain
      have hfirst : s.first ≤ head.number ∨ ∀ x ∈
          (⟨⟨Query.window, window⟩, D₀⟩ :: (τ₁ ++ (τ₂ ++ τ₃')) : Trace E), x.2 = C := by
        rcases hrange with hall | heff
        · exact Or.inr hall
        · refine Or.inl ?_
          by_contra hgt
          rw [not_le] at hgt
          have hhl : head.number ≤ last := by
            have : min s.first U64_MAX ≤ satAdd s.first (satMul d.span (max window 1) - 1) := by
              unfold satAdd
              omega
            omega
          have hw := walk_of_lt (lt_of_le_of_lt (min_le_left _ _) hgt) hwalk
          rw [hw] at hdone
          obtain ⟨τ₃, b', τ₄, -, hfill, hend⟩ := runsOn_bind_iff.mp hdone
          cases b' with
          | none =>
              rw [runsOn_pure_iff] at hend
              rw [hend.2] at heff
              rcases heff with ⟨a, h, hcap⟩ | ⟨⟨h, hready⟩, -⟩
              · simp at hcap
              · simp at hready
          | some b' =>
              obtain ⟨τ₅, outcome, τ₆, -, hcon, hpure⟩ := runsOn_bind_iff.mp hend
              rw [runsOn_pure_iff] at hpure
              rw [hpure.2] at heff
              exact not_effective isEmpty_new hhl hfill hcon heff
      obtain ⟨hs, hpast⟩ := walkStart_spec hcom hC hhead hd hm hstart hτ₁
        (hfirst.imp_right fun hall x hx => hall x (by simp [hx]))
      have hok := walk_spec hcom hC hhead (min_le_left _ _) _ _ Batch.new hwalk hτ₂ le_rfl rfl
        (by intro r hr; cases hr) hs.start_le hs.cursor_le hs.covered
      cases w with
      | error =>
          rw [runsOn_pure_iff] at hdone
          rw [hdone.2]
          obtain ⟨x, hx, hans⟩ := hok
          exact ⟨x, by simp [hx], hans⟩
      | refused => exact hok.elim
      | done b =>
          obtain ⟨n, hn, hb, hnlast⟩ := hok
          obtain ⟨τ₃, b', τ₄, rfl, hfill, hend⟩ := runsOn_bind_iff.mp hdone
          have hτ₃ : Through chains head τ₃ := fun x hx => hτ x (by simp [hx])
          cases b' with
          | none =>
              rw [runsOn_pure_iff] at hend
              rw [hend.2]
              obtain ⟨x, hx, hans⟩ := fillBoundary_none hfill
              exact ⟨x, by simp [hx], hans⟩
          | some b' =>
              obtain ⟨hb', hempty, hshown⟩ := fillBoundary_spec hcom hC hhead hd hs hfill hτ₃ hb
                (hfirst.imp_right fun hall x hx => hall x (by simp [hx]))
              obtain ⟨τ₅, outcome, τ₆, rfl, hcon, hpure⟩ := runsOn_bind_iff.mp hend
              have hτ₅ : Through chains head τ₅ := fun x hx => hτ x (by simp [hx])
              rw [runsOn_pure_iff] at hpure
              rw [hpure.2]
              have hclose := conclude_spec hcon hτ₅
              cases outcome with
              | none =>
                  obtain ⟨x, hx, hans⟩ := hclose
                  exact ⟨x, by simp [hx], hans⟩
              | some scan =>
                  cases scan with
                  | refused => exact hclose
                  | lagging => exact hclose
                  | ready h =>
                      obtain ⟨rfl, hfull⟩ := hclose
                      refine ⟨rfl, hshown, n, hn.trans (min_le_left _ _), hb', ?_⟩
                      intro he
                      have h1 := hnlast (hempty ▸ he)
                      have h2 := hfull he
                      have h3 : last ≤ h.number := min_le_left _ _
                      omega
                  | capped a h =>
                      obtain ⟨rfl, he, hlt, hnum, D, hD, hDhead, hDa⟩ := hclose
                      have hna : n = a.number := by rw [hnlast (hempty ▸ he), hnum]
                      have hfl : s.first ≤ a.number := by
                        have : min s.first U64_MAX ≤
                            satAdd s.first (satMul d.span (max window 1) - 1) := by
                          unfold satAdd
                          omega
                        omega
                      refine ⟨rfl, hna ▸ hb', hshown, he, hcom.has hD hC hDhead hhead hDa (by omega),
                        by omega, hs.start_le.trans hfl, fun p hp => (hs.cursor_le p hp).trans hfl, ?_⟩
                      intro hall w hw hCw
                      have hfirst' := hpast (fun x hx => hall x (by simp [hx])) w hw hCw
                      unfold satAdd at hfirst'
                      omega

/-! ### The bracket -/

/-- The read that closes an effective scan. -/
def closing (head : BlockRef) : Exchange (Answer E) := ⟨.headerAt head.number, some (some head)⟩

theorem conclude_closed {head : BlockRef} {last : ℕ} {b : Batch E} {walked : Option BlockRef}
    {outcome : Option Scan} {τ : Trace E} (hrun : RunsOn (conclude head last b) τ outcome)
    (heff : Effective (⟨walked, b, outcome⟩ : Scanned E)) :
    ∃ τ' D, τ = τ' ++ [(closing head, D)] := by
  unfold conclude at hrun
  split_ifs at hrun with h₁ h₂
  · obtain ⟨r, D, τ', rfl, hgo⟩ := runsOn_query_bind_iff.mp hrun
    have hno : outcome ≠ none := by
      rintro rfl
      rcases heff with ⟨a, h, hcap⟩ | ⟨⟨h, hready⟩, -⟩
      · simp at hcap
      · simp at hready
    cases r with
    | none =>
        rw [runsOn_pure_iff] at hgo
        exact absurd hgo.2 hno
    | some anchor =>
        obtain ⟨r, D', τ'', rfl, hend⟩ := runsOn_query_bind_iff.mp hgo
        rw [runsOn_pure_iff] at hend
        cases r with
        | none => exact absurd hend.2 hno
        | some again =>
            have hout := hend.2
            rw [Option.map_some] at hout
            have hagain : again = some head := by
              by_contra hne
              rcases heff with ⟨a, h, hcap⟩ | ⟨-, hempty⟩
              · have hcap : outcome = some (.capped a h) := hcap
                rw [hout] at hcap
                cases anchor <;> simp [hne] at hcap
              · have hempty : b.isEmpty = false := hempty
                rw [h₁.2] at hempty
                simp at hempty
            rw [hend.1, hagain]
            exact ⟨[_], D', rfl⟩
  · rw [runsOn_pure_iff] at hrun
    rcases heff with ⟨a, h, hcap⟩ | ⟨-, hempty⟩
    · have hcap : outcome = some (.capped a h) := hcap
      rw [hrun.2] at hcap
      simp at hcap
    · have hempty : b.isEmpty = false := hempty
      rw [h₂] at hempty
      simp at hempty
  · obtain ⟨r, D, τ', rfl, hgo⟩ := runsOn_query_bind_iff.mp hrun
    rw [runsOn_pure_iff] at hgo
    have hready : ∃ h, outcome = some (.ready h) := by
      rcases heff with ⟨a, h, hcap⟩ | ⟨hready, -⟩
      · have hcap : outcome = some (.capped a h) := hcap
        rw [hgo.2] at hcap
        cases r with
        | none => simp at hcap
        | some again =>
            rw [Option.map_some, Option.some.injEq] at hcap
            split_ifs at hcap
      · exact hready
    obtain ⟨h, hready⟩ := hready
    cases r with
    | none =>
        rw [hgo.2] at hready
        simp at hready
    | some again =>
        have hagain : again = some head := by
          by_contra hne
          rw [hgo.2] at hready
          simp [hne] at hready
        rw [hgo.1, hagain]
        exact ⟨[], D, rfl⟩

theorem scanFrom_closed {head : BlockRef} {τ : Trace E} {out : Scanned E}
    (hrun : RunsOn (d.scanFrom head) τ out) (heff : Effective out) :
    ∃ τ' D, τ = τ' ++ [(closing head, D)] := by
  have hnone : ∀ {walked b}, out ≠ ⟨walked, b, none⟩ := by
    rintro walked b rfl
    rcases heff with ⟨a, h, hcap⟩ | ⟨⟨h, hready⟩, -⟩
    · simp at hcap
    · simp at hready
  unfold scanFrom at hrun
  obtain ⟨window, D₀, τ', rfl, hwin⟩ := runsOn_query_bind_iff.mp hrun
  obtain ⟨τ₁, s, τ'', rfl, -, hgo⟩ := runsOn_bind_iff.mp hwin
  cases s with
  | none =>
      rw [runsOn_pure_iff] at hgo
      exact absurd hgo.2 hnone
  | some s =>
      obtain ⟨τ₂, w, τ₃', rfl, -, hdone⟩ := runsOn_bind_iff.mp hgo
      cases w with
      | error =>
          rw [runsOn_pure_iff] at hdone
          exact absurd hdone.2 hnone
      | refused =>
          rw [runsOn_pure_iff] at hdone
          rw [hdone.2] at heff
          rcases heff with ⟨a, h, hcap⟩ | ⟨⟨h, hready⟩, -⟩
          · simp at hcap
          · simp at hready
      | done b =>
          obtain ⟨τ₃, b', τ₄, rfl, -, hend⟩ := runsOn_bind_iff.mp hdone
          cases b' with
          | none =>
              rw [runsOn_pure_iff] at hend
              exact absurd hend.2 hnone
          | some b' =>
              obtain ⟨τ₅, outcome, τ₆, rfl, hcon, hpure⟩ := runsOn_bind_iff.mp hend
              rw [runsOn_pure_iff] at hpure
              obtain ⟨rfl, rfl⟩ := hpure
              obtain ⟨τ₇, D, rfl⟩ := conclude_closed hcon heff
              exact ⟨(⟨.window, window⟩, D₀) :: (τ₁ ++ (τ₂ ++ (τ₃ ++ τ₇))), D, by simp⟩

/-- The ways through `Driver::scan`. -/
inductive ScanCases (d : Driver σ κ) : Trace E → Scanned E → Prop
  | headError (D : Chain E) : ScanCases d [(⟨.head, none⟩, D)] ⟨d.walked, Batch.new, none⟩
  | lagError {head : BlockRef} {D : Chain E} {τ : Trace E}
      (below : (d.floor.any fun floor => decide (head.number < floor)) = true)
      (h : RunsOn (isLagging d.engine.observed head) τ none) :
      ScanCases d ((⟨.head, some head⟩, D) :: τ) ⟨d.walked, Batch.new, none⟩
  | lagging {head : BlockRef} {D : Chain E} {τ : Trace E}
      (below : (d.floor.any fun floor => decide (head.number < floor)) = true)
      (h : RunsOn (isLagging d.engine.observed head) τ (some true)) :
      ScanCases d ((⟨.head, some head⟩, D) :: τ) ⟨d.walked, Batch.new, some .lagging⟩
  | walked {head : BlockRef} {D : Chain E} {τ₁ τ₂ : Trace E} {out : Scanned E}
      (below : (d.floor.any fun floor => decide (head.number < floor)) = true →
        RunsOn (isLagging d.engine.observed head) τ₁ (some false))
      (h : RunsOn (d.scanFrom head) τ₂ out) :
      ScanCases d ((⟨.head, some head⟩, D) :: (τ₁ ++ τ₂)) out

theorem scanCases {τ : Trace E} {out : Scanned E} (hrun : RunsOn d.scan τ out) :
    ScanCases d τ out := by
  unfold scan at hrun
  obtain ⟨r, D, τ', rfl, hgo⟩ := runsOn_query_bind_iff.mp hrun
  cases r with
  | none =>
      rw [runsOn_pure_iff] at hgo
      obtain ⟨rfl, rfl⟩ := hgo
      exact ScanCases.headError D
  | some head =>
      dsimp only at hgo
      split_ifs at hgo with hbelow
      · obtain ⟨τ₁, r, τ₂, rfl, hlag, hend⟩ := runsOn_bind_iff.mp hgo
        cases r with
        | none =>
            rw [runsOn_pure_iff] at hend
            obtain ⟨rfl, rfl⟩ := hend
            rw [List.append_nil]
            exact ScanCases.lagError hbelow hlag
        | some lag =>
            cases lag with
            | true =>
                rw [runsOn_pure_iff] at hend
                obtain ⟨rfl, rfl⟩ := hend
                rw [List.append_nil]
                exact ScanCases.lagging hbelow hlag
            | false => exact ScanCases.walked (fun _ => hlag) hend
      · rw [← List.nil_append τ']
        exact ScanCases.walked (fun h => absurd h hbelow) hgo

/-- **The bracket**: an effective scan is one against the chains through the head it read. -/
theorem through_of_effective {chains : Set (Chain E)} {head : BlockRef} {D : Chain E}
    {τ₁ τ₂ : Trace E} {out : Scanned E}
    (hτ : Honest chains ((⟨.head, some head⟩, D) :: (τ₁ ++ τ₂)))
    (hb : Bracketed ((⟨.head, some head⟩, D) :: (τ₁ ++ τ₂)))
    (hrun : RunsOn (d.scanFrom head) τ₂ out) (heff : Effective out) :
    Through chains head τ₂ ∧ D ∈ chains ∧ D.Has head := by
  obtain ⟨τ', D', rfl⟩ := scanFrom_closed hrun heff
  have hmid := hb [] (⟨.head, some head⟩, D) (τ₁ ++ τ') (closing head, D') [] head (by simp) rfl rfl
  have hfirst := hτ _ List.mem_cons_self
  have hlast := hτ (closing head, D') (by simp)
  have hDhead : D.Has head := by
    rw [hfirst.2 head rfl]
    exact Chain.has_head
  refine ⟨?_, hfirst.1, hDhead⟩
  intro x hx
  obtain ⟨hmem, htrue⟩ := hτ x (List.mem_cons_of_mem _ (List.mem_append_right _ hx))
  refine ⟨hmem, htrue, ?_⟩
  rcases List.mem_append.mp hx with hx | hx
  · exact hmid x (List.mem_append_right _ hx)
  · rw [List.mem_singleton.mp hx]
    exact (hlast.2 (some head) rfl).symm

end Driver

end Works.Chainfold
