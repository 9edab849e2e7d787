import Works.Lib.Interpret
import Works.Chainfold.DriverTick

/-! # What a driver asks for

The blocks that the engine observes and the marks of the scan are at or above the start block
(`FromBlock`), and the headers that a tick asks for are those of such blocks or of the blocks its
walk has read.  So a tick asks for no header below the start block, whatever the source answers
(`step_asks`), and a source that has no blocks there is not asked for them. -/

namespace Works.Chainfold

open Works.Lib Prog Engine BlockRing

variable {σ E ε κ : Type} {n : ℕ}

/-- The query asks for no header below a block. -/
def Query.From (n : ℕ) : Query → Prop
  | .headerAt number => n ≤ number
  | _ => True

theorem Query.From.mono {m : ℕ} {q : Query} (h : q.From n) (hm : m ≤ n) : q.From m := by
  cases q with
  | headerAt number => exact hm.trans h
  | head => trivial
  | eventsIn first last => trivial
  | horizon => trivial
  | window => trivial

theorem le_satAdd_of_le {a : ℕ} (hn : n ≤ U64_MAX) (ha : n ≤ a) (b : ℕ) : n ≤ satAdd a b := by
  unfold satAdd
  omega

/-! ### What an engine observes -/

section Observed

variable {P : BlockRef → Prop}

/-- What holds of the observed blocks and of the events' blocks holds after some spans. -/
theorem forall_observed_applySpans (A : Fold σ E ε) :
    ∀ {spans : List (SpanView E)} {e : Engine σ} (s : ApplySummary), (∀ b ∈ e.observed, P b) →
    (∀ span ∈ spans, span.logIndices.length = span.events.length) →
    (∀ span ∈ spans, ∀ x ∈ span.chainEvents, P x.block) →
      ∀ b ∈ (applySpans A spans e s).1.observed, P b
  | [], _, _, h, _, _ => h
  | span :: spans, e, s, h, hlen, hspans => by
      rw [applySpans]
      cases (e.observedHash span).filter (fun x => !decide (x = span.hash)) with
      | some hash => exact h
      | none =>
          have hspan : ∀ b ∈ (applySpan A e span s).1.observed, P b := by
            rw [applySpan_eq A e (hlen span List.mem_cons_self)]
            apply forall_observed_consume A _ h
            intro x hx
            exact hspans span List.mem_cons_self x (List.mem_of_mem_drop hx)
          rcases hap : applySpan A e span s with ⟨e', err | s'⟩
          · rw [hap] at hspan
            exact hspan
          · rw [hap] at hspan
            exact forall_observed_applySpans A s' hspan
              (fun sp hsp => hlen sp (List.mem_cons_of_mem _ hsp))
              fun sp hsp => hspans sp (List.mem_cons_of_mem _ hsp)

/-- And after a batch. -/
theorem forall_observed_applyBatch (A : Fold σ E ε) {e : Engine σ} (h : ∀ b ∈ e.observed, P b)
    (batch : Batch E) (hbatch : ∀ x ∈ batch.chainEvents, P x.block) :
    ∀ b ∈ (e.applyBatch A batch).1.observed, P b := by
  unfold applyBatch
  split_ifs
  · cases batch.validate with
    | error err => exact h
    | ok u =>
        cases u
        dsimp only
        cases e.checkBoundary batch.boundary with
        | error err => exact h
        | ok verified =>
            refine forall_observed_applySpans A _ h ?_ ?_
            · exact fun s hs => Batch.length_eq_of_mem_spans hs
            · exact fun s hs x hx => hbatch x (List.mem_flatMap.mpr ⟨s, hs, hx⟩)
  · exact h

end Observed

/-! ### The invariant -/

/-- A driver whose engine and mark are at block `n` or above. -/
structure FromBlock (n : ℕ) (d : Driver σ κ) : Prop where
  start : n ≤ d.config.startBlock
  ringOk : d.engine.RingOk
  observed : ∀ b ∈ d.engine.observed, n ≤ b.number
  walked : ∀ b, d.walked = some b → n ≤ b.number

namespace FromBlock

variable {d d' : Driver σ κ}

/-- The cursor block is the newest of the observed blocks. -/
theorem cursor (h : FromBlock n d) {c : Position} (hc : d.engine.cursor = some c) :
    n ≤ c.block := by
  obtain ⟨b, hb, hnumber⟩ := h.ringOk.getLast? hc
  rw [← hnumber]
  exact h.observed b (List.mem_of_getLast? hb)

theorem firstBlock (h : FromBlock n d) : n ≤ d.firstBlock := by
  unfold Driver.firstBlock
  cases hc : d.engine.cursor with
  | none => exact h.start
  | some c => exact h.cursor hc

theorem of_eq (h : FromBlock n d) (hc : d'.config = d.config) (he : d'.engine = d.engine)
    (hw : ∀ b, d'.walked = some b → n ≤ b.number) : FromBlock n d' where
  start := by
    rw [hc]
    exact h.start
  ringOk := by
    rw [he]
    exact h.ringOk
  observed := by
    rw [he]
    exact h.observed
  walked := hw

end FromBlock

theorem Handled.ringOk {init : σ} {e e' : Engine σ} (h : Handled init e e') (hr : e.RingOk) :
    e'.RingOk := by
  cases h with
  | same => exact hr
  | checkpoint =>
      unfold Engine.checkpoint
      split_ifs
      · exact ⟨hr.ascending, hr.newest⟩
      · exact hr
  | rollback block =>
      rcases hrb : e.rollbackAtOrBelow block with ⟨e₁, err | c⟩
      · rw [rollback_error hrb]
        exact hr
      · obtain ⟨slot, hbest, -, rfl⟩ := rollback_cases hrb
        exact RingOk.restore hr (mem_of_bestAtOrBelow hbest).2
  | reset => exact ⟨List.Pairwise.nil, by simp [Engine.reset, newestNumber_eq]⟩
  | unrecoverable cause => exact ⟨hr.ascending, hr.newest⟩

/-- What is done to an engine besides folding keeps it at or above a block. -/
theorem FromBlock.handled {d d' : Driver σ κ} (h : FromBlock n d) (hc : d'.config = d.config)
    (he : Handled d.initial d.engine d'.engine)
    (hw : ∀ b, d'.walked = some b → n ≤ b.number) : FromBlock n d' where
  start := by
    rw [hc]
    exact h.start
  ringOk := he.ringOk h.ringOk
  observed b hb := h.observed b (he.observed_subset h.ringOk b hb)
  walked := hw

/-! ### A scan -/

/-- A batch of a walk from a block on that reads up to `last`. -/
structure BatchFrom (n last : ℕ) (b : Batch E) : Prop where
  events : ∀ x ∈ b.chainEvents, n ≤ x.block.number
  last : b.isEmpty = false → n ≤ last

theorem batchFrom_of_spans {last : ℕ} {b : Batch E} (h : b.spans = []) : BatchFrom n last b where
  events := by simp [Batch.chainEvents, h]
  last := by
    intro hne
    rw [(Batch.isEmpty_iff b).mpr h] at hne
    cases hne

/-- The cursor block takes events away and adds none. -/
theorem atCursor_eq_some {c : Cursor} {first : ℕ} {batch b : Batch E}
    {scratch s : List (ChainEvent E)} (h : atCursor c first batch scratch = some (b, s)) :
    b.spans = batch.spans ∧ ∀ x ∈ s, x ∈ scratch := by
  unfold atCursor at h
  cases c with
  | none =>
      cases h
      exact ⟨rfl, fun x hx => hx⟩
  | some c =>
      dsimp only at h
      split_ifs at h
      · cases h
        exact ⟨rfl, fun x hx => List.mem_of_mem_filter hx⟩
      · cases h
        exact ⟨rfl, fun x hx => hx⟩

/-- The walk asks for events only, and reads them from where it starts. -/
theorem walk_asks (c : Cursor) (window last : ℕ) : ∀ (fuel : ℕ) {first : ℕ} {batch : Batch E},
    n ≤ first → batch.spans = [] →
      Asks (Query.From n) (fun e => ∀ b, e = .done b → BatchFrom n last b)
        (walk c window last fuel first batch)
  | 0, _, _, _, hspans => by
      rw [walk, asks_pure]
      rintro b ⟨⟩
      exact batchFrom_of_spans hspans
  | fuel + 1, first, batch, hfirst, hspans => by
      rw [walk]
      split_ifs with hlt
      · rw [asks_pure]
        rintro b ⟨⟩
        exact batchFrom_of_spans hspans
      · refine asks_query_bind trivial fun answer => ?_
        cases answer with
        | none =>
            rw [asks_pure]
            rintro b ⟨⟩
        | some scratch =>
            dsimp only
            split
            · rw [asks_pure]
              rintro b ⟨⟩
            · next hout =>
                have hin : ∀ x ∈ scratch, n ≤ x.block.number := by
                  intro x hx
                  rw [List.any_eq_true] at hout
                  by_contra hlow
                  exact hout ⟨x, hx, by simp; omega⟩
                rcases hat : atCursor c first batch scratch with _ | ⟨b, s⟩
                · rw [asks_pure]
                  rintro b ⟨⟩
                · obtain ⟨hb, hs⟩ := atCursor_eq_some hat
                  rw [hspans] at hb
                  dsimp only
                  split_ifs
                  · rw [asks_pure]
                    rintro b' ⟨⟩
                    exact batchFrom_of_spans hb
                  · exact walk_asks c window last fuel (by unfold satAdd at *; omega) hb
                  · rw [asks_pure]
                    rintro b' ⟨⟩
                    refine ⟨?_, fun _ => by omega⟩
                    rw [chainEvents_groupInto hb]
                    intro x hx
                    exact hin x (hs x ((List.mem_insertionSort _).mp hx))

/-- What a scan leaves that has read from a block on. -/
structure ScannedFrom (n : ℕ) (out : Scanned E) : Prop where
  walked : ∀ b, out.walked = some b → n ≤ b.number
  events : ∀ x ∈ out.batch.chainEvents, n ≤ x.block.number
  capped : ∀ a head, out.outcome = some (.capped a head) → n ≤ a.number

namespace Driver

variable {d : Driver σ κ}

theorem isLagging_asks {observed : List BlockRef} (h : ∀ b ∈ observed, n ≤ b.number)
    (head : BlockRef) :
    Asks (Query.From n) (fun _ => True) (isLagging observed head : Ask E (Option Bool)) := by
  unfold isLagging
  split
  · exact trivial
  · next seen hseen =>
      have hmem := (List.takeWhile_prefix _).subset (List.mem_of_getLast? hseen)
      split_ifs
      · exact trivial
      · exact asks_query_bind (h seen hmem) fun answer => trivial

theorem walkStart_asks (hn : n ≤ U64_MAX) (h : FromBlock n d) (head : BlockRef) :
    Asks (Query.From n) (fun start => ∀ st, start = some st →
      n ≤ st.first ∧ ∀ b, st.walked = some b → n ≤ b.number)
        (d.walkStart head : Ask E (Option WalkStart)) := by
  have hfirst : ∀ st : WalkStart, st = ⟨none, d.firstBlock, false⟩ →
      n ≤ st.first ∧ ∀ b, st.walked = some b → n ≤ b.number := by
    rintro st rfl
    exact ⟨h.firstBlock, fun b hb => absurd hb.symm (Option.some_ne_none b)⟩
  unfold walkStart
  cases hw : d.walked with
  | some walked =>
      have hwalked : ∀ st : WalkStart, st = ⟨some walked, satAdd walked.number 1, true⟩ →
          n ≤ st.first ∧ ∀ b, st.walked = some b → n ≤ b.number := by
        rintro st rfl
        refine ⟨le_satAdd_of_le hn (h.walked walked hw) 1, ?_⟩
        rintro b ⟨⟩
        exact h.walked walked hw
      dsimp only
      split_ifs
      · rw [asks_pure]
        rintro st ⟨⟩
        exact hwalked _ rfl
      · refine asks_query_bind (h.walked walked hw) fun answer => ?_
        rw [asks_pure]
        intro st heq
        obtain ⟨header, -, rfl⟩ := Option.map_eq_some_iff.mp heq
        by_cases hsame : header = some walked
        · rw [if_pos hsame]
          exact hwalked _ rfl
        · rw [if_neg hsame]
          exact hfirst _ rfl
  | none =>
      cases hc : d.engine.cursor with
      | none =>
          dsimp only
          rw [asks_pure]
          rintro st ⟨⟩
          exact hfirst _ rfl
      | some c =>
          dsimp only
          split_ifs
          · rw [asks_pure]
            rintro st ⟨⟩
            exact ⟨le_satAdd_of_le hn (h.cursor hc) 1, by simp⟩
          · rw [asks_pure]
            rintro st ⟨⟩
            exact hfirst _ rfl

theorem fillBoundary_asks (h : FromBlock n d) (head : BlockRef) (resumed : Bool) {last : ℕ}
    {b : Batch E} (hb : BatchFrom n last b) :
    Asks (Query.From n) (fun filled => ∀ b', filled = some b' → BatchFrom n last b')
      (d.fillBoundary head resumed b) := by
  have hwith : ∀ boundary, BatchFrom n last (b.withBoundary boundary) := fun boundary =>
    ⟨hb.events, hb.last⟩
  unfold fillBoundary
  cases hc : d.engine.cursor with
  | none =>
      rw [asks_pure]
      rintro b' ⟨⟩
      exact hb
  | some c =>
      dsimp only
      split_ifs
      · rw [asks_pure]
        rintro b' ⟨⟩
        exact hb
      · rw [asks_pure]
        rintro b' ⟨⟩
        exact hwith _
      · rw [asks_pure]
        rintro b' ⟨⟩
        exact hwith _
      · refine asks_query_bind (h.cursor hc) fun answer => ?_
        rw [asks_pure]
        intro b' heq
        obtain ⟨header, -, rfl⟩ := Option.map_eq_some_iff.mp heq
        exact hwith _

/-- A closing read is of the head, or of the last block of a walk that was capped. -/
theorem conclude_asks {head : BlockRef} {last : ℕ} {b : Batch E} (hb : BatchFrom n last b)
    (hle : last ≤ head.number) (hcap : last < head.number → n ≤ last) :
    Asks (Query.From n) (fun o => ∀ a h, o = some (.capped a h) → n ≤ a.number)
      (conclude head last b) := by
  unfold conclude
  split_ifs with hcapped hempty
  · refine asks_query_bind (hcap hcapped.1) fun answer => ?_
    cases answer with
    | none =>
        rw [asks_pure]
        rintro a h ⟨⟩
    | some anchor =>
        refine asks_query_bind ((hcap hcapped.1).trans hle) fun answer => ?_
        rw [asks_pure]
        intro a h heq
        obtain ⟨again, -, heq⟩ := Option.map_eq_some_iff.mp heq
        cases anchor with
        | none => cases heq
        | some anchor =>
            dsimp only at heq
            split_ifs at heq with hsame
            cases heq
            rw [hsame.2]
            exact hcap hcapped.1
  · rw [asks_pure]
    rintro a h ⟨⟩
  · refine asks_query_bind ((hb.last (by simpa using hempty)).trans hle) fun answer => ?_
    rw [asks_pure]
    intro a h heq
    obtain ⟨again, -, heq⟩ := Option.map_eq_some_iff.mp heq
    split_ifs at heq

theorem scanFrom_asks (hn : n ≤ U64_MAX) (h : FromBlock n d) (head : BlockRef) :
    Asks (Query.From n) (ScannedFrom n) (d.scanFrom head : Ask E (Scanned E)) := by
  have hstop : ∀ walked : Option BlockRef, ∀ outcome : Option Scan,
      (∀ b, walked = some b → n ≤ b.number) → (∀ a head, outcome ≠ some (.capped a head)) →
        ScannedFrom n (⟨walked, Batch.new, outcome⟩ : Scanned E) := fun walked outcome hw ho =>
    ⟨hw, by simp [Batch.chainEvents], fun a head heq => absurd heq (ho a head)⟩
  refine asks_query_bind trivial fun window => Asks.bind ?_
  refine (walkStart_asks hn h head).mono fun start hstart => ?_
  cases start with
  | none => exact hstop _ _ h.walked (by simp)
  | some start =>
      obtain ⟨hfirst, hwalked⟩ := hstart start rfl
      refine Asks.bind ((walk_asks _ _ _ _ hfirst rfl).mono fun e he => ?_)
      cases e with
      | error => exact hstop _ _ hwalked (by simp)
      | refused => exact hstop _ _ hwalked (by simp)
      | done batch =>
          refine Asks.bind ((fillBoundary_asks h head _ (he batch rfl)).mono fun filled hf => ?_)
          cases filled with
          | none => exact ⟨hwalked, (he batch rfl).events, by simp⟩
          | some b =>
              refine Asks.bind ((conclude_asks (hf b rfl) (min_le_left _ _) ?_).mono ?_)
              · intro hlt
                have hle : n ≤ satAdd start.first (satMul d.span (max window 1) - 1) :=
                  le_satAdd_of_le hn hfirst _
                omega
              · exact fun outcome ho => ⟨hwalked, (hf b rfl).events, ho⟩

theorem scan_asks (hn : n ≤ U64_MAX) (h : FromBlock n d) :
    Asks (Query.From n) (ScannedFrom n) (d.scan : Ask E (Scanned E)) := by
  have hstop : ∀ outcome : Option Scan, (∀ a head, outcome ≠ some (.capped a head)) →
      ScannedFrom n (⟨d.walked, Batch.new, outcome⟩ : Scanned E) := fun outcome ho =>
    ⟨h.walked, by simp [Batch.chainEvents], fun a head heq => absurd heq (ho a head)⟩
  refine asks_query_bind trivial fun answer => ?_
  cases answer with
  | none => exact hstop _ (by simp)
  | some head =>
      dsimp only
      split_ifs
      · refine Asks.bind ((isLagging_asks h.observed head).mono fun lagging _ => ?_)
        cases lagging with
        | none => exact hstop _ (by simp)
        | some lagging =>
            cases lagging with
            | true => exact hstop _ (by simp)
            | false => exact scanFrom_asks hn h head
      · exact scanFrom_asks hn h head

/-! ### Recovery -/

theorem bisect_asks {observed : List BlockRef} (h : ∀ b ∈ observed, n ≤ b.number) :
    ∀ fuel lo hi : ℕ,
      Asks (Query.From n) (fun _ => True) (bisect observed fuel lo hi : Ask E (Option ℕ))
  | 0, _, _ => trivial
  | fuel + 1, lo, hi => by
      rw [bisect]
      split_ifs
      · dsimp only
        split
        · exact trivial
        · next seen hseen =>
            refine asks_query_bind (h seen (List.mem_of_getElem? hseen)) fun answer => ?_
            cases answer with
            | none => exact trivial
            | some header =>
                dsimp only
                split_ifs
                · exact bisect_asks h fuel _ hi
                · exact bisect_asks h fuel lo _
      · exact trivial

theorem resyncOrTerminal_asks (d : Driver σ κ) : Asks (Query.From n) (fun _ => True)
    (d.resyncOrTerminal : Ask E (Driver σ κ × Tick)) := by
  refine asks_query_bind trivial fun horizon => ?_
  cases horizon with
  | genesis => exact trivial
  | fromBlock horizon =>
      dsimp only
      split_ifs
      · exact trivial
      · exact trivial

theorem rollBackTo_asks (d : Driver σ κ) (ancestor : ℕ) : Asks (Query.From n) (fun _ => True)
    (d.rollBackTo ancestor : Ask E (Driver σ κ × Tick)) := by
  unfold rollBackTo
  split
  · exact trivial
  · exact resyncOrTerminal_asks _
  · exact trivial

theorem recoverViaBisection_asks (h : FromBlock n d) :
    Asks (Query.From n) (fun r => FromBlock n r.1)
      (d.recoverViaBisection : Ask E (Driver σ κ × Tick)) := by
  have hasks : Asks (Query.From n) (fun _ => True)
      (d.recoverViaBisection : Ask E (Driver σ κ × Tick)) := by
    refine Asks.bind ((bisect_asks h.observed _ _ _).mono fun found _ => ?_)
    cases found with
    | none => exact trivial
    | some lo =>
        dsimp only
        split
        · exact resyncOrTerminal_asks _
        · exact rollBackTo_asks _ _
  refine (hasks.and_runs fun τ r hrun => ?_).mono fun r hr => hr.2
  have hrec := recoverViaBisection_spec (hrun.on ())
  exact h.handled hrec.config hrec.engine (by rw [hrec.walked]; exact h.walked)

/-! ### A tick -/

section Tick

variable (A : Fold σ E ε) (K : Sink κ σ)

theorem accept_from (h : FromBlock n d) (summary : ApplySummary) (head : BlockRef)
    {walked cappedAt : Option BlockRef} (empty : Bool)
    (hwalked : ∀ b, walked = some b → n ≤ b.number)
    (hcapped : ∀ b, cappedAt = some b → n ≤ b.number) :
    FromBlock n (d.accept K summary head walked cappedAt empty).1 := by
  obtain ⟨e, sink, c, s, refused, he, -, heq⟩ := accept_eq K d summary head walked cappedAt empty
  rw [heq]
  refine h.handled rfl ?_ ?_
  · rcases he with rfl | rfl
    · exact .same
    · exact .checkpoint
  · intro b hb
    dsimp only at hb
    split_ifs at hb
    rcases Option.or_eq_some_iff.mp hb with hb | ⟨-, hb⟩
    · exact hcapped b hb
    · exact hwalked b hb

theorem applyScan_asks (h : FromBlock n d) {batch : Batch E} (head : BlockRef)
    {cappedAt : Option BlockRef} (hbatch : ∀ x ∈ batch.chainEvents, n ≤ x.block.number)
    (hcapped : ∀ b, cappedAt = some b → n ≤ b.number) :
    Asks (Query.From n) (fun r => FromBlock n r.1) (d.applyScan A K batch head cappedAt) := by
  have hring : (d.engine.applyBatch A batch).1.RingOk := (applyBatch_moved A h.ringOk batch).ringOk
  have hobserved : ∀ b ∈ (d.engine.applyBatch A batch).1.observed, n ≤ b.number :=
    forall_observed_applyBatch A h.observed batch hbatch
  unfold applyScan
  rcases hap : d.engine.applyBatch A batch with ⟨e, err | summary⟩
  · simp only [hap] at hring hobserved ⊢
    have hleft : ∀ errors, FromBlock n ({ d with
        consecutiveErrors := errors, walked := none, engine := e } : Driver σ κ) := fun errors =>
      ⟨h.start, hring, hobserved, by simp⟩
    cases err with
    | forkSuspected observed refetched => exact recoverViaBisection_asks (hleft 0)
    | missingBoundary => exact recoverViaBisection_asks (hleft 0)
    | cursorBlockUnobserved block => exact recoverViaBisection_asks (hleft 0)
    | halted pos error => exact hleft 0
    | poisoned pos error => exact hleft 0
    | shape error => exact hleft _
    | boundaryNumberMismatch expected got => exact hleft _
    | notActive status => exact hleft 0
  · simp only [hap] at hring hobserved ⊢
    have hleft : FromBlock n ({ d with
        consecutiveErrors := 0, walked := none, engine := e } : Driver σ κ) :=
      ⟨h.start, hring, hobserved, by simp⟩
    exact accept_from K hleft summary head _ h.walked hcapped

theorem pollApply_asks (hn : n ≤ U64_MAX) (h : FromBlock n d) :
    Asks (Query.From n) (fun r => FromBlock n r.1) (d.pollApply A K) := by
  unfold pollApply
  dsimp only
  split_ifs
  · have hpoll : FromBlock n ({ d with generation := d.generation + 1 } : Driver σ κ) :=
      h.of_eq rfl rfl h.walked
    refine Asks.bind ((scan_asks hn hpoll).mono fun out hout => ?_)
    have hleft : FromBlock n
        ({ d with generation := d.generation + 1, walked := out.walked } : Driver σ κ) :=
      h.of_eq rfl rfl hout.walked
    cases ho : out.outcome with
    | none => exact hleft.of_eq rfl rfl hout.walked
    | some scan =>
        cases scan with
        | ready head => exact applyScan_asks A K hleft head hout.events (by simp)
        | capped anchor head =>
            refine applyScan_asks A K hleft head hout.events ?_
            rintro b ⟨⟩
            exact hout.capped _ _ ho
        | lagging => exact hleft.of_eq rfl rfl hout.walked
        | refused => exact hleft.of_eq rfl rfl hout.walked
  · exact h.of_eq rfl rfl h.walked

/-- **A tick asks for no header below the start**, whatever the source answers, and leaves the
engine and the mark at or above it. -/
theorem step_asks (hn : n ≤ U64_MAX) (h : FromBlock n d) :
    Asks (Query.From n) (fun r => FromBlock n r.1) (d.step A K) := by
  have hcaught : FromBlock n (d.catchCaller K) := by
    obtain ⟨sink, c, s, resets, heq⟩ := catchCaller_eq K d
    rw [heq]
    refine h.of_eq rfl rfl ?_
    intro b hb
    dsimp only at hb
    split_ifs at hb
    exact h.walked b hb
  refine Asks.bind ((pollApply_asks A K hn hcaught).mono fun r hr => ?_)
  exact hr.of_eq rfl rfl hr.walked

/-- A new driver has observed nothing. -/
theorem Around.fromBlock {sink : κ} {initial : σ} {engineConfig : EngineConfig}
    {config : DriverConfig} {hpow : engineConfig.ringCapacity.isPowerOfTwo}
    (hn : n ≤ config.startBlock)
    (h : Around K (Engine.fresh initial engineConfig hpow) sink initial config d) :
    FromBlock n d := by
  have hfresh : (Engine.fresh initial engineConfig hpow).observed = [] :=
    iter_withCapacity engineConfig.ringCapacity hpow
  have hring : (Engine.fresh initial engineConfig hpow).RingOk :=
    ⟨List.Pairwise.nil, by simp [Engine.fresh, newestNumber_eq]⟩
  refine ⟨?_, h.handled.ringOk hring, ?_, ?_⟩
  · rw [h.config]
    exact hn
  · intro b hb
    have hmem := h.handled.observed_subset hring b hb
    rw [hfresh] at hmem
    cases hmem
  · simp [h.walked]

/-- Building a driver asks for no header. -/
theorem build_asks {fold : σ} {sink : κ} {engineConfig : EngineConfig} {config : DriverConfig}
    (hn : n ≤ config.startBlock) :
    Asks (Query.From n) (fun r => ∀ d, r = .ok d → FromBlock n d)
      (build K fold sink engineConfig config : Ask E (Except ConfigError (Driver σ κ))) := by
  have hasks : Asks (Query.From n) (fun _ => True)
      (build K fold sink engineConfig config : Ask E (Except ConfigError (Driver σ κ))) := by
    unfold build
    cases Engine.new fold engineConfig with
    | error err => exact trivial
    | ok engine =>
        refine asks_query_bind trivial fun horizon => ?_
        cases horizon with
        | genesis => exact trivial
        | fromBlock horizon =>
            dsimp only
            split_ifs <;> exact trivial
  refine (hasks.and_runs fun τ r hrun => ?_).mono fun r hr => hr.2
  rintro d rfl
  obtain ⟨hpow, h⟩ := build_spec (hrun.on ())
  exact h.fromBlock K hn

end Tick

end Driver

end Works.Chainfold
