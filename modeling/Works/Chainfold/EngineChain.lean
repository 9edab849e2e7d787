import Works.Chainfold.Delivery
import Works.Chainfold.DriverScan

/-! # Engines that follow chains

An engine is sound over the chains of a run when its state and every checkpoint are the initial
state folded over exactly the events that the cursor covers, on some chain that goes through the
observed blocks.  Checkpoints, rollbacks and resets keep that, and so does a batch that holds
the next events of a chain: either the boundary check refuses it, or the engine was on that
chain (`Sound.applyBatch`). -/

namespace Works.Chainfold

open Engine BlockRing

variable {σ E ε : Type}

/-- The events of the blocks from `start` on that a position covers. -/
def Chain.upTo (C : Chain E) (start : ℕ) (p : Position) : List (ChainEvent E) :=
  (C.eventsIn start p.block).filter fun x => decide (x.pos ≤ p)

section UpTo

variable {C : Chain E} {start n : ℕ} {p : Position}

theorem upTo_eq (h : p.block ≤ n) (hs : start ≤ p.block) :
    C.upTo start p = (C.eventsIn start n).filter fun x => decide (x.pos ≤ p) := by
  have hnil : (C.eventsIn (p.block + 1) n).filter (fun x => decide (x.pos ≤ p)) = [] := by
    rw [List.filter_eq_nil_iff]
    intro x hx
    have := (Chain.mem_eventsIn_iff.mp hx).2.1
    rw [decide_eq_true_eq, not_le]
    exact Or.inl (show p.block < x.block.number by omega)
  rw [Chain.eventsIn_append (show start ≤ p.block + 1 by omega) h, List.filter_append, hnil,
    List.append_nil]
  rfl

/-- A sorted list splits at a position. -/
theorem filter_le_append_lt {xs : List (ChainEvent E)} (h : xs.Pairwise fun a b => a.pos < b.pos)
    (p : Position) : xs.filter (fun x => decide (x.pos ≤ p)) ++
      xs.filter (fun x => decide (some p < some x.pos)) = xs := by
  induction xs with
  | nil => rfl
  | cons x xs ih =>
      obtain ⟨hx, hxs⟩ := List.pairwise_cons.mp h
      by_cases hxp : x.pos ≤ p
      · rw [List.filter_cons_of_pos (by simpa using hxp),
          List.filter_cons_of_neg (by simpa using hxp), List.cons_append, ih hxs]
      · have hnil : (x :: xs).filter (fun y => decide (y.pos ≤ p)) = [] := by
          rw [List.filter_eq_nil_iff]
          intro y hy
          rcases List.mem_cons.mp hy with rfl | hy
          · simpa using hxp
          · simpa using (not_le.mp hxp).trans (hx y hy)
        rw [hnil, List.nil_append, List.filter_eq_self]
        intro y hy
        rcases List.mem_cons.mp hy with rfl | hy
        · simpa using hxp
        · simpa using (not_le.mp hxp).trans (hx y hy)

/-- In a sorted list, what lies between two positions follows what the first covers. -/
theorem filter_le_append {xs : List (ChainEvent E)} (h : xs.Pairwise fun a b => a.pos < b.pos)
    {p q : Position} (hpq : p ≤ q) :
    xs.filter (fun x => decide (x.pos ≤ q)) = xs.filter (fun x => decide (x.pos ≤ p)) ++
      (xs.filter fun x => decide (some p < some x.pos)).filter fun x =>
        decide (some x.pos ≤ some q) := by
  rw [← filter_le_append_lt (h.filter fun x => decide (x.pos ≤ q)) p, List.filter_filter,
    List.filter_filter, List.filter_filter]
  congr 1
  · refine List.filter_congr ?_
    intro x _
    by_cases hxp : x.pos ≤ p
    · simp [hxp, hxp.trans hpq]
    · simp [hxp]
  · refine List.filter_congr ?_
    intro x _
    simp [Bool.and_comm]

theorem upTo_append {q : Position} (hs : start ≤ p.block) (hpq : p ≤ q) (hq : q.block ≤ n) :
    C.upTo start q = C.upTo start p ++
      (above C start (some p) n).filter fun x => decide (some x.pos ≤ some q) := by
  have hpq' := Position.block_le hpq
  rw [upTo_eq hq (hs.trans hpq'), upTo_eq (hpq'.trans hq) hs,
    filter_le_append (Chain.sorted_eventsIn start n) hpq]
  rfl

end UpTo

/-! ### Soundness -/

/-- A fold that leaves its state unchanged when it skips or halts, and never poisons it. -/
structure TidyFold (A : Fold σ E ε) : Prop extends CleanFold A where
  poison : ∀ s pos x error, (A.apply s pos x).2 ≠ .error (.poison error)

section Sound

variable (A : Fold σ E ε) (chains : Set (Chain E)) (start : ℕ) (init : σ)

/-- The state is the initial one folded over what the cursor covers, on a chain through the
blocks up to the cursor. -/
structure Backed (s : σ) (c : Cursor) (blocks : List BlockRef) : Prop where
  fresh : c = none → s = init
  chain : ∀ p, c = some p → start ≤ p.block ∧ ∃ C ∈ chains,
    (∀ b ∈ blocks, b.number ≤ p.block → C.Has b) ∧ s = foldOver A init (C.upTo start p)

/-- The checkpoints are backed by chains, and so is the engine unless its fold stopped it with
its state changed. -/
structure Sound (e : Engine σ) : Prop where
  ringOk : e.RingOk
  engine : e.status = .active ∨ TidyFold A → Backed A chains start init e.fold e.cursor e.observed
  slots : ∀ s ∈ e.checkpoints.stored, s.cursor ≤ e.cursor ∧
    Backed A chains start init s.fold s.cursor e.observed

variable {A chains start init}

theorem Backed.mono {s : σ} {c : Cursor} {blocks blocks' : List BlockRef}
    (h : Backed A chains start init s c blocks)
    (hsub : ∀ p, c = some p → ∀ b ∈ blocks', b.number ≤ p.block → b ∈ blocks) :
    Backed A chains start init s c blocks' where
  fresh := h.fresh
  chain := by
    intro p hp
    obtain ⟨hs, C, hC, hhas, hfold⟩ := h.chain p hp
    exact ⟨hs, C, hC, fun b hb hle => hhas b (hsub p hp b hb hle) hle, hfold⟩

/-- Any chain through the cursor block backs the state. -/
theorem Backed.on (hcom : Committed chains) {C : Chain E} (hC : C ∈ chains) {s : σ}
    {p : Position} {blocks : List BlockRef} (h : Backed A chains start init s (some p) blocks)
    {b : BlockRef} (hb : b ∈ blocks) (hn : b.number = p.block) (hCb : C.Has b) :
    (∀ a ∈ blocks, a.number ≤ p.block → C.Has a) ∧ s = foldOver A init (C.upTo start p) := by
  obtain ⟨-, D, hD, hhas, hfold⟩ := h.chain p rfl
  have hDb := hhas b hb hn.le
  refine ⟨fun a ha hle => hcom.has hD hC hDb hCb (hhas a ha hle) (hn ▸ hle), ?_⟩
  rw [hfold, Chain.upTo, Chain.upTo, hcom.eventsIn hD hC hDb hCb hn.ge]

theorem Sound.fresh (config : EngineConfig) (h : config.ringCapacity.isPowerOfTwo) :
    Sound A chains start init (Engine.fresh init config h) where
  ringOk := ⟨List.Pairwise.nil, by simp [Engine.fresh, newestNumber_eq]⟩
  engine := fun _ => ⟨fun _ => rfl, by simp [Engine.fresh]⟩
  slots := by simp [Engine.fresh]

theorem Sound.reset {e : Engine σ} : Sound A chains start init (e.reset init) where
  ringOk := ⟨List.Pairwise.nil, by simp [Engine.reset, newestNumber_eq]⟩
  engine := fun _ => ⟨fun _ => rfl, by simp [Engine.reset]⟩
  slots := by simp [Engine.reset]

theorem Sound.markUnrecoverable {e : Engine σ} (h : Sound A chains start init e)
    (cause : DivergenceCause) : Sound A chains start init (e.markUnrecoverable cause) where
  ringOk := ⟨h.ringOk.ascending, h.ringOk.newest⟩
  engine := by
    rintro (hactive | hA)
    · cases hactive
    · exact h.engine (Or.inr hA)
  slots := h.slots

theorem Sound.checkpoint {e : Engine σ} (h : Sound A chains start init e) :
    Sound A chains start init e.checkpoint := by
  unfold Engine.checkpoint
  split_ifs with hactive
  · refine ⟨⟨h.ringOk.ascending, h.ringOk.newest⟩, h.engine, ?_⟩
    intro s hs
    rcases CheckpointRing.mem_stored_store hs with hs | rfl
    · exact h.slots s hs
    · exact ⟨le_rfl, h.engine (Or.inl (EngineStatus.isActive_iff.mp hactive))⟩
  · exact h

/-- The blocks a restored engine observes were observed before. -/
theorem observed_restore {e : Engine σ} (h : e.RingOk) (slot : Slot σ) :
    ∀ b ∈ (e.restore slot).observed, b ∈ e.observed := by
  intro b hb
  have hring : (e.restore slot).ring = ringAt e.ring slot.cursor := rfl
  rw [observed, hring] at hb
  cases hc : slot.cursor with
  | none => simp [hc, ringAt] at hb
  | some c =>
      rw [hc, ringAt, iter_truncateAbove h.ascending] at hb
      exact List.mem_of_mem_filter hb

theorem Sound.rollback {e : Engine σ} (h : Sound A chains start init e) (block : ℕ) :
    Sound A chains start init (e.rollbackAtOrBelow block).1 := by
  rcases hrb : e.rollbackAtOrBelow block with ⟨e', err | c⟩
  · rw [rollback_error hrb]
    exact h
  · obtain ⟨slot, hbest, -, rfl⟩ := rollback_cases hrb
    obtain ⟨hmem, hlive⟩ := mem_of_bestAtOrBelow hbest
    have hsub : ∀ b ∈ (e.restore slot).observed, b ∈ e.observed := observed_restore h.ringOk slot
    refine ⟨RingOk.restore h.ringOk hlive, ?_, ?_⟩
    · exact fun _ => (h.slots slot hmem).2.mono fun p _ b hb _ => hsub b hb
    · intro s hs
      obtain ⟨hs, hle⟩ := CheckpointRing.mem_stored_dropNewer hs
      exact ⟨hle, (h.slots s hs).2.mono fun p _ b hb _ => hsub b hb⟩

/-! ### A batch of a chain -/

/-- The errors of a boundary check. -/
inductive Forked : ApplyError ε → Prop
  | missingBoundary : Forked .missingBoundary
  | forkSuspected (observed refetched : BlockRef) (hne : observed.hash ≠ refetched.hash) :
      Forked (.forkSuspected observed refetched)

/-- A batch of the chain was let through. -/
structure Advanced (A : Fold σ E ε) (C : Chain E) (start n : ℕ) (e e' : Engine σ)
    (r : Except (ApplyError ε) ApplySummary) : Prop where
  before : ∀ a ∈ e.observed, C.Has a
  has : ∀ a ∈ e'.observed, C.Has a
  cursor_le : e.cursor ≤ e'.cursor
  cursor : e'.cursor = e.cursor ∨ ∃ p, e'.cursor = some p ∧ start ≤ p.block ∧ p.block ≤ n
  ok : ∀ s, r = .ok s → e'.status = .active ∧ Covered C start e'.cursor (n + 1)
  error : ∀ err, r = .error err → e'.status ≠ .active
  run : errorOf r = errorOf (consume A (above C start e.cursor n) e ApplySummary.zero).2

theorem cursor_consume_mem (A : Fold σ E ε) : ∀ (xs : List (ChainEvent E)) (e : Engine σ)
    (s : ApplySummary), (consume A xs e s).1.cursor = e.cursor ∨
      ∃ x ∈ xs, (consume A xs e s).1.cursor = some x.pos
  | [], _, _ => Or.inl rfl
  | x :: xs, e, s => by
      have hrest : ∀ (e₁ : Engine σ) (s₁ : ApplySummary), e₁.cursor = some x.pos →
          (consume A xs e₁ s₁).1.cursor = e.cursor ∨
            ∃ y ∈ x :: xs, (consume A xs e₁ s₁).1.cursor = some y.pos := by
        intro e₁ s₁ h₁
        rcases cursor_consume_mem A xs e₁ s₁ with h | ⟨y, hy, h⟩
        · exact Or.inr ⟨x, List.mem_cons_self, h.trans h₁⟩
        · exact Or.inr ⟨y, List.mem_cons_of_mem _ hy, h⟩
      rw [consume]
      rcases A.apply e.fold x.pos x.event with ⟨fold, err | _⟩
      · cases err with
        | skip _ => exact hrest _ _ (by simp)
        | halt _ => exact Or.inl rfl
        | poison _ => exact Or.inl rfl
      · exact hrest _ _ (by simp)

/-- A run of a tidy fold is stopped by a halt only. -/
theorem consume_tidy (hA : TidyFold A) : ∀ (xs : List (ChainEvent E)) (e : Engine σ)
    (s : ApplySummary), ∀ err, errorOf (consume A xs e s).2 = some err →
      CleanFold A ∧ ∃ pos error, err = .halted pos error
  | [], _, _, _, h => by simp [consume, errorOf] at h
  | x :: xs, e, s, err, h => by
      rw [consume] at h
      rcases hap : A.apply e.fold x.pos x.event with ⟨fold, err' | _⟩
      · rw [hap] at h
        cases err' with
        | skip _ => exact consume_tidy hA xs _ _ err h
        | halt error =>
            obtain rfl : ApplyError.halted x.pos error = err := Option.some.inj h
            exact ⟨hA.toCleanFold, x.pos, error, rfl⟩
        | poison error => exact absurd (by rw [hap]) (hA.poison e.fold x.pos x.event error)
      · rw [hap] at h
        exact consume_tidy hA xs _ _ err h

/-- Old checkpoints stay backed while the engine moves on. -/
theorem Backed.moved {e e' : Engine σ} (hr : e.RingOk) (hm : e.Moved e') {s : σ} {c : Cursor}
    (h : Backed A chains start init s c e.observed) (hle : c ≤ e.cursor) :
    Backed A chains start init s c e'.observed := by
  refine h.mono ?_
  intro p hp b hb hn
  rw [hp] at hle
  have hsuf := (filter_pushes hm.pushes (exists_le_of_cursor_le hr hle)).1
  exact List.mem_of_mem_filter (hsuf.subset (List.mem_filter.mpr ⟨hb, by simpa using hn⟩))

section Batch

variable (hcom : Committed chains) {C : Chain E} (hC : C ∈ chains) {e : Engine σ} {b : Batch E}

include hcom hC

/-- The boundary check refuses the batch, or the engine is on the chain. -/
theorem boundary_cases (h : Sound A chains start init e) (hactive : e.status = .active)
    (hv : b.validate = .ok ()) (hb : ∀ r, b.boundary = some r → AtCursor C e.cursor r) :
    ((∃ err, Forked err ∧ e.applyBatch A b = (e, .error err)) ∧
        ∃ p, e.cursor = some p ∧ (b.boundary = none ∨ ∃ a ∈ e.observed, ¬ C.Has a)) ∨
      (∀ a ∈ e.observed, C.Has a) ∧ Boundary C.hashAt e b := by
  have happly : ∀ err : ApplyError ε, e.checkBoundary b.boundary = .error err →
      e.applyBatch A b = (e, .error err) := by
    intro err herr
    unfold applyBatch
    rw [if_pos (EngineStatus.isActive_iff.mpr hactive), hv]
    simp only [herr]
  cases hc : e.cursor with
  | none =>
      refine Or.inr ⟨?_, ?_⟩
      · intro a ha
        rw [observed, h.ringOk.iter_eq_nil_iff.mp hc] at ha
        simp at ha
      · intro c hc'
        rw [hc] at hc'
        simp at hc'
  | some p =>
      obtain ⟨hash, hhash, hlast⟩ := h.ringOk.hashAt_cursor hc
      have hnewest := List.mem_of_getLast? hlast
      cases hbd : b.boundary with
      | none =>
          refine Or.inl ⟨⟨_, .missingBoundary, happly _ ?_⟩, p, rfl, Or.inl rfl⟩
          simp [checkBoundary, hc, hbd]
      | some r =>
          obtain ⟨hCr, hnum⟩ := hb r hbd
          have hnum := hnum p hc
          by_cases heq : hash = r.hash
          · have hr : r = ⟨p.block, hash⟩ := by
              rw [← hnum, heq]
            rw [hr] at hCr
            have hback := h.engine (Or.inl hactive)
            rw [hc] at hback
            obtain ⟨hall, -⟩ := hback.on hcom hC hnewest rfl hCr
            refine Or.inr ⟨fun a ha => hall a ha (h.ringOk.number_le hc a ha), ?_⟩
            intro c hc'
            rw [hc, Option.some.injEq] at hc'
            have hhash' : hash = C.hashAt p.block := hCr.hashAt
            rw [hbd, hr, ← hc', ← hhash']
          · refine Or.inl ⟨⟨_, .forkSuspected ⟨p.block, hash⟩ r heq, happly _ ?_⟩, p, rfl,
              Or.inr ⟨⟨p.block, hash⟩, hnewest, ?_⟩⟩
            · simp [checkBoundary, hc, hbd, hnum, hhash, heq, forkSuspected]
            · intro hCn
              have := hCn.eq hCr hnum.symm
              exact heq (congrArg BlockRef.hash this)

/-- The state after the events of a chain that a new cursor covers. -/
theorem Sound.fold_advance (h : Sound A chains start init e) (hactive : e.status = .active)
    (hhas : ∀ a ∈ e.observed, C.Has a)
    {n : ℕ} {p : Position} (hle : e.cursor ≤ some p) (hs : start ≤ p.block) (hn : p.block ≤ n) :
    foldOver A e.fold ((above C start e.cursor n).filter fun x => decide (some x.pos ≤ some p)) =
      foldOver A init (C.upTo start p) := by
  cases hc : e.cursor with
  | none =>
      have hall : above C start none n = C.eventsIn start n := by
        rw [above, List.filter_eq_self.mpr (by simp)]
      rw [(h.engine (Or.inl hactive)).fresh hc, hall, upTo_eq hn hs]
      refine congrArg _ (List.filter_congr ?_)
      intro x _
      exact decide_eq_decide.mpr Option.some_le_some
  | some q =>
      obtain ⟨a, hlast, hnum⟩ := h.ringOk.getLast? hc
      have hmem := List.mem_of_getLast? hlast
      have hback := h.engine (Or.inl hactive)
      rw [hc] at hback hle
      obtain ⟨hsq, -⟩ := hback.chain q rfl
      obtain ⟨-, hfold⟩ := hback.on hcom hC hmem hnum (hhas a hmem)
      rw [hfold, upTo_append hsq (Option.some_le_some.mp hle) hn, foldOver, foldOver, foldOver,
        List.foldl_append]

/-- **A batch of a chain keeps an engine sound**: it is refused at its boundary, or folded on
that chain. -/
theorem Sound.applyBatch (h : Sound A chains start init e) (hactive : e.status = .active) {n : ℕ}
    (hb : BatchOk C start e.cursor n b) :
    Sound A chains start init (e.applyBatch A b).1 ∧
      (((∃ err, Forked err ∧ e.applyBatch A b = (e, .error err)) ∧
          ∃ p, e.cursor = some p ∧ (b.boundary = none ∨ ∃ a ∈ e.observed, ¬ C.Has a)) ∨
        Advanced A C start n e (e.applyBatch A b).1 (e.applyBatch A b).2) := by
  rcases boundary_cases hcom hC h hactive hb.valid hb.boundary with
    ⟨⟨err, hforked, heq⟩, hwhy⟩ | ⟨hhas, hbd⟩
  · refine ⟨?_, Or.inl ⟨⟨err, hforked, heq⟩, hwhy⟩⟩
    rw [heq]
    exact h
  · have hon : OnChain C.hashAt e := fun a ha => (hhas a ha).hashAt
    have hmem : ∀ x ∈ b.chainEvents, C.Has x.block := by
      intro x hx
      rw [hb.events] at hx
      exact has_of_mem_eventsIn (List.mem_of_mem_filter hx)
    obtain ⟨hagree, hstatus⟩ := applyBatch_eq A hactive h.ringOk hon hb.valid hbd
      (fun x hx => (hmem x hx).hashAt) ApplySummary.zero
    have hself : b.chainEvents.filter (fun x => decide (e.cursor < some x.pos)) =
        above C start e.cursor n := by
      rw [hb.events, above, List.filter_filter]
      simp
    rw [hself] at hagree hstatus
    have hmoved := applyBatch_moved A h.ringOk b
    have hafter : After e.cursor (above C start e.cursor n) :=
      After.filter (Chain.sorted_eventsIn start n)
    have hcursor := cursor_consume_mem A (above C start e.cursor n) e ApplySummary.zero
    set e' := (e.applyBatch A b).1 with he'
    rw [← hagree.alike.cursor] at hcursor
    have hfold : e'.status = .active ∨ TidyFold A →
        e'.fold = foldOver A e.fold ((above C start e.cursor n).filter fun x =>
          decide (some x.pos ≤ e'.cursor)) := by
      intro hback
      have hstop : ∀ err, errorOf (consume A (above C start e.cursor n) e ApplySummary.zero).2 =
          some err → CleanFold A ∧ ∃ pos error, err = .halted pos error := by
        intro err herr
        rcases hback with hact | hA
        · rw [he', hstatus] at hact
          rcases hrun : consume A (above C start e.cursor n) e ApplySummary.zero with
            ⟨e'', err' | s'⟩
          · rw [hrun] at hact
            obtain ⟨pos, error, ⟨-, hst⟩ | ⟨-, hst⟩⟩ := consume_error A hrun
            · rw [hst] at hact
              cases hact
            · rw [hst] at hact
              cases hact
          · rw [hrun] at herr
            cases herr
        · exact consume_tidy hA _ _ _ err herr
      have := fold_consume ApplySummary.zero h.ringOk hafter hstop
      rw [← hagree.alike.cursor] at this
      exact hagree.alike.fold.trans this
    have hobs : ∀ a ∈ e'.observed, C.Has a := by
      intro a ha
      rw [observed, hagree.alike.ring] at ha
      refine forall_observed_consume A ApplySummary.zero hhas ?_ a ha
      intro x hx
      exact has_of_mem_eventsIn (List.mem_of_mem_filter hx)
    have hsound : Sound A chains start init e' := by
      refine ⟨hmoved.ringOk, fun hback => ?_, ?_⟩
      · rcases hcursor with hsame | ⟨x, hx, hcur⟩
        · have hnil : (above C start e.cursor n).filter (fun x =>
              decide (some x.pos ≤ e'.cursor)) = [] := by
            rw [List.filter_eq_nil_iff, hsame]
            intro x hx
            simpa using hafter.above x hx
          rw [hfold hback, hnil, hsame]
          exact (h.engine (Or.inl hactive)).moved h.ringOk hmoved le_rfl
        · obtain ⟨-, hs, hn⟩ := Chain.mem_eventsIn_iff.mp (List.mem_of_mem_filter hx)
          refine ⟨fun hnone => absurd (hcur.symm.trans hnone) (by simp), ?_⟩
          intro p hp
          rw [hcur, Option.some.injEq] at hp
          subst hp
          refine ⟨hs, C, hC, fun a ha _ => hobs a ha, ?_⟩
          have hle := hmoved.cursor_le
          rw [hcur] at hle
          rw [hfold hback, hcur, h.fold_advance hcom hC hactive hhas hle hs hn]
      · intro s hs
        rw [hmoved.checkpoints] at hs
        obtain ⟨hle, hback⟩ := h.slots s hs
        exact ⟨hle.trans hmoved.cursor_le, hback.moved h.ringOk hmoved hle⟩
    refine ⟨hsound, Or.inr ⟨hhas, hobs, hmoved.cursor_le, ?_, ?_, ?_, hagree.error⟩⟩
    · rcases hcursor with hsame | ⟨x, hx, hcur⟩
      · exact Or.inl hsame
      · obtain ⟨-, hs, hn⟩ := Chain.mem_eventsIn_iff.mp (List.mem_of_mem_filter hx)
        exact Or.inr ⟨x.pos, hcur, hs, hn⟩
    · intro s hs
      have herr := hagree.error
      rw [hs] at herr
      rcases hrun : consume A (above C start e.cursor n) e ApplySummary.zero with ⟨e'', err | s'⟩
      · rw [hrun] at herr
        simp [errorOf] at herr
      · refine ⟨?_, ?_⟩
        · rw [he', hstatus, status_consume, hrun, hactive]
          rfl
        · intro x hx hsx hlt
          by_cases hxc : e.cursor < some x.pos
          · have hcov := le_cursor_consume A hrun hafter x (List.mem_filter.mpr
              ⟨Chain.mem_eventsIn_iff.mpr ⟨hx, hsx, by omega⟩, by simpa using hxc⟩)
            rw [he', hagree.alike.cursor, hrun]
            exact hcov
          · exact (not_lt.mp hxc).trans hmoved.cursor_le
    · intro err herr
      have herr' := hagree.error
      rw [herr] at herr'
      rcases hrun : consume A (above C start e.cursor n) e ApplySummary.zero with ⟨e'', err' | s'⟩
      · rw [he', hstatus, hrun]
        obtain ⟨pos, error, ⟨-, hst⟩ | ⟨-, hst⟩⟩ := consume_error A hrun
        · simp [hst]
        · simp [hst]
      · rw [hrun] at herr'
        simp [errorOf] at herr'

end Batch

end Sound

end Works.Chainfold
