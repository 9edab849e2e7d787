import Works.Chainfold.CaughtUp

/-! # Convergence

Once the source answers from one chain, without errors and with a head at or above every head it
told before, the driver comes to an idle tick and has then folded every event of that chain
(`Reached.converges`).  At most one tick is a recovery: it leaves the engine on the chain, and
there every later tick folds an event, walks further, loses durability for good, or is idle. -/

namespace Works.Chainfold

open Works.Lib Prog Engine BlockRing

variable {σ E ε κ : Type}

/-- The horizon is at or below the start block whenever the source tells it. -/
def Covers (start : ℕ) (τ : Trace E) : Prop :=
  ∀ x ∈ τ, ∀ horizon, x.1 = ⟨.horizon, .fromBlock horizon⟩ → horizon ≤ start

/-- A tick against the chain. -/
def TickOn (A : Fold σ E ε) (K : Sink κ σ) (C : Chain E) (d d' : Driver σ κ) (t : Tick) : Prop :=
  ∃ τ : Trace E, RunsOn (d.step A K) τ (d', t) ∧ AnsweredBy C τ ∧ Covers d.config.startBlock τ

/-- Ticks against the chain lead to an idle one within `n`, and the first idle one leaves the
initial fold applied to all events of the chain. -/
def IdleWithin (A : Fold σ E ε) (K : Sink κ σ) (C : Chain E) (start : ℕ) (init : σ) :
    ℕ → Driver σ κ → Prop
  | 0, _ => False
  | n + 1, d => (∃ d' t, TickOn A K C d d' t) ∧ ∀ d' t, TickOn A K C d d' t →
      (t = .idle ∧ d'.engine.fold = foldOver A init (C.eventsIn start C.headNumber)) ∨
        (t ≠ .idle ∧ IdleWithin A K C start init n d')

/-- The fold neither halts nor poisons its state along the chain. -/
def Unhalted (A : Fold σ E ε) (C : Chain E) (start : ℕ) (init : σ) : Prop :=
  ∀ pre x post, C.eventsIn start C.headNumber = pre ++ x :: post →
    ∀ err, (A.apply (foldOver A init pre) x.pos x.event).2 = .error err → ∃ e, err = .skip e

/-- A source that tells no horizon above the genesis covers every start. -/
theorem covers_of_reply {start window : ℕ} {τ : Trace E}
    (h : ∀ x ∈ τ, ∃ s, x.1.answer = reply .genesis window s x.1.query) : Covers start τ := by
  rintro ⟨⟨q, r⟩, D⟩ hx horizon heq
  obtain ⟨s, hr⟩ := h _ hx
  cases q with
  | horizon =>
      have hr : r = .genesis := hr
      rw [hr] at heq
      cases heq
  | head => cases heq
  | headerAt number => cases heq
  | eventsIn first last => cases heq
  | window => cases heq

/-- A tick in which every answer is the chain's. -/
theorem TickOn.of_reply {A : Fold σ E ε} {K : Sink κ σ} {C : Chain E} {window : ℕ}
    {d d' : Driver σ κ} {t : Tick} {τ : Trace E} (hrun : RunsOn (d.step A K) τ (d', t))
    (h : ∀ x ∈ τ, x.2 = C ∧ x.1.answer = reply .genesis window (true, C) x.1.query) :
    TickOn A K C d d' t :=
  ⟨τ, hrun, answeredBy_of_reply .genesis window h, covers_of_reply fun x hx => ⟨_, (h x hx).2⟩⟩

theorem exists_tickOn (A : Fold σ E ε) (K : Sink κ σ) (C : Chain E) (d : Driver σ κ) :
    ∃ d' t, TickOn A K C d d' t := by
  obtain ⟨τ, ⟨d', t⟩, hrun, hreply⟩ := exists_answered .genesis 1 C (d.step A K)
  exact ⟨d', t, .of_reply hrun hreply⟩

/-! ### A fold that does not stop -/

section Unhalted

variable {A : Fold σ E ε} {chains : Set (Chain E)} {C : Chain E} {start : ℕ} {init : σ}
  {e : Engine σ}

theorem consume_unhalted : ∀ (xs : List (ChainEvent E)) (e : Engine σ) (s : ApplySummary),
    (∀ pre x post, xs = pre ++ x :: post → ∀ err,
      (A.apply (foldOver A e.fold pre) x.pos x.event).2 = .error err → ∃ e, err = .skip e) →
    errorOf (consume A xs e s).2 = none
  | [], _, _, _ => rfl
  | x :: xs, e, s, h => by
      have hrest : ∀ (e₁ : Engine σ) (s₁ : ApplySummary),
          e₁.fold = (A.apply e.fold x.pos x.event).1 → errorOf (consume A xs e₁ s₁).2 = none := by
        intro e₁ s₁ hf
        refine consume_unhalted xs e₁ s₁ ?_
        intro pre y post heq err herr
        rw [hf] at herr
        exact h (x :: pre) y post (by rw [heq]; rfl) err herr
      rw [consume]
      rcases hap : A.apply e.fold x.pos x.event with ⟨fold, err | _⟩
      · obtain ⟨err', rfl⟩ := h [] x xs rfl err (by rw [foldOver, List.foldl_nil, hap])
        exact hrest _ _ (by simp [hap])
      · exact hrest _ _ (by simp [hap])

/-- What is above the cursor follows what the engine has seen. -/
theorem exists_eventsIn_eq (hcom : Committed chains) (hC : C ∈ chains)
    (h : Sound A chains start init e) (hactive : e.status = .active)
    (hon : ∀ b ∈ e.observed, C.Has b) {n : ℕ} (hn : n ≤ C.headNumber)
    (hne : above C start e.cursor n ≠ []) : ∃ seen rest, e.fold = foldOver A init seen ∧
      C.eventsIn start C.headNumber = seen ++ (above C start e.cursor n ++ rest) := by
  obtain ⟨x, hx⟩ := List.exists_mem_of_ne_nil _ hne
  obtain ⟨hmem, habove⟩ := List.mem_filter.mp hx
  obtain ⟨-, hsx, hxn⟩ := Chain.mem_eventsIn_iff.mp hmem
  have hsplit := Chain.eventsIn_append (C := C) (show start ≤ n + 1 by omega) hn
  have hback := h.engine (Or.inl hactive)
  cases hc : e.cursor with
  | none =>
      refine ⟨[], C.eventsIn (n + 1) C.headNumber, hback.fresh hc, ?_⟩
      rw [List.nil_append, above, List.filter_eq_self.mpr (by simp)]
      exact hsplit
  | some p =>
      rw [hc] at hback habove
      have hlt : p < x.pos := by simpa using habove
      have hpn : p.block ≤ n := (Position.block_le hlt.le).trans hxn
      obtain ⟨newest, hlast, hnum⟩ := h.ringOk.getLast? hc
      have hnewest := List.mem_of_getLast? hlast
      obtain ⟨hstart, -⟩ := hback.chain p rfl
      obtain ⟨-, hfold⟩ := hback.on hcom hC hnewest hnum (hon newest hnewest)
      refine ⟨C.upTo start p, C.eventsIn (n + 1) C.headNumber, hfold, ?_⟩
      rw [upTo_eq hpn hstart, above, ← List.append_assoc,
        filter_le_append_lt (Chain.sorted_eventsIn start n) p]
      exact hsplit

theorem Unhalted.consume (hA : Unhalted A C start init) (hcom : Committed chains)
    (hC : C ∈ chains) (h : Sound A chains start init e) (hactive : e.status = .active)
    (hon : ∀ b ∈ e.observed, C.Has b) {n : ℕ} (hn : n ≤ C.headNumber) :
    errorOf (Engine.consume A (above C start e.cursor n) e ApplySummary.zero).2 = none := by
  cases hab : above C start e.cursor n with
  | nil => rfl
  | cons y ys =>
      rw [← hab]
      obtain ⟨seen, rest, hfold, heq⟩ := exists_eventsIn_eq hcom hC h hactive hon hn (by simp [hab])
      refine consume_unhalted _ e ApplySummary.zero ?_
      intro pre x post hsplit err herr
      rw [hfold, foldOver, foldOver, ← List.foldl_append] at herr
      refine hA (seen ++ pre) x (post ++ rest) ?_ err herr
      rw [heq, hsplit]
      simp

end Unhalted

/-! ### The measure -/

namespace Driver

/-- How far a walk has to go. -/
def toWalk (C : Chain E) (walked : Option BlockRef) : ℕ :=
  match walked with
  | some w => if C.Has w then C.headNumber - w.number else C.headNumber + 1
  | none => C.headNumber + 1

/-- What is left to do on the chain: events first, then the flag of the sink, then the walk. -/
def toDo (C : Chain E) (d : Driver σ κ) : ℕ :=
  ((above C d.config.startBlock d.engine.cursor C.headNumber).length * 2 +
    (if d.durabilityLost then 0 else 1)) * (C.headNumber + 2) + toWalk C d.walked

theorem toWalk_le (C : Chain E) (walked : Option BlockRef) : toWalk C walked ≤ C.headNumber + 1 := by
  unfold toWalk
  split
  · split_ifs <;> omega
  · exact le_rfl

theorem mul_add_lt {a a' k m m' : ℕ} (ha : a' < a) (hm : m' < k) : a' * k + m' < a * k + m := by
  have h := Nat.mul_le_mul_right k (Nat.succ_le_of_lt ha)
  rw [Nat.succ_mul] at h
  omega

/-- Consumed events are no longer above the cursor. -/
theorem length_above_lt {C : Chain E} {start n : ℕ} {c c' : Cursor} (hle : c ≤ c')
    (hmore : ∃ x ∈ above C start c n, some x.pos ≤ c') :
    (above C start c' n).length < (above C start c n).length := by
  have heq : above C start c' n = (above C start c n).filter fun x => decide (c' < some x.pos) := by
    unfold above
    rw [List.filter_filter]
    refine List.filter_congr ?_
    intro x _
    by_cases h : c' < some x.pos
    · simp [h, lt_of_le_of_lt hle h]
    · simp [h]
  rw [heq, List.length_filter_lt_length_iff_exists]
  obtain ⟨x, hx, hcov⟩ := hmore
  exact ⟨x, hx, by simpa using hcov⟩

end Driver

/-! ### One tick -/

section Step

variable {A : Fold σ E ε} {chains : Set (Chain E)} {C : Chain E} {d d' : Driver σ κ} {t : Tick}

theorem AnsweredBy.honest {τ : Trace E} (hC : C ∈ chains) (h : AnsweredBy C τ) :
    Honest chains τ := by
  intro x hx
  obtain ⟨heq, htrue, -⟩ := h x hx
  rw [heq]
  exact ⟨hC, htrue⟩

theorem AnsweredBy.headsUpTo {τ : Trace E} (h : AnsweredBy C τ) : HeadsUpTo C.headNumber τ := by
  rintro ⟨x, D⟩ hx head rfl
  obtain ⟨-, htrue, -⟩ := h _ hx
  rw [htrue head rfl]
  exact le_rfl

/-- The driver is between ticks, active, and has not seen a head above that of the chain. -/
structure Ready (A : Fold σ E ε) (chains : Set (Chain E)) (C : Chain E) (d : Driver σ κ) : Prop where
  kept : Kept A chains C.headNumber d
  active : d.engine.status = .active

/-- **A tick against the chain** is idle and complete, or leaves the engine on the chain with
less to do if it was there before. -/
theorem Ready.tick (hcom : Committed chains) (hC : C ∈ chains) (K : Sink κ σ)
    (hA : Unhalted A C d.config.startBlock d.initial) (hd : Ready A chains C d)
    (ht : TickOn A K C d d' t) :
    (t = .idle ∧ d'.engine.fold =
        foldOver A d.initial (C.eventsIn d.config.startBlock C.headNumber)) ∨
      (t ≠ .idle ∧ Ready A chains C d' ∧ (∀ b ∈ d'.engine.observed, C.Has b) ∧
        d'.config = d.config ∧ d'.initial = d.initial ∧
        ((∀ b ∈ d.engine.observed, C.Has b) →
          (d'.catchCaller K).toDo C < (d.catchCaller K).toDo C)) := by
  obtain ⟨τ, hrun, hτ, hcovers⟩ := ht
  obtain ⟨hkept, hconfig, hinit⟩ := Driver.step_kept hcom K hrun (hτ.honest hC) hτ.bracketed
    hτ.headsUpTo hd.kept
  unfold Driver.step at hrun
  obtain ⟨τ₁, ⟨d₂, t₂⟩, τ₂, rfl, hpoll, hend⟩ := runsOn_bind_iff.mp hrun
  rw [runsOn_pure_iff, Prod.mk.injEq] at hend
  obtain ⟨rfl, rfl, rfl⟩ := hend
  rw [List.append_nil] at hτ hcovers
  have hgood := Driver.catchCaller_good K hd.kept
  obtain ⟨sink, c, s, n, heq⟩ := Driver.catchCaller_eq K d
  obtain ⟨sink', c', s', n', heq'⟩ := Driver.catchCaller_eq K (d₂.settle t)
  set d₁ := d.catchCaller K with hd₁
  have hengine : d₁.engine = d.engine := by rw [heq]
  have hstart : d₁.config = d.config := by rw [heq]
  have hinit₁ : d₁.initial = d.initial := by rw [heq]
  have hactive₁ : d₁.engine.status = .active := hengine ▸ hd.active
  -- the marks and the flag that the next tick will find
  have hnext : d₂.engine.status = .active →
      ((d₂.settle t).catchCaller K).toDo C =
        ((above C d.config.startBlock d₂.engine.cursor C.headNumber).length * 2 +
          (if d₂.durabilityLost then 0 else 1)) * (C.headNumber + 2) +
            Driver.toWalk C d₂.walked := by
    intro hactive
    have hleft : (d₂.settle t).leftAt = some (d₂.settle t).enginePoint := by
      show (if d₂.engine.status.isActive then some d₂.enginePoint else none) = some d₂.enginePoint
      rw [if_pos (EngineStatus.isActive_iff.mpr hactive)]
    have hstart₂ : (d₂.settle t).config.startBlock = d.config.startBlock := by rw [hconfig]
    rw [heq', if_pos hleft, Driver.toDo, hstart₂]
    rfl
  have hfirst : d₁.toDo C = ((above C d.config.startBlock d.engine.cursor C.headNumber).length * 2 +
      (if d₁.durabilityLost then 0 else 1)) * (C.headNumber + 2) +
        Driver.toWalk C d₁.walked := by
    rw [Driver.toDo, hstart, hengine]
  cases Driver.pollApply_polled hcom hC K hpoll hτ hgood hactive₁ hgood.cursor_top with
  | lagging w mark behind on engine caughtUp tick =>
      exact absurd (hgood.walked_top w mark) (not_le.mpr behind)
  | idle mark on covered engine caughtUp tick =>
      rcases tick with rfl | ⟨htick, hlost, hlost'⟩
      · refine Or.inl ⟨rfl, ?_⟩
        have hfull := (hgood.sound.caughtUpOn hcom hC hactive₁ on covered).fold
        rw [hstart, hinit₁] at hfull
        exact engine.fold.trans hfull
      · have hactive₂ := engine.status.trans hactive₁
        refine Or.inr ⟨htick, ⟨hkept, hactive₂⟩, ?_, hconfig, hinit, fun _ => ?_⟩
        · show ∀ b ∈ d₂.engine.observed, C.Has b
          rw [engine.observed]
          exact on
        · rw [hnext hactive₂, hfirst, engine.cursor, hengine, hlost, hlost']
          have := Driver.toWalk_le C d₂.walked
          exact Driver.mul_add_lt (by simp) (by omega)
  | capped a mark on engine caughtUp walked has past lost tick =>
      have hactive₂ := engine.status.trans hactive₁
      refine Or.inr ⟨tick, ⟨hkept, hactive₂⟩, ?_, hconfig, hinit, fun _ => ?_⟩
      · show ∀ b ∈ d₂.engine.observed, C.Has b
        rw [engine.observed]
        exact on
      · rw [hnext hactive₂, hfirst, engine.cursor, hengine, walked]
        have hwalk : Driver.toWalk C (some a) < Driver.toWalk C d₁.walked := by
          have hle := has.le
          cases hw : d₁.walked with
          | none =>
              simp only [Driver.toWalk, if_pos has]
              omega
          | some w =>
              simp only [Driver.toWalk, if_pos has]
              split_ifs with hCw
              · have := past w hw hCw
                omega
              · omega
        have hflag : (if d₂.durabilityLost then 0 else 1) ≤ if d₁.durabilityLost then 0 else 1 := by
          cases hl : d₁.durabilityLost with
          | true => simp [lost hl]
          | false => cases d₂.durabilityLost <;> simp
        have hmul := Nat.mul_le_mul_right (C.headNumber + 2) (Nat.add_le_add_left hflag
          ((above C d.config.startBlock d.engine.cursor C.headNumber).length * 2))
        omega
  | folded mark on status le more caughtUp tick =>
      refine Or.inr ⟨tick, ⟨hkept, status⟩, on, hconfig, hinit, fun _ => ?_⟩
      rw [hstart, hengine] at more
      rw [hengine] at le
      rw [hnext status, hfirst]
      have hlen := Driver.length_above_lt le more
      have := Driver.toWalk_le C d₂.walked
      refine Driver.mul_add_lt ?_ (by omega)
      split_ifs <;> omega
  | stopped mark status n le on failed =>
      refine absurd ?_ failed
      rw [hstart, hengine] at *
      exact hA.consume hcom hC hd.kept.sound hd.active on le
  | recovered off ends =>
      cases ends with
      | on status on caughtUp tick =>
          refine Or.inr ⟨tick, ⟨hkept, status⟩, on, hconfig, hinit, fun hon => ?_⟩
          obtain ⟨b, hb, hoff⟩ := off
          rw [hengine] at hb
          exact absurd (hon b hb) hoff
      | beyond status horizon beyond told =>
          obtain ⟨x, hx, htold⟩ := told
          rw [hstart] at beyond
          exact absurd (hcovers x hx horizon htold) (not_le.mpr beyond)

/-- On the chain the measure bounds the ticks to an idle one. -/
theorem Ready.idleWithin (hcom : Committed chains) (hC : C ∈ chains) (K : Sink κ σ) :
    ∀ (n : ℕ) {d : Driver σ κ}, Unhalted A C d.config.startBlock d.initial →
      Ready A chains C d → (∀ b ∈ d.engine.observed, C.Has b) → (d.catchCaller K).toDo C < n →
      IdleWithin A K C d.config.startBlock d.initial n d
  | 0, _, _, _, _, hlt => absurd hlt (Nat.not_lt_zero _)
  | n + 1, d, hA, hd, hon, hlt => by
      refine ⟨exists_tickOn A K C d, ?_⟩
      intro d' t ht
      rcases hd.tick hcom hC K hA ht with hidle | ⟨htick, hd', hon', hconfig, hinit, hless⟩
      · exact Or.inl hidle
      · have hrest := Ready.idleWithin hcom hC K n (d := d') (by rwa [hconfig, hinit]) hd' hon'
          (lt_of_lt_of_le (hless hon) (Nat.le_of_lt_succ hlt))
        rw [hconfig, hinit] at hrest
        exact Or.inr ⟨htick, hrest⟩

/-- A driver that is ready gets to an idle tick. -/
theorem Ready.exists_idleWithin (hcom : Committed chains) (hC : C ∈ chains) (K : Sink κ σ)
    {d : Driver σ κ} (hd : Ready A chains C d) (hA : Unhalted A C d.config.startBlock d.initial) :
    ∃ n, IdleWithin A K C d.config.startBlock d.initial n d := by
  -- the first tick may be a recovery; the ticks after it have at most a full measure to do
  refine ⟨((C.eventsIn d.config.startBlock C.headNumber).length * 2 + 2) * (C.headNumber + 2) + 1,
    exists_tickOn A K C d, ?_⟩
  intro d' t ht
  rcases hd.tick hcom hC K hA ht with hidle | ⟨htick, hd', hon, hconfig, hinit, -⟩
  · exact Or.inl hidle
  · refine Or.inr ⟨htick, ?_⟩
    rw [← hconfig, ← hinit]
    refine hd'.idleWithin hcom hC K _ (by rwa [hconfig, hinit]) hon ?_
    have hlen : (above C (d'.catchCaller K).config.startBlock (d'.catchCaller K).engine.cursor
        C.headNumber).length ≤ (C.eventsIn d'.config.startBlock C.headNumber).length := by
      obtain ⟨sink, c, s, n, heq⟩ := Driver.catchCaller_eq K d'
      rw [heq]
      exact List.length_filter_le _ _
    have hwalk := Driver.toWalk_le C (d'.catchCaller K).walked
    unfold Driver.toDo
    have hflag : (if (d'.catchCaller K).durabilityLost then 0 else 1) ≤ 1 := by
      split_ifs <;> omega
    have hmul := Driver.mul_add_lt (k := C.headNumber + 2) (m := 0) (show
      (above C (d'.catchCaller K).config.startBlock (d'.catchCaller K).engine.cursor
        C.headNumber).length * 2 + (if (d'.catchCaller K).durabilityLost then 0 else 1) <
      (C.eventsIn d'.config.startBlock C.headNumber).length * 2 + 2 by omega)
      (show Driver.toWalk C (d'.catchCaller K).walked < C.headNumber + 2 by omega)
    exact hmul

end Step

/-- **The driver converges** once the source settles on a chain. -/
theorem Reached.converges {A : Fold σ E ε} {K : Sink κ σ} {chains : Set (Chain E)}
    (hcom : Committed chains) {C : Chain E} (hC : C ∈ chains) {fold : σ} {config : DriverConfig}
    {d : Driver σ κ}
    (h : Reached A K chains (fun τ => Bracketed τ ∧ HeadsUpTo C.headNumber τ) fold config d)
    (hactive : d.engine.status = .active) (hA : Unhalted A C config.startBlock fold) :
    ∃ n, IdleWithin A K C config.startBlock fold n d := by
  obtain ⟨hkept, rfl, rfl⟩ := h.kept hcom fun _ _ hrule => hrule
  exact Ready.exists_idleWithin hcom hC K ⟨hkept, hactive⟩ hA

/-! ### A driver that converges, and one that does not -/

/-- A scripted tick against one chain. -/
theorem tickOn_scripted {A : Fold σ E ε} {K : Sink κ σ} {C : Chain E} {w n : ℕ}
    {d : Driver σ κ} {t : Tick} (h : d.tickOn A K w (List.replicate n (true, C)) = some t) :
    TickOn A K C d (d.ticked A K w (List.replicate n (true, C))) t :=
  ⟨_, (runsOn_scripted .genesis w (scripted_step h)).1,
    answeredBy_scripted .genesis w (scripted_step h), covers_of_reply fun x hx => by
      obtain ⟨s, -, hs⟩ := scripted_answer .genesis w (scripted_step h) x hx
      exact ⟨s, hs⟩⟩

theorem headsUpTo_of_le {C : Chain E} {τ : Trace E} {top : ℕ} (hle : C.headNumber ≤ top)
    (h : ∀ x ∈ τ, x.2.headNumber ≤ C.headNumber ∧ Truthful x.2 x.1) : HeadsUpTo top τ := by
  rintro ⟨x, D⟩ hx head rfl
  obtain ⟨hD, htrue⟩ := h _ hx
  rw [htrue head rfl]
  exact hD.trans hle

theorem sumFold_unhalted (C : Chain ℕ) (start : ℕ) (init : UInt64) :
    Unhalted sumFold C start init := by
  intro pre x post _ err herr
  cases herr

/-- The driver after a tick on the short chain. -/
def sampleEarly : Driver UInt64 Unit :=
  sampleDriver.ticked sumFold noSink 1 (List.replicate 8 (true, shortChain))

theorem sampleEarly_converges :
    sampleEarly.engine.fold = 10 ∧ ∃ n, IdleWithin sumFold noSink longChain 0 0 n sampleEarly := by
  have hshort : shortChain ∈ sampleChains := Or.inr (Or.inl rfl)
  refine ⟨by decide +kernel, Reached.converges (d := sampleEarly) (A := sumFold)
    sampleChains_committed (Or.inl rfl)
    ((sampleDriver_reached _).next (Next.ticked (by decide +kernel) ?_ ?_)) (by decide +kernel)
    (sumFold_unhalted _ _ _)⟩
  · intro s hs
    rw [List.eq_of_mem_replicate hs]
    exact hshort
  · intro τ hτ
    have hon : ∀ x ∈ τ, x.2 = shortChain ∧ Truthful shortChain x.1 := by
      intro x hx
      obtain ⟨⟨ok, hmem⟩, htrue⟩ := hτ x hx
      have heq : x.2 = shortChain := congrArg Prod.snd (List.eq_of_mem_replicate hmem)
      exact ⟨heq, heq ▸ htrue⟩
    refine ⟨bracketed_of_eq hon, headsUpTo_of_le (C := shortChain) (by decide) ?_⟩
    intro x hx
    obtain ⟨heq, htrue⟩ := hon x hx
    rw [heq]
    exact ⟨le_rfl, htrue⟩

/-- The head and its header from the long chain, the events between from another one. -/
def crossing : List (Bool × Chain ℕ) :=
  [(true, longChain), (true, longChain), (true, otherChain), (true, longChain)]

/-- The driver after a tick whose reads are not bracketed. -/
def sampleCrossed : Driver UInt64 Unit := sampleDriver.ticked sumFold noSink 1 crossing

/-- Without the bracket the driver settles on events that are on no block of the chain. -/
theorem not_converges : ∃ d : Driver UInt64 Unit,
    Reached sumFold noSink sampleChains (HeadsUpTo longChain.headNumber) 0 ⟨0, some 1, none⟩ d ∧
    d.engine.status = .active ∧ Unhalted sumFold longChain 0 0 ∧
    ¬ ∃ n, IdleWithin sumFold noSink longChain 0 0 n d := by
  refine ⟨sampleCrossed, (sampleDriver_reached _).next (Next.ticked (by decide +kernel) ?_ ?_),
    by decide +kernel, sumFold_unhalted _ _ _, ?_⟩
  · intro s hs
    simp only [crossing, List.mem_cons, List.not_mem_nil, or_false] at hs
    rcases hs with rfl | rfl | rfl | rfl
    · exact Or.inl rfl
    · exact Or.inl rfl
    · exact Or.inr (Or.inr rfl)
    · exact Or.inl rfl
  · intro τ hτ
    refine headsUpTo_of_le (C := longChain) le_rfl ?_
    intro x hx
    obtain ⟨⟨ok, hmem⟩, htrue⟩ := hτ x hx
    have hle : ∀ s ∈ crossing, s.2.headNumber ≤ longChain.headNumber := by decide
    exact ⟨hle _ hmem, htrue⟩
  · rintro ⟨n, hn⟩
    cases n with
    | zero => exact hn
    | succ n =>
        have htick : TickOn sumFold noSink longChain sampleCrossed _ .idle :=
          tickOn_scripted (n := 8) (w := 1) (by decide +kernel)
        rcases hn.2 _ _ htick with ⟨-, hfold⟩ | ⟨hne, -⟩
        · have hgot : (sampleCrossed.ticked sumFold noSink 1
              (List.replicate 8 (true, longChain))).engine.fold = 20 := by decide +kernel
          have hall : foldOver sumFold 0 (longChain.eventsIn 0 longChain.headNumber) = 10 := by
            decide
          rw [hgot, hall] at hfold
          exact absurd hfold (by decide)
        · exact hne rfl

end Works.Chainfold
