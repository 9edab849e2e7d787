import Works.Chainfold.DriverTick
import Works.Chainfold.Scripted

/-! # Runs of the driver

A run starts with a new driver and goes on with ticks, against a source whose chain may change
before any call, and with what the caller may do to the engine in between.  Every driver of a
run is kept, so its fold has seen exactly the events that the cursor covers on the chain of the
newest observed block (`Reached.follows`). -/

namespace Works.Chainfold

open Works.Lib Prog Engine BlockRing

variable {σ E ε κ : Type}

/-- What may happen to a driver: a tick against an honest source whose trace obeys the rule, or
an action of the caller. -/
inductive Next (A : Fold σ E ε) (K : Sink κ σ) (chains : Set (Chain E)) (rule : Trace E → Prop)
    (d : Driver σ κ) : Driver σ κ → Prop
  | tick {d' : Driver σ κ} {t : Tick} {τ : Trace E} (run : RunsOn (d.step A K) τ (d', t))
      (honest : Honest chains τ) (obeys : rule τ) : Next A K chains rule d d'
  | rollback (block : ℕ) : Next A K chains rule d
      { d with engine := (d.engine.rollbackAtOrBelow block).1 }
  | engineCheckpoint : Next A K chains rule d { d with engine := d.engine.checkpoint }
  | checkpoint : Next A K chains rule d d.checkpoint
  | reset : Next A K chains rule d { d with engine := d.engine.reset d.initial }
  | sourceMut : Next A K chains rule d d.sourceMut

/-- The drivers of the runs that start with a new driver around an engine with a fold. -/
def Reached (A : Fold σ E ε) (K : Sink κ σ) (chains : Set (Chain E)) (rule : Trace E → Prop)
    (fold : σ) (config : DriverConfig) (d : Driver σ κ) : Prop :=
  ∃ (sink : κ) (engineConfig : EngineConfig) (τ : Trace E) (d₀ : Driver σ κ),
    RunsOn (Driver.build K fold sink engineConfig config) τ (.ok d₀) ∧
      Relation.ReflTransGen (Next A K chains rule) d₀ d

theorem Reached.next {A : Fold σ E ε} {K : Sink κ σ} {chains : Set (Chain E)}
    {rule : Trace E → Prop} {fold : σ} {config : DriverConfig} {d d' : Driver σ κ}
    (h : Reached A K chains rule fold config d) (hnext : Next A K chains rule d d') :
    Reached A K chains rule fold config d' := by
  obtain ⟨sink, engineConfig, τ, d₀, hbuild, hrun⟩ := h
  exact ⟨sink, engineConfig, τ, d₀, hbuild, hrun.tail hnext⟩

section Run

variable {A : Fold σ E ε} {K : Sink κ σ} {chains : Set (Chain E)} {rule : Trace E → Prop}
  {top : ℕ} {d d' : Driver σ κ}

/-- What the caller does to the engine keeps a driver. -/
theorem Kept.handled (h : Kept A chains top d) {e : Engine σ} (he : Handled d.initial d.engine e)
    (n : Option ℕ) : Kept A chains top { d with engine := e, lastCheckpointBlock := n } where
  sound := he.sound h.sound
  cursor_top := by
    intro p hp
    have hle := he.cursor_le h.sound
    rw [show e.cursor = some p from hp] at hle
    cases hc : d.engine.cursor with
    | none =>
        rw [hc] at hle
        exact absurd hle (by simp)
    | some q =>
        rw [hc, Option.some_le_some] at hle
        exact (Position.block_le hle).trans (h.cursor_top q hc)
  walked_top := h.walked_top
  span := h.span
  marks := by
    intro point hpoint
    obtain ⟨hle, hmarks⟩ := h.marks point hpoint
    have hle' := he.cursor_le h.sound
    refine ⟨hle'.trans hle, ?_⟩
    intro heq
    have hback : e.cursor = point.1 := heq
    have hsame : d.engine.cursor = point.1 := le_antisymm hle (hback ▸ hle')
    have hcur : e.cursor = d.engine.cursor := hback.trans hsame.symm
    have hmarked := hmarks hsame
    show MarksOk chains _ e.cursor e.observed.getLast? _ _
    rw [hcur, he.newest h.sound hcur]
    exact hmarked

/-- A driver around an engine that follows a chain. -/
theorem Kept.around {engine : Engine σ} {sink : κ} {initial : σ} {config : DriverConfig}
    (hs : Sound A chains config.startBlock initial engine)
    (htop : ∀ p, engine.cursor = some p → p.block ≤ top)
    (h : Driver.Around K engine sink initial config d) :
    Kept A chains top d ∧ d.config = config ∧ d.initial = initial := by
  refine ⟨⟨?_, ?_, ?_, ?_, ?_⟩, h.config, h.initial⟩
  · rw [h.config, h.initial]
    exact h.handled.sound hs
  · rw [h.cursor]
    exact htop
  · simp [h.walked]
  · rw [h.span]
    exact ⟨Nat.le_add_left 1 63, le_rfl⟩
  · simp [h.leftAt]

theorem Kept.build {fold : σ} {sink : κ} {engineConfig : EngineConfig} {config : DriverConfig}
    {τ : Trace E} {d₀ : Driver σ κ} (top : ℕ)
    (hrun : RunsOn (Driver.build K fold sink engineConfig config) τ (.ok d₀)) :
    Kept A chains top d₀ ∧ d₀.config = config ∧ d₀.initial = fold := by
  obtain ⟨hpow, h⟩ := Driver.build_spec hrun
  apply Kept.around (Sound.fresh engineConfig hpow) _ h
  rintro p ⟨⟩

variable (hcom : Committed chains)
  (hrule : ∀ τ : Trace E, Honest chains τ → rule τ → Bracketed τ ∧ HeadsUpTo top τ)

include hcom hrule

/-- What happens to a driver keeps it. -/
theorem Kept.next (h : Kept A chains top d) (hnext : Next A K chains rule d d') :
    Kept A chains top d' ∧ d'.config = d.config ∧ d'.initial = d.initial := by
  cases hnext with
  | tick run honest obeys =>
      obtain ⟨hb, htop⟩ := hrule _ honest obeys
      exact Driver.step_kept hcom K run honest hb htop h
  | rollback block => exact ⟨h.handled (.rollback block) _, rfl, rfl⟩
  | engineCheckpoint => exact ⟨h.handled .checkpoint _, rfl, rfl⟩
  | checkpoint => exact ⟨h.handled .checkpoint _, rfl, rfl⟩
  | reset => exact ⟨h.handled .reset _, rfl, rfl⟩
  | sourceMut =>
      refine ⟨⟨h.sound, h.cursor_top, by simp [Driver.sourceMut], h.span, ?_⟩, rfl, rfl⟩
      intro point hpoint
      exact ⟨(h.marks point hpoint).1, fun _ => MarksOk.clear _ _ _ _⟩

/-- **Every driver of a run is kept.** -/
theorem Reached.kept {fold : σ} {config : DriverConfig} (h : Reached A K chains rule fold config d) :
    Kept A chains top d ∧ d.config = config ∧ d.initial = fold := by
  obtain ⟨sink, engineConfig, τ, d₀, hbuild, hrun⟩ := h
  induction hrun with
  | refl => exact Kept.build top hbuild
  | tail _ hnext ih =>
      obtain ⟨hkept, hconfig, hinit⟩ := ih
      obtain ⟨hkept', hconfig', hinit'⟩ := hkept.next hcom hrule hnext
      exact ⟨hkept', hconfig'.trans hconfig, hinit'.trans hinit⟩

end Run

/-! ### The fold follows a chain -/

/-- The fold has seen exactly the events that the cursor covers on the chains through the newest
observed block, in order and once each. -/
structure Follows (A : Fold σ E ε) (chains : Set (Chain E)) (start : ℕ) (init : σ)
    (e : Engine σ) : Prop where
  fresh : e.cursor = none → e.fold = init
  chain : ∀ p, e.cursor = some p → start ≤ p.block ∧ ∃ newest, e.observed.getLast? = some newest ∧
    newest.number = p.block ∧ (∃ C ∈ chains, ∀ b ∈ e.observed, C.Has b) ∧
    ∀ C ∈ chains, C.Has newest → e.fold = foldOver A init (C.upTo start p)

theorem Sound.follows_chain {A : Fold σ E ε} {chains : Set (Chain E)} (hcom : Committed chains)
    {start : ℕ} {init : σ} {e : Engine σ} (h : Sound A chains start init e)
    (hback : e.status = .active ∨ TidyFold A) : Follows A chains start init e where
  fresh := (h.engine hback).fresh
  chain := by
    intro p hp
    have hbacked := h.engine hback
    obtain ⟨newest, hnewest, hnum⟩ := h.ringOk.getLast? hp
    have hmem := List.mem_of_getLast? hnewest
    obtain ⟨hstart, C, hC, hhas, -⟩ := hbacked.chain p hp
    rw [hp] at hbacked
    refine ⟨hstart, newest, hnewest, hnum, ⟨C, hC, ?_⟩, ?_⟩
    · intro b hb
      exact hhas b hb (h.ringOk.number_le hp b hb)
    · intro D hD hDb
      exact (hbacked.on hcom hD hmem hnum hDb).2

theorem bracketed_rule {chains : Set (Chain E)} {τ : Trace E} (hτ : Honest chains τ)
    (hb : Bracketed τ) : Bracketed τ ∧ HeadsUpTo U64_MAX τ := by
  refine ⟨hb, ?_⟩
  rintro ⟨x, C⟩ hx head rfl
  have htrue := (hτ _ hx).2 head rfl
  rw [htrue]
  exact Chain.head_le_max

/-- **The fold of a driver follows a chain**, whatever the source and the caller do. -/
theorem Reached.follows {A : Fold σ E ε} (hA : TidyFold A) {K : Sink κ σ}
    {chains : Set (Chain E)} (hcom : Committed chains) {fold : σ} {config : DriverConfig}
    {d : Driver σ κ} (h : Reached A K chains Bracketed fold config d) :
    Follows A chains config.startBlock fold d.engine := by
  obtain ⟨hkept, rfl, rfl⟩ := h.kept hcom fun τ hτ hb => bracketed_rule hτ hb
  exact hkept.sound.follows_chain hcom (Or.inr hA)

/-! ### A small run -/

/-- The driver that a tick of a scripted source leaves; the same one when the script runs out. -/
def Driver.ticked (A : Fold σ E ε) (K : Sink κ σ) (window : ℕ) (script : List (Bool × Chain E))
    (d : Driver σ κ) : Driver σ κ :=
  ((scripted .genesis window script (d.step A K)).2.map Prod.fst).getD d

/-- The result of a scripted tick. -/
def Driver.tickOn (A : Fold σ E ε) (K : Sink κ σ) (window : ℕ) (script : List (Bool × Chain E))
    (d : Driver σ κ) : Option Tick :=
  (scripted .genesis window script (d.step A K)).2.map Prod.snd

section Scripted

variable {A : Fold σ E ε} {K : Sink κ σ} {window : ℕ} {script : List (Bool × Chain E)}
  {d : Driver σ κ} {t : Tick}

theorem scripted_step (h : d.tickOn A K window script = some t) :
    (scripted .genesis window script (d.step A K)).2 = some (d.ticked A K window script, t) := by
  unfold Driver.tickOn at h
  obtain ⟨⟨d', t'⟩, hrun, rfl⟩ := Option.map_eq_some_iff.mp h
  have hticked : d.ticked A K window script = d' := by
    rw [Driver.ticked, hrun]
    rfl
  rw [hticked, hrun]

/-- A scripted tick may come next. -/
theorem Next.ticked {chains : Set (Chain E)} {rule : Trace E → Prop}
    (h : (d.tickOn A K window script).isSome = true) (hscript : ∀ s ∈ script, s.2 ∈ chains)
    (hrule : ∀ τ : Trace E, (∀ x ∈ τ, (∃ ok, (ok, x.2) ∈ script) ∧ Truthful x.2 x.1) → rule τ) :
    Next A K chains rule d (d.ticked A K window script) := by
  obtain ⟨t, ht⟩ := Option.isSome_iff_exists.mp h
  obtain ⟨hrun, hall⟩ := runsOn_scripted .genesis window (scripted_step ht)
  have hmems : ∀ x ∈ (scripted .genesis window script (d.step A K)).1,
      (∃ ok, (ok, x.2) ∈ script) ∧ Truthful x.2 x.1 := by
    intro x hx
    obtain ⟨⟨ok, hmem, -⟩, htrue⟩ := hall x hx
    exact ⟨⟨ok, hmem⟩, htrue⟩
  refine Next.tick hrun ?_ (hrule _ hmems)
  intro x hx
  obtain ⟨⟨ok, hmem⟩, htrue⟩ := hmems x hx
  exact ⟨hscript _ hmem, htrue⟩

/-- A scripted tick on one chain may come next. -/
theorem Next.tickedOn {chains : Set (Chain E)} {C : Chain E} {ok : Bool} {n : ℕ} (hC : C ∈ chains)
    (h : (d.tickOn A K window (List.replicate n (ok, C))).isSome = true) :
    Next A K chains Bracketed d (d.ticked A K window (List.replicate n (ok, C))) := by
  refine Next.ticked h ?_ ?_
  · intro s hs
    rw [List.eq_of_mem_replicate hs]
    exact hC
  · intro τ hτ
    refine bracketed_of_eq (C := C) ?_
    intro x hx
    obtain ⟨⟨ok', hmem⟩, htrue⟩ := hτ x hx
    have heq : x.2 = C := congrArg Prod.snd (List.eq_of_mem_replicate hmem)
    exact ⟨heq, heq ▸ htrue⟩

end Scripted

/-- A new driver from block 0 on. -/
def sampleDriver : Driver UInt64 Unit :=
  match (scripted (α := Except ConfigError (Driver UInt64 Unit)) (E := ℕ) .genesis 1
    [(true, longChain)] (Driver.build noSink 0 () sampleConfig ⟨0, some 1, none⟩)).2 with
  | some (.ok d) => d
  | _ => ⟨Engine.fresh 0 sampleConfig sampleConfig_ringCapacity, (), ⟨0, none, none⟩, 0, 0,
      false, 0, none, none, 0, false, false, 0, none, none, none⟩

/-- The driver after a tick on the long chain and two on the other one. -/
def sampleFollower : Driver UInt64 Unit :=
  ((sampleDriver.ticked sumFold noSink 1 (List.replicate 8 (true, longChain))).ticked sumFold noSink
    1 (List.replicate 12 (true, otherChain))).ticked sumFold noSink 1
      (List.replicate 8 (true, otherChain))

theorem sampleDriver_reached (rule : Trace ℕ → Prop) :
    Reached sumFold noSink sampleChains rule 0 ⟨0, some 1, none⟩ sampleDriver := by
  have hbuild : (scripted (E := ℕ) .genesis 1 [(true, longChain)]
      (Driver.build noSink 0 () sampleConfig ⟨0, some 1, none⟩)).2 = some (.ok sampleDriver) := rfl
  exact ⟨(), sampleConfig, _, sampleDriver, (runsOn_scripted .genesis 1 hbuild).1, .refl⟩

theorem sampleFollower_reached :
    Reached sumFold noSink sampleChains Bracketed 0 ⟨0, some 1, none⟩ sampleFollower := by
  have hlong : longChain ∈ sampleChains := Or.inl rfl
  have hother : otherChain ∈ sampleChains := Or.inr (Or.inr rfl)
  exact (((sampleDriver_reached Bracketed).next (Next.tickedOn hlong rfl)).next
    (Next.tickedOn hother rfl)).next (Next.tickedOn hother rfl)

theorem sumFold_tidy : TidyFold sumFold where
  skip h := by cases h
  halt h := by cases h
  poison _ _ _ _ h := by cases h

theorem sampleFollower_follows : sampleFollower.engine.fold = 20 ∧
    Follows sumFold sampleChains 0 0 sampleFollower.engine :=
  ⟨rfl, sampleFollower_reached.follows sumFold_tidy sampleChains_committed⟩

end Works.Chainfold
