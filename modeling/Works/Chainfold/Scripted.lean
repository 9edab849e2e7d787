import Works.Chainfold.Driver
import Works.Chainfold.TestUtil

/-! # Scripted sources

A source that answers each call from the chain a script names for it, or fails, as the
`ScriptedChain` of `test_util.rs` does between reorganisations: what it answers is truthful, and
every program has runs against it.  The chains at the end share some of their blocks. -/

namespace Works.Chainfold

open Works.Lib Prog

variable {E α : Type}

/-- The answers of a source that stands on a chain or fails. -/
def reply (horizon : ReplayHorizon) (window : ℕ) (s : Bool × Chain E) : ∀ q, Answer E q
  | .head => if s.1 then some s.2.head else none
  | .headerAt number => if s.1 then some (s.2.refAt number) else none
  | .eventsIn first last => if s.1 then some (s.2.eventsIn first last) else none
  | .horizon => horizon
  | .window => window

section Reply

variable (horizon : ReplayHorizon) (window : ℕ)

theorem reply_truthful (s : Bool × Chain E) (q : Query) :
    Truthful s.2 ⟨q, reply horizon window s q⟩ := by
  cases q with
  | head =>
      intro head h
      simp only [reply, Option.ite_none_right_eq_some, Option.some.injEq] at h
      exact h.2.symm
  | headerAt number =>
      intro header h
      simp only [reply, Option.ite_none_right_eq_some, Option.some.injEq] at h
      exact h.2.symm
  | eventsIn first last =>
      intro events h
      simp only [reply, Option.ite_none_right_eq_some, Option.some.injEq] at h
      rw [h.2]
  | horizon => trivial
  | window => trivial

theorem reply_answered (C : Chain E) (q : Query) :
    Answered ⟨q, reply horizon window (true, C) q⟩ := by
  cases q <;> simp [Answered, reply]

/-- A trace in which the source stands on one chain and does not fail. -/
theorem answeredBy_of_reply {C : Chain E} {τ : Trace E}
    (h : ∀ x ∈ τ, x.2 = C ∧ x.1.answer = reply horizon window (true, C) x.1.query) :
    AnsweredBy C τ := by
  intro x hx
  obtain ⟨hchain, hanswer⟩ := h x hx
  have heq : x.1 = ⟨x.1.query, reply horizon window (true, C) x.1.query⟩ := by
    rw [← hanswer]
  refine ⟨hchain, ?_, ?_⟩
  · rw [heq]
    exact reply_truthful horizon window (true, C) x.1.query
  · rw [heq]
    exact reply_answered horizon window C x.1.query

/-- **Every program has a run** against a source that stands on one chain. -/
theorem exists_answered (C : Chain E) (p : Ask E α) : ∃ (τ : Trace E) (a : α),
    RunsOn p τ a ∧
      ∀ x ∈ τ, x.2 = C ∧ x.1.answer = reply horizon window (true, C) x.1.query := by
  obtain ⟨l, a, hrun, hall⟩ := exists_runs (reply horizon window (true, C)) p
  refine ⟨l.map fun x => (x, C), a, hrun.on C, ?_⟩
  intro x hx
  obtain ⟨y, hy, rfl⟩ := List.mem_map.mp hx
  exact ⟨rfl, hall y hy⟩

/-- Plays a program against a script: the trace, and the result unless the script runs out. -/
def scripted (script : List (Bool × Chain E)) (p : Ask E α) : Trace E × Option α :=
  ((play (reply horizon window) script p).1.map fun y => (y.1, y.2.2),
    (play (reply horizon window) script p).2)

/-- What is played is a run in which every answer comes from a chain of the script. -/
theorem runsOn_scripted {script : List (Bool × Chain E)} {p : Ask E α} {a : α}
    (h : (scripted horizon window script p).2 = some a) :
    RunsOn p (scripted horizon window script p).1 a ∧
      ∀ x ∈ (scripted horizon window script p).1,
        (∃ ok, (ok, x.2) ∈ script ∧ (ok = true → Answered x.1)) ∧ Truthful x.2 x.1 := by
  obtain ⟨hrun, hall⟩ := runs_play (reply horizon window) h
  refine ⟨?_, ?_⟩
  · rw [RunsOn, scripted, List.map_map]
    simpa [RunsOn, Function.comp_def] using hrun
  · intro x hx
    obtain ⟨y, hy, rfl⟩ := List.mem_map.mp hx
    obtain ⟨hmem, hanswer⟩ := hall y hy
    have heq : y.1 = ⟨y.1.query, reply horizon window y.2 y.1.query⟩ := by
      rw [← hanswer]
    refine ⟨⟨y.2.1, hmem, ?_⟩, ?_⟩
    · intro hok
      show Answered y.1
      have hsame : y.2 = (true, y.2.2) := by
        rw [← hok]
      rw [heq, hsame]
      exact reply_answered horizon window y.2.2 y.1.query
    · show Truthful y.2.2 y.1
      rw [heq]
      exact reply_truthful horizon window y.2 y.1.query

/-- Every answer is the script's. -/
theorem scripted_answer {script : List (Bool × Chain E)} {p : Ask E α} {a : α}
    (h : (scripted horizon window script p).2 = some a) :
    ∀ x ∈ (scripted horizon window script p).1, ∃ s ∈ script,
      x.1.answer = reply horizon window s x.1.query := by
  intro x hx
  obtain ⟨y, hy, rfl⟩ := List.mem_map.mp hx
  obtain ⟨hmem, hanswer⟩ := (runs_play (reply horizon window) h).2 y hy
  exact ⟨y.2, hmem, hanswer⟩

/-- A script that stays on one chain and does not fail. -/
theorem answeredBy_scripted {C : Chain E} {n : ℕ} {p : Ask E α} {a : α}
    (h : (scripted horizon window (List.replicate n (true, C)) p).2 = some a) :
    AnsweredBy C (scripted horizon window (List.replicate n (true, C)) p).1 := by
  intro x hx
  obtain ⟨⟨ok, hmem, hans⟩, htrue⟩ := (runsOn_scripted horizon window h).2 x hx
  have heq := List.eq_of_mem_replicate hmem
  rw [Prod.mk.injEq] at heq
  exact ⟨heq.2, heq.2 ▸ htrue, hans heq.1⟩

end Reply

/-! ### Three chains -/

/-- The block of a sample chain with an optional event. -/
def sampleChainBlock (salt : ℕ) (event : Option ℕ) : ChainBlock ℕ :=
  ⟨Vector.replicate 32 (UInt8.ofNat salt), (event.map fun event => (0, event)).toList⟩

theorem sorted_sampleChainBlock (salt : ℕ) (event : Option ℕ) :
    ((sampleChainBlock salt event).events.map (·.1)).Pairwise (· < ·) := by
  cases event with
  | none => exact List.Pairwise.nil
  | some event => exact List.pairwise_singleton _ _

/-- The chain with the given blocks. -/
def sampleChainOf (blocks : List (ℕ × Option ℕ)) (h : blocks ≠ [])
    (hlen : blocks.length ≤ U64_MAX + 1) : Chain ℕ where
  blocks := blocks.map fun b => sampleChainBlock b.1 b.2
  nonempty := by simpa using h
  bounded := by simpa using hlen
  sorted := by
    intro b hb
    obtain ⟨x, -, rfl⟩ := List.mem_map.mp hb
    exact sorted_sampleChainBlock x.1 x.2

/-- Four blocks with an event in the first. -/
def longChain : Chain ℕ :=
  sampleChainOf [(1, some 10), (2, none), (3, none), (4, none)] (by decide) (by decide)

/-- The first block of the long chain, and another second one with an event. -/
def shortChain : Chain ℕ := sampleChainOf [(1, some 10), (5, some 7)] (by decide) (by decide)

/-- Another first block. -/
def otherChain : Chain ℕ := sampleChainOf [(6, some 20), (7, none)] (by decide) (by decide)

/-- The chains of the samples. -/
def sampleChains : Set (Chain ℕ) := {longChain, shortChain, otherChain}

/-- The chains agree below every block they share. -/
def agree (C D : Chain E) : Prop :=
  ∀ n < C.blocks.length, (C.blocks[n]?).map (·.hash) = (D.blocks[n]?).map (·.hash) →
    ∀ m ≤ n, C.blocks[m]? = D.blocks[m]?

theorem committed_of_agree {chains : Set (Chain E)} (h : ∀ C ∈ chains, ∀ D ∈ chains, agree C D) :
    Committed chains := by
  intro C hC D hD b hCb hDb n hn
  have hlt : b.number < C.blocks.length := lt_of_le_of_lt hCb.le Chain.headNumber_lt
  refine h C hC D hD b.number hlt ?_ n hn
  obtain ⟨x, hx, hxb⟩ := Option.map_eq_some_iff.mp hCb
  obtain ⟨y, hy, hyb⟩ := Option.map_eq_some_iff.mp hDb
  rw [hx, hy, Option.map_some, Option.map_some]
  exact congrArg some ((congrArg BlockRef.hash hxb).trans (congrArg BlockRef.hash hyb).symm)

theorem sampleChains_committed : Committed sampleChains := by
  refine committed_of_agree ?_
  intro C hC D hD
  simp only [sampleChains, Set.mem_insert_iff, Set.mem_singleton_iff] at hC hD
  rcases hC with rfl | rfl | rfl <;> rcases hD with rfl | rfl | rfl <;> (unfold agree; decide)

end Works.Chainfold
