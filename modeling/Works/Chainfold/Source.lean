import Works.Lib.Prog
import Works.Chainfold.EngineSpec

/-! # Sources

`Source` of `source.rs` as the queries a driver asks, and the chains an honest source answers
from.  A chain has a block for every number up to its head.  Block hashes commit to ancestry
when two chains that share a block share everything below it (`Committed`).  A trace is the
transcript of a tick with the chain behind each answer: the chain may be another one at every
call, but between two answers of a tick that show the same block only chains with that block
stand (`Bracketed`). -/

namespace Works.Chainfold

open Works.Lib

variable {E : Type}

/-- `ReplayHorizon`. -/
inductive ReplayHorizon where
  | genesis
  | fromBlock (number : ℕ)
deriving DecidableEq, Repr

/-- The methods of `Source`. -/
inductive Query where
  | head
  | headerAt (number : ℕ)
  | eventsIn (first last : ℕ)
  | horizon
  | window
deriving DecidableEq, Repr

/-- What a method returns; `none` is an error of the source. -/
abbrev Answer (E : Type) : Query → Type
  | .head => Option BlockRef
  | .headerAt _ => Option (Option BlockRef)
  | .eventsIn _ _ => Option (List (ChainEvent E))
  | .horizon => ReplayHorizon
  | .window => ℕ

/-- Programs that call a source. -/
abbrev Ask (E α : Type) := Prog Query (Answer E) α

namespace Ask

/-- `Source::head`. -/
abbrev head : Ask E (Option BlockRef) := Prog.query Query.head

/-- `Source::header_at`. -/
abbrev headerAt (number : ℕ) : Ask E (Option (Option BlockRef)) := Prog.query (Query.headerAt number)

/-- `Source::events_in`. -/
abbrev eventsIn (first last : ℕ) : Ask E (Option (List (ChainEvent E))) :=
  Prog.query (Query.eventsIn first last)

/-- `Source::horizon`. -/
abbrev horizon : Ask E ReplayHorizon := Prog.query Query.horizon

/-- `Source::window`. -/
abbrev window : Ask E ℕ := Prog.query Query.window

end Ask

/-! ### Chains -/

/-- A block of a chain: its hash and its events. -/
structure ChainBlock (E : Type) where
  hash : Hash
  events : List (ℕ × E)
deriving DecidableEq

/-- A chain from block 0 to its head. -/
structure Chain (E : Type) where
  blocks : List (ChainBlock E)
  nonempty : blocks ≠ []
  bounded : blocks.length ≤ U64_MAX + 1
  sorted : ∀ b ∈ blocks, (b.events.map (·.1)).Pairwise (· < ·)

namespace Chain

variable (C : Chain E)

/-- The number of the head. -/
def headNumber : ℕ := C.blocks.length - 1

/-- The block at a height, if the chain reaches it. -/
def refAt (n : ℕ) : Option BlockRef := C.blocks[n]?.map fun b => ⟨n, b.hash⟩

/-- The head. -/
def head : BlockRef := ⟨C.headNumber, (C.blocks.getLast C.nonempty).hash⟩

/-- The chain goes through a block. -/
def Has (b : BlockRef) : Prop := C.refAt b.number = some b

/-- The events of one block. -/
def blockEvents (n : ℕ) : List (ChainEvent E) :=
  (C.blocks[n]?.map fun b => b.events.map fun item => ⟨⟨n, b.hash⟩, item.1, item.2⟩).getD []

/-- The events of the blocks `first..=last`, in order. -/
def eventsIn (first last : ℕ) : List (ChainEvent E) :=
  (List.range' first (last + 1 - first)).flatMap C.blockEvents

/-- The hash at a height. -/
def hashAt (n : ℕ) : Hash := (C.blocks[n]?.map (·.hash)).getD (Vector.replicate 32 0)

instance (b : BlockRef) : Decidable (C.Has b) := decEq _ _

variable {C}

theorem headNumber_lt : C.headNumber < C.blocks.length :=
  Nat.sub_lt (List.length_pos_iff.mpr C.nonempty) Nat.one_pos

theorem has_head : C.Has C.head := by
  have hlast : C.blocks[C.headNumber]? = some (C.blocks.getLast C.nonempty) := by
    rw [headNumber, ← List.getLast?_eq_getElem?, List.getLast?_eq_some_getLast C.nonempty]
  show Option.map _ C.blocks[C.headNumber]? = _
  rw [hlast]
  rfl

theorem Has.le {b : BlockRef} (h : C.Has b) : b.number ≤ C.headNumber := by
  have hsome : (C.refAt b.number).isSome := by rw [h]; rfl
  rw [refAt, Option.isSome_map, Option.isSome_iff_exists] at hsome
  obtain ⟨x, hx⟩ := hsome
  have := (List.getElem?_eq_some_iff.mp hx).1
  unfold headNumber
  omega

theorem Has.hashAt {b : BlockRef} (h : C.Has b) : b.hash = C.hashAt b.number := by
  have h : Option.map _ C.blocks[b.number]? = some b := h
  obtain ⟨x, hx, hb⟩ := Option.map_eq_some_iff.mp h
  rw [Chain.hashAt, hx, ← hb]
  rfl

/-- A chain has one block at a height. -/
theorem Has.eq {b b' : BlockRef} (h : C.Has b) (h' : C.Has b') (hn : b.number = b'.number) :
    b = b' := by
  unfold Has at h h'
  rw [hn, h'] at h
  exact (Option.some.inj h).symm

theorem refAt_eq_some_iff {n : ℕ} {b : BlockRef} :
    C.refAt n = some b ↔ C.Has b ∧ b.number = n := by
  constructor
  · intro h
    have hn : b.number = n := by
      obtain ⟨x, -, rfl⟩ := Option.map_eq_some_iff.mp h
      rfl
    exact ⟨by unfold Has; rw [hn]; exact h, hn⟩
  · rintro ⟨h, rfl⟩
    exact h

theorem exists_refAt {n : ℕ} (h : n ≤ C.headNumber) : ∃ b, C.Has b ∧ b.number = n := by
  have hlt : n < C.blocks.length := lt_of_le_of_lt h headNumber_lt
  refine ⟨⟨n, C.blocks[n].hash⟩, ?_, rfl⟩
  show Option.map _ C.blocks[n]? = _
  rw [List.getElem?_eq_getElem hlt]
  rfl

theorem head_le_max : C.headNumber ≤ U64_MAX := by
  have := C.bounded
  unfold headNumber
  omega

/-! ### Events -/

theorem mem_blockEvents {n : ℕ} {x : ChainEvent E} (h : x ∈ C.blockEvents n) :
    x.block.number = n ∧ C.Has x.block := by
  cases hb : C.blocks[n]? with
  | none => simp [blockEvents, hb] at h
  | some b =>
      simp only [blockEvents, hb, Option.map_some, Option.getD_some, List.mem_map] at h
      obtain ⟨item, -, rfl⟩ := h
      refine ⟨rfl, ?_⟩
      show Option.map _ C.blocks[n]? = _
      rw [hb]
      rfl

theorem sorted_blockEvents (n : ℕ) : (C.blockEvents n).Pairwise fun a b => a.pos < b.pos := by
  cases hb : C.blocks[n]? with
  | none => simp [blockEvents, hb]
  | some b =>
      have hs := C.sorted b (List.mem_of_getElem? hb)
      rw [List.pairwise_map] at hs
      simp only [blockEvents, hb, Option.map_some, Option.getD_some, List.pairwise_map]
      exact hs.imp fun h => Or.inr ⟨rfl, h⟩

theorem mem_eventsIn_iff {first last : ℕ} {x : ChainEvent E} :
    x ∈ C.eventsIn first last ↔
      x ∈ C.blockEvents x.block.number ∧ first ≤ x.block.number ∧ x.block.number ≤ last := by
  unfold eventsIn
  rw [List.mem_flatMap]
  constructor
  · rintro ⟨n, hn, hx⟩
    rw [List.mem_range'_1] at hn
    obtain ⟨rfl, -⟩ := mem_blockEvents hx
    exact ⟨hx, hn.1, by omega⟩
  · rintro ⟨hx, h1, h2⟩
    exact ⟨x.block.number, List.mem_range'_1.mpr ⟨h1, by omega⟩, hx⟩

theorem sorted_eventsIn (first last : ℕ) :
    (C.eventsIn first last).Pairwise fun a b => a.pos < b.pos := by
  unfold eventsIn
  rw [List.pairwise_flatMap]
  refine ⟨fun n _ => sorted_blockEvents n, ?_⟩
  refine List.Pairwise.imp ?_ (List.pairwise_lt_range' 1)
  intro m n hmn x hx y hy
  refine Or.inl ?_
  show x.block.number < y.block.number
  rw [(mem_blockEvents hx).1, (mem_blockEvents hy).1]
  exact hmn

/-- A range splits. -/
theorem eventsIn_append {first mid last : ℕ} (h₁ : first ≤ mid + 1) (h₂ : mid ≤ last) :
    C.eventsIn first last = C.eventsIn first mid ++ C.eventsIn (mid + 1) last := by
  unfold eventsIn
  rw [← List.flatMap_append]
  congr 1
  have hsplit : last + 1 - first = (mid + 1 - first) + (last + 1 - (mid + 1)) := by omega
  rw [hsplit, ← List.range'_append_1]
  congr 2
  omega

end Chain

/-- Block hashes commit to ancestry: chains with a common block agree up to it. -/
def Committed (chains : Set (Chain E)) : Prop :=
  ∀ C ∈ chains, ∀ D ∈ chains, ∀ b : BlockRef, C.Has b → D.Has b →
    ∀ n ≤ b.number, C.blocks[n]? = D.blocks[n]?

section Committed

variable {chains : Set (Chain E)} (h : Committed chains) {C D : Chain E}

include h

theorem Committed.has (hC : C ∈ chains) (hD : D ∈ chains) {b : BlockRef} (hCb : C.Has b)
    (hDb : D.Has b) {a : BlockRef} (ha : C.Has a) (hle : a.number ≤ b.number) : D.Has a := by
  have := h C hC D hD b hCb hDb a.number hle
  unfold Chain.Has Chain.refAt at ha ⊢
  rw [← this]
  exact ha

theorem Committed.eventsIn (hC : C ∈ chains) (hD : D ∈ chains) {b : BlockRef} (hCb : C.Has b)
    (hDb : D.Has b) {last : ℕ} (hle : last ≤ b.number) (first : ℕ) :
    C.eventsIn first last = D.eventsIn first last := by
  unfold Chain.eventsIn
  refine List.flatMap_congr ?_
  intro n hn
  rw [List.mem_range'_1] at hn
  unfold Chain.blockEvents
  rw [h C hC D hD b hCb hDb n (by omega)]

end Committed

/-! ### Answers -/

/-- The answer is an error, or what the chain says. -/
def Truthful (C : Chain E) : Exchange (Answer E) → Prop
  | ⟨.head, r⟩ => ∀ head, r = some head → head = C.head
  | ⟨.headerAt number, r⟩ => ∀ header, r = some header → header = C.refAt number
  | ⟨.eventsIn first last, r⟩ => ∀ events, r = some events → events.Perm (C.eventsIn first last)
  | ⟨.horizon, _⟩ => True
  | ⟨.window, _⟩ => True

/-- The source did not fail. -/
def Answered : Exchange (Answer E) → Prop
  | ⟨.head, r⟩ => r ≠ none
  | ⟨.headerAt _, r⟩ => r ≠ none
  | ⟨.eventsIn _ _, r⟩ => r ≠ none
  | ⟨.horizon, _⟩ => True
  | ⟨.window, _⟩ => True

/-- The answer shows the block. -/
def Sees (b : BlockRef) : Exchange (Answer E) → Prop
  | ⟨.head, r⟩ => r = some b
  | ⟨.headerAt _, r⟩ => r = some (some b)
  | ⟨.eventsIn _ _, r⟩ => ∃ events, r = some events ∧ ∃ x ∈ events, x.block = b
  | ⟨.horizon, _⟩ => False
  | ⟨.window, _⟩ => False

/-- A transcript with the chain behind each answer. -/
abbrev Trace (E : Type) := List (Exchange (Answer E) × Chain E)

/-- Every answer is a failure or what a chain of the run says at that moment. -/
def Honest (chains : Set (Chain E)) (τ : Trace E) : Prop :=
  ∀ x ∈ τ, x.2 ∈ chains ∧ Truthful x.2 x.1

/-- Between two answers that show a block, every answer comes from a chain with that block. -/
def Bracketed (τ : Trace E) : Prop :=
  ∀ (pre : Trace E) x (mid : Trace E) y (post : Trace E) (b : BlockRef),
    τ = pre ++ x :: (mid ++ y :: post) → Sees b x.1 → Sees b y.1 → ∀ z ∈ mid, z.2.Has b

/-- Every answer comes from one chain and none is a failure. -/
def AnsweredBy (C : Chain E) (τ : Trace E) : Prop :=
  ∀ x ∈ τ, x.2 = C ∧ Truthful C x.1 ∧ Answered x.1

theorem Honest.append {chains : Set (Chain E)} {τ₁ τ₂ : Trace E} :
    Honest chains (τ₁ ++ τ₂) ↔ Honest chains τ₁ ∧ Honest chains τ₂ := by
  unfold Honest
  rw [List.forall_mem_append]

theorem Bracketed.left {τ₁ τ₂ : Trace E} (h : Bracketed (τ₁ ++ τ₂)) : Bracketed τ₁ := by
  intro pre x mid y post b hτ hx hy z hz
  refine h pre x mid y (post ++ τ₂) b ?_ hx hy z hz
  rw [hτ]
  simp

/-- A trace on one chain is bracketed, failures or not. -/
theorem bracketed_of_eq {C : Chain E} {τ : Trace E} (h : ∀ x ∈ τ, x.2 = C ∧ Truthful C x.1) :
    Bracketed τ := by
  intro pre x mid y post b hτ hx _ z hz
  have hmx : x ∈ τ := by simp [hτ]
  have hmz : z ∈ τ := by simp [hτ, hz]
  rw [(h z hmz).1]
  obtain ⟨⟨q, r⟩, D⟩ := x
  have htrue := (h _ hmx).2
  cases q with
  | head =>
      rw [htrue b hx]
      exact Chain.has_head
  | headerAt number => exact (Chain.refAt_eq_some_iff.mp (htrue _ hx).symm).1
  | eventsIn first last =>
      obtain ⟨events, hr, y, hy, rfl⟩ := hx
      have := (htrue events hr).subset hy
      exact (Chain.mem_blockEvents (Chain.mem_eventsIn_iff.mp this).1).2
  | horizon => exact hx.elim
  | window => exact hx.elim

theorem AnsweredBy.bracketed {C : Chain E} {τ : Trace E} (h : AnsweredBy C τ) : Bracketed τ :=
  bracketed_of_eq fun x hx => ⟨(h x hx).1, (h x hx).2.1⟩

end Works.Chainfold
