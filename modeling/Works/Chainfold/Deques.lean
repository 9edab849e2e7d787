import Works.Lib.BoundedDeque
import Works.Chainfold.EngineSpec

/-! # The rings as deques

Over any run of its operations from the empty ring on, the ring of blocks holds what a bounded
deque holds after the same operations, and its searches are linear searches in it
(`ring_refines_deque`).  The ring of checkpoints does so as well when the cursors that are
stored do not fall behind the ones retained, and it writes over a slot only when every place
is taken (`checkpoints_refine_deque`). -/

namespace Works.Chainfold

open Works.Lib

/-! ### The ring of blocks -/

/-- A ring of blocks and a deque after the same operations.  A block that is pushed stands
above the newest one. -/
inductive RingRun {cap : ℕ} (hcap : cap.isPowerOfTwo) :
    BlockRing → BoundedDeque BlockRef cap → Prop
  | new : RingRun hcap (.withCapacity cap hcap) .empty
  | push {r : BlockRing} {d : BoundedDeque BlockRef cap} (run : RingRun hcap r d) (b : BlockRef)
      (above : ∀ n, r.newestNumber = some n → n < b.number) : RingRun hcap (r.push b) (d.push b)
  | truncateAbove {r : BlockRing} {d : BoundedDeque BlockRef cap} (run : RingRun hcap r d)
      (n : ℕ) : RingRun hcap (r.truncateAbove n) (d.keep fun b => decide (b.number ≤ n))
  | clear {r : BlockRing} {d : BoundedDeque BlockRef cap} (run : RingRun hcap r d) :
      RingRun hcap r.clear .empty

namespace RingRun

variable {cap : ℕ} {hcap : cap.isPowerOfTwo} {r : BlockRing} {d : BoundedDeque BlockRef cap}

theorem capacity_eq (h : RingRun hcap r d) : r.capacity = cap := by
  induction h with
  | new => exact BlockRing.capacity_withCapacity cap hcap
  | push _ b _ ih => rw [BlockRing.capacity_push, ih]
  | truncateAbove _ n ih => rw [BlockRing.capacity_truncateAbove, ih]
  | clear _ ih => rw [BlockRing.capacity_clear, ih]

/-- What stands above the newest block stands above all. -/
theorem number_lt {r : BlockRing} (h : BlockRing.Ascending r.iter) {b : BlockRef}
    (above : ∀ n, r.newestNumber = some n → n < b.number) : ∀ c ∈ r.iter, c.number < b.number := by
  intro c hc
  rw [BlockRing.newestNumber_eq] at above
  cases hlast : r.iter.getLast? with
  | none =>
      rw [List.getLast?_eq_none_iff] at hlast
      simp [hlast] at hc
  | some last =>
      have hle := Engine.number_le_of_getLast? h hlast c hc
      exact hle.trans_lt (above _ (by rw [hlast]; rfl))

/-- The two hold the same blocks, which ascend. -/
theorem iter_eq (h : RingRun hcap r d) : r.iter = d.items ∧ BlockRing.Ascending r.iter := by
  induction h with
  | new => exact ⟨BlockRing.iter_withCapacity cap hcap, List.Pairwise.nil⟩
  | @push r d run b above ih =>
      obtain ⟨heq, hasc⟩ := ih
      have hpush : (r.push b).iter = (d.push b).items := by
        rw [BlockRing.iter_push, capacity_eq run, heq, BlockRing.pushed, BoundedDeque.push]
        dsimp only
        by_cases hlt : d.items.length < cap
        · rw [if_pos hlt, if_pos hlt]
        · have hpos : 0 < cap := Nat.pos_of_isPowerOfTwo hcap
          have hne : d.items ≠ [] := List.ne_nil_of_length_pos (by omega)
          rw [if_neg hlt, if_neg hlt, List.tail_append_of_ne_nil hne]
      refine ⟨hpush, ?_⟩
      rw [hpush]
      apply BoundedDeque.pairwise_push
      · rwa [← heq]
      · rw [← heq]
        exact number_lt hasc above
  | truncateAbove run n ih =>
      obtain ⟨heq, hasc⟩ := ih
      rw [BlockRing.iter_truncateAbove hasc, heq, BoundedDeque.items_keep]
      refine ⟨rfl, ?_⟩
      rw [← heq]
      exact hasc.filter _
  | clear _ _ => exact ⟨BlockRing.iter_clear _, List.Pairwise.nil⟩

end RingRun

/-- **The ring of blocks is a bounded deque** in which numbers are looked up one by one. -/
theorem ring_refines_deque {cap : ℕ} {hcap : cap.isPowerOfTwo} {r : BlockRing}
    {d : BoundedDeque BlockRef cap} (h : RingRun hcap r d) :
    r.iter = d.items ∧ ∀ n,
      r.hashAt n = (d.items.find? fun b => decide (b.number = n)).map (·.hash) ∧
      r.observes n = d.items.any (fun b => decide (b.number = n)) ∧
      (r.truncateAbove n).iter = d.items.filter (fun b => decide (b.number ≤ n)) ∧
      r.iterAtOrBelow n = d.items.filter fun b => decide (b.number ≤ n) := by
  obtain ⟨heq, hasc⟩ := h.iter_eq
  refine ⟨heq, fun n => ?_⟩
  rw [BlockRing.hashAt_eq hasc, BlockRing.iter_truncateAbove hasc, BlockRing.iterAtOrBelow_eq hasc,
    heq]
  refine ⟨rfl, ?_, rfl, rfl⟩
  rw [Bool.eq_iff_iff, BlockRing.observes_iff hasc, heq, List.any_eq_true]
  simp only [decide_eq_true_eq]

/-- The block of a height, with its hash. -/
def heightBlock (n : ℕ) : BlockRef := ⟨n, Vector.replicate 32 (UInt8.ofNat n)⟩

/-- A ring of two blocks that three were pushed to, with gaps. -/
def gappedRing : BlockRing :=
  (((BlockRing.withCapacity 2 ⟨1, rfl⟩).push (heightBlock 0)).push (heightBlock 5)).push
    (heightBlock U64_MAX)

theorem gappedRing_searched : gappedRing.hashAt 5 = some (heightBlock 5).hash ∧
    gappedRing.hashAt 0 = none ∧ gappedRing.iterAtOrBelow 7 = [heightBlock 5] := by
  have run : RingRun ⟨1, rfl⟩ gappedRing (((BoundedDeque.empty.push (heightBlock 0)).push
      (heightBlock 5)).push (heightBlock U64_MAX)) := by
    apply RingRun.push
    · apply RingRun.push
      · exact RingRun.push RingRun.new _ (by decide)
      · decide
    · decide
  have hspec := (ring_refines_deque run).2
  refine ⟨?_, ?_, ?_⟩
  · rw [(hspec 5).1]
    decide
  · rw [(hspec 0).1]
    decide
  · rw [(hspec 7).2.2.2]
    decide

/-! ### The ring of checkpoints -/

variable {σ : Type}

/-- A ring of checkpoints and a deque after the same operations.  A cursor that is stored is not
behind a cursor that is retained. -/
inductive CheckpointRun (K : ℕ) : CheckpointRing σ → BoundedDeque (Slot σ) K → Prop
  | new : CheckpointRun K (.new K) .empty
  | store {r : CheckpointRing σ} {d : BoundedDeque (Slot σ) K} (run : CheckpointRun K r d)
      (s : Slot σ) (ahead : ∀ t, some t ∈ r.slots → t.cursor ≤ s.cursor) :
      CheckpointRun K (r.store s) (d.push s)
  | dropNewer {r : CheckpointRing σ} {d : BoundedDeque (Slot σ) K} (run : CheckpointRun K r d)
      (c : Cursor) : CheckpointRun K (r.dropNewer c) (d.keep fun s => decide (s.cursor ≤ c))
  | clear {r : CheckpointRing σ} {d : BoundedDeque (Slot σ) K} (run : CheckpointRun K r d) :
      CheckpointRun K r.clear .empty

/-- The ring retains the slots of a list and visits the live ones in its order. -/
structure Retains (r : CheckpointRing σ) (l : List (Slot σ)) : Prop where
  slots : (r.slots.filterMap id).Perm l
  oldestFirst : ∀ ring, r.oldestFirst ring = l.filter fun slot => live slot ring

theorem retains_stored (r : CheckpointRing σ) : Retains r r.stored where
  slots := ((List.rotate_perm r.slots r.next).filterMap id).symm
  oldestFirst := r.oldestFirst_eq

namespace CheckpointRun

variable {K : ℕ} {r : CheckpointRing σ} {d : BoundedDeque (Slot σ) K}

theorem length_slots (h : CheckpointRun K r d) : r.slots.length = K := by
  induction h with
  | new => exact List.length_replicate
  | store _ s _ ih => rw [CheckpointRing.length_slots_store, ih]
  | dropNewer _ c ih => rw [CheckpointRing.length_slots_dropNewer, ih]
  | clear _ ih => rw [CheckpointRing.clear, List.length_map, ih]

/-- The two hold the same slots, along which the cursors do not decrease, and the empty places
come first from the write position on. -/
theorem stored_eq (h : CheckpointRun K r d) : r.stored = d.items ∧ r.Packed ∧
    r.stored.Pairwise fun a b => a.cursor ≤ b.cursor := by
  induction h with
  | new => exact ⟨CheckpointRing.stored_new K, CheckpointRing.packed_new K, by simp⟩
  | @store r d run s ahead ih =>
      obtain ⟨heq, hpacked, hsorted⟩ := ih
      have hle : ∀ t ∈ r.stored, t.cursor ≤ s.cursor :=
        fun t ht => ahead t (CheckpointRing.mem_stored_iff.mp ht)
      have hdeque : (d.push s).items.Pairwise fun a b => a.cursor ≤ b.cursor := by
        rw [heq] at hsorted hle
        exact BoundedDeque.pairwise_push hsorted hle
      by_cases hnone : r.slots = []
      · have hK : K = 0 := by rw [← length_slots run, hnone, List.length_nil]
        subst hK
        have hempty : (d.push s).items = [] :=
          List.length_eq_zero_iff.mp (Nat.le_zero.mp (d.push s).length_le)
        have hstored : r.stored = [] := by rw [CheckpointRing.stored, hnone]; rfl
        rw [CheckpointRing.store_of_no_slots hnone, hempty, hstored]
        exact ⟨rfl, hpacked, List.Pairwise.nil⟩
      · obtain ⟨hstored, hpacked'⟩ := CheckpointRing.store_spec hpacked hnone s
        have hpush : (r.store s).stored = (d.push s).items := by
          rw [hstored, heq, length_slots run, BoundedDeque.push]
          dsimp only
          by_cases hlt : d.items.length < K
          · rw [if_pos hlt, if_pos hlt]
          · have hpos : K ≠ 0 := by
              rw [← length_slots run]
              exact fun hzero => hnone (List.length_eq_zero_iff.mp hzero)
            have hne : d.items ≠ [] := List.ne_nil_of_length_pos (by omega)
            rw [if_neg hlt, if_neg hlt, List.tail_append_of_ne_nil hne]
        rw [hpush]
        exact ⟨rfl, hpacked', hdeque⟩
  | dropNewer run c ih =>
      obtain ⟨heq, hpacked, hsorted⟩ := ih
      obtain ⟨hstored, hpacked'⟩ := CheckpointRing.dropNewer_spec hpacked hsorted c
      refine ⟨?_, hpacked', ?_⟩
      · rw [hstored, heq, BoundedDeque.items_keep]
        apply List.filter_congr
        intro s _
        rw [CheckpointRing.later, ← decide_not, decide_eq_decide, not_lt]
      · rw [hstored]
        exact hsorted.filter _
  | clear _ _ =>
      exact ⟨CheckpointRing.stored_clear _, CheckpointRing.packed_clear _, by simp⟩

theorem retains (h : CheckpointRun K r d) : Retains r d.items := by
  rw [← h.stored_eq.1]
  exact retains_stored r

/-- While a place is empty, so is the place of the next write. -/
theorem next_empty (h : CheckpointRun K r d) (hnone : none ∈ r.slots) :
    r.slots[r.next]? = some none := by
  obtain ⟨k, hk⟩ := h.stored_eq.2.1
  have hlt : r.next < r.slots.length := r.next_lt (List.ne_nil_of_mem hnone)
  have hpos : k ≠ 0 := by
    rintro rfl
    rw [← List.mem_rotate (n := r.next), hk] at hnone
    simp at hnone
  have hfirst : (r.slots.rotate r.next)[0]? = r.slots[r.next]? := by
    rw [List.getElem?_rotate (by omega), Nat.zero_add, Nat.mod_eq_of_lt hlt]
  obtain ⟨k, rfl⟩ := Nat.exists_eq_succ_of_ne_zero hpos
  rw [← hfirst, hk, List.replicate_succ]
  rfl

end CheckpointRun

/-- **The ring of checkpoints is a bounded deque.**  A store discards a slot only when every
place is taken, and then the oldest; `drop_newer` takes away the slots with a later cursor and
no others, and no write hits a slot while a place is empty. -/
theorem checkpoints_refine_deque {K : ℕ} {r : CheckpointRing σ} {d : BoundedDeque (Slot σ) K}
    (h : CheckpointRun K r d) :
    Retains r d.items ∧ (none ∈ r.slots → r.slots[r.next]? = some none) ∧
      (∀ s : Slot σ, (∀ t, some t ∈ r.slots → t.cursor ≤ s.cursor) →
        (d.items.length < K → Retains (r.store s) (d.items ++ [s])) ∧
        (d.items.length = K → Retains (r.store s) (d.items ++ [s]).tail)) ∧
      ∀ c, Retains (r.dropNewer c) (d.items.filter fun s => decide (s.cursor ≤ c)) := by
  refine ⟨h.retains, h.next_empty, fun s hs => ?_, fun c => (h.dropNewer c).retains⟩
  have hstore := (h.store s hs).retains
  constructor
  · intro hlt
    rwa [BoundedDeque.items_push_of_lt hlt] at hstore
  · intro hfull
    rwa [BoundedDeque.items_push_of_full hfull] at hstore

/-- The slot of a height. -/
def heightSlot (n : ℕ) : Slot ℕ := ⟨n, some ⟨n, 0⟩⟩

/-- Two places after three stores. -/
def wrappedSlots : CheckpointRing ℕ :=
  (((CheckpointRing.new 2).store (heightSlot 1)).store (heightSlot 2)).store (heightSlot 3)

theorem wrappedSlots_retains : Retains wrappedSlots [heightSlot 2, heightSlot 3] ∧
    Retains (wrappedSlots.dropNewer (heightSlot 2).cursor) [heightSlot 2] := by
  have ahead {r : CheckpointRing ℕ} {s : Slot ℕ}
      (h : ∀ o ∈ r.slots, ∀ t ∈ o, t.cursor ≤ s.cursor) (t : Slot ℕ) (ht : some t ∈ r.slots) :
      t.cursor ≤ s.cursor := h _ ht t rfl
  have run : CheckpointRun 2 wrappedSlots (((BoundedDeque.empty.push (heightSlot 1)).push
      (heightSlot 2)).push (heightSlot 3)) := by
    apply CheckpointRun.store
    · apply CheckpointRun.store
      · exact CheckpointRun.store CheckpointRun.new _ (ahead (by decide))
      · exact ahead (by decide)
    · exact ahead (by decide)
  obtain ⟨hretains, -, -, hdrop⟩ := checkpoints_refine_deque run
  exact ⟨hretains, hdrop (heightSlot 2).cursor⟩

end Works.Chainfold
