import Works.Chainfold.Ring

/-! # The ring of checkpoints

`CheckpointRing` of `checkpoint.rs`: a fixed number of slots and the place of the next write.
Reading the slots from that place on, around the end, gives them in the order in which they
were stored (`stored`), after the places that hold none.  `store` adds at the end of that list
and drops the first when no place is left; `drop_newer` goes through the places in any order
and still leaves the list without the later cursors, as long as the cursors do not decrease
along it. -/

namespace Works.Chainfold

open Works.Lib Works.Lib.Circular

variable {σ : Type}

/-- `Slot`. -/
structure Slot (σ : Type) where
  fold : σ
  cursor : Cursor

/-- `live`: the ring still holds the block of the slot's cursor. -/
def live (slot : Slot σ) (ring : BlockRing) : Bool :=
  slot.cursor.all fun cursor => ring.observes cursor.block

/-- `CheckpointRing`. -/
structure CheckpointRing (σ : Type) where
  slots : List (Option (Slot σ))
  next : ℕ
  next_lt : slots ≠ [] → next < slots.length

namespace CheckpointRing

/-- `CheckpointRing::new`. -/
def new (slots : ℕ) : CheckpointRing σ where
  slots := List.replicate slots none
  next := 0
  next_lt := List.length_pos_iff.mpr

/-- `CheckpointRing::oldest_first`, collected. -/
def oldestFirst (r : CheckpointRing σ) (ring : BlockRing) : List (Slot σ) :=
  ((r.slots.drop r.next ++ r.slots.take r.next).filterMap id).filter fun slot => live slot ring

/-- `CheckpointRing::count`. -/
def count (r : CheckpointRing σ) (ring : BlockRing) : ℕ := (r.oldestFirst ring).length

/-- `CheckpointRing::store`. -/
def store (r : CheckpointRing σ) (slot : Slot σ) : CheckpointRing σ :=
  if h : r.slots.length = 0 then r
  else
    { slots := r.slots.set r.next (some slot)
      next := (r.next + 1) % r.slots.length
      next_lt := fun _ => by
        rw [List.length_set]
        exact Nat.mod_lt _ (Nat.pos_of_ne_zero h) }

/-- `CheckpointRing::oldest`. -/
def oldest (r : CheckpointRing σ) (ring : BlockRing) : Option (Slot σ) :=
  (r.oldestFirst ring).head?

/-- `CheckpointRing::best_at_or_below`. -/
def bestAtOrBelow (r : CheckpointRing σ) (block : ℕ) (ring : BlockRing) : Option (Slot σ) :=
  (r.oldestFirst ring).reverse.find? fun slot =>
    slot.cursor.all fun cursor => decide (cursor.block ≤ block)

/-- The slot has a cursor after `cursor`. -/
def later (cursor : Cursor) (slot : Slot σ) : Bool := decide (cursor < slot.cursor)

/-- `take_if` in `drop_newer`: what is left of a slot. -/
def dropSlot (cursor : Cursor) (slot : Option (Slot σ)) : Option (Slot σ) :=
  slot.filter fun s => !later cursor s

/-- The write position after the loop of `drop_newer` over the slots. -/
def nextAfterDrop (cursor : Cursor) (len : ℕ) : List (Option (Slot σ)) → ℕ → ℕ
  | [], next => next
  | slot :: slots, next =>
      nextAfterDrop cursor len slots
        (if slot.any (later cursor) then (next + len - 1) % len else next)

theorem nextAfterDrop_lt (cursor : Cursor) {len : ℕ} (hlen : 0 < len) :
    ∀ (slots : List (Option (Slot σ))) (next : ℕ), next < len →
      nextAfterDrop cursor len slots next < len
  | [], _, h => h
  | slot :: slots, next, h => by
      rw [nextAfterDrop]
      apply nextAfterDrop_lt cursor hlen
      split_ifs
      · exact Nat.mod_lt _ hlen
      · exact h

/-- `CheckpointRing::drop_newer`. -/
def dropNewer (r : CheckpointRing σ) (cursor : Cursor) : CheckpointRing σ where
  slots := r.slots.map (dropSlot cursor)
  next := nextAfterDrop cursor r.slots.length r.slots r.next
  next_lt := by
    intro h
    have hne : r.slots ≠ [] := by
      rintro he
      simp [he] at h
    rw [List.length_map]
    exact nextAfterDrop_lt cursor (List.length_pos_iff.mpr hne) _ _ (r.next_lt hne)

/-- `CheckpointRing::clear`. -/
def clear (r : CheckpointRing σ) : CheckpointRing σ where
  slots := r.slots.map fun _ => none
  next := r.next
  next_lt := by
    intro h
    rw [List.length_map]
    refine r.next_lt ?_
    rintro he
    simp [he] at h

/-! ### Store order -/

/-- The slots that are there, in the order in which they were stored. -/
def stored (r : CheckpointRing σ) : List (Slot σ) := (r.slots.rotate r.next).filterMap id

/-- The places without a slot come first. -/
def Packed (r : CheckpointRing σ) : Prop :=
  ∃ k, r.slots.rotate r.next = List.replicate k none ++ r.stored.map some

theorem next_le (r : CheckpointRing σ) : r.slots = [] ∨ r.next < r.slots.length := by
  by_cases h : r.slots = []
  · exact Or.inl h
  · exact Or.inr (r.next_lt h)

theorem oldestFirst_eq (r : CheckpointRing σ) (ring : BlockRing) :
    r.oldestFirst ring = r.stored.filter fun slot => live slot ring := by
  rw [oldestFirst, stored]
  rcases r.next_le with h | h
  · simp [h]
  · rw [List.rotate_eq_drop_append_take h.le]

theorem filterMap_pack (k : ℕ) (l : List (Slot σ)) :
    (List.replicate k none ++ l.map some).filterMap id = l := by
  simp [List.filterMap_append, List.filterMap_map]

/-- A ring is known by what it holds from the write position on. -/
theorem packed_of_rotate {r : CheckpointRing σ} {k : ℕ} {l : List (Slot σ)}
    (h : r.slots.rotate r.next = List.replicate k none ++ l.map some) :
    r.stored = l ∧ r.Packed := by
  have hl : r.stored = l := by rw [stored, h, filterMap_pack]
  exact ⟨hl, k, by rw [hl, h]⟩

theorem mem_stored_iff {r : CheckpointRing σ} {s : Slot σ} :
    s ∈ r.stored ↔ some s ∈ r.slots := by
  simp [stored, List.mem_filterMap, List.mem_rotate]

theorem mem_stored_store {r : CheckpointRing σ} {s x : Slot σ} (h : x ∈ (r.store s).stored) :
    x ∈ r.stored ∨ x = s := by
  rw [mem_stored_iff] at h ⊢
  unfold store at h
  split_ifs at h
  · exact Or.inl h
  · rcases List.mem_or_eq_of_mem_set h with h | h
    · exact Or.inl h
    · exact Or.inr (Option.some.inj h)

theorem mem_stored_dropNewer {r : CheckpointRing σ} {c : Cursor} {x : Slot σ}
    (h : x ∈ (r.dropNewer c).stored) : x ∈ r.stored ∧ x.cursor ≤ c := by
  rw [mem_stored_iff] at h ⊢
  obtain ⟨o, ho, hdrop⟩ := List.mem_map.mp h
  rw [dropSlot, Option.filter_eq_some_iff] at hdrop
  rw [hdrop.1] at ho
  exact ⟨ho, by simpa [later] using hdrop.2⟩

@[simp] theorem stored_new (n : ℕ) : (new n : CheckpointRing σ).stored = [] := by
  simp [stored, new]

theorem packed_new (n : ℕ) : (new n : CheckpointRing σ).Packed :=
  (packed_of_rotate (k := n) (l := []) (by simp [new])).2

@[simp] theorem stored_clear (r : CheckpointRing σ) : r.clear.stored = [] := by
  simp [stored, clear]

theorem packed_clear (r : CheckpointRing σ) : r.clear.Packed :=
  (packed_of_rotate (k := r.slots.length) (l := []) (by simp [clear])).2

/-! ### Storing -/

/-- Storing adds at the end; with no place left the first slot goes. -/
theorem store_spec {r : CheckpointRing σ} (hp : r.Packed) (hne : r.slots ≠ []) (s : Slot σ) :
    (r.store s).stored =
      (if r.stored.length < r.slots.length then r.stored else r.stored.tail) ++ [s] ∧
    (r.store s).Packed := by
  obtain ⟨k, hk⟩ := hp
  have hlen0 : r.slots.length ≠ 0 := by simpa using hne
  have hlen : r.slots.length = k + r.stored.length := by
    rw [← List.length_rotate r.slots r.next, hk]
    simp
  have hfull : ∀ xs : List (Option (Slot σ)), ∀ i, window xs i xs.length = xs.rotate i := by
    intro xs i
    rw [window, List.take_of_length_le]
    rw [List.length_rotate]
  have hrot : (r.store s).slots.rotate (r.store s).next = (r.slots.rotate r.next).tail ++ [some s] := by
    have hset := window_set_head (r.next_lt hne) (some s)
    rw [hfull] at hset
    rw [store, dif_neg hlen0]
    dsimp only
    rw [← hset, ← hfull, List.length_set]
  apply packed_of_rotate (k := k - 1)
  rw [hrot, hk]
  cases k with
  | zero =>
      rw [if_neg (by omega)]
      simp [List.map_tail]
  | succ k =>
      rw [if_pos (by omega), List.replicate_succ]
      simp

theorem store_of_no_slots {r : CheckpointRing σ} (h : r.slots = []) (s : Slot σ) :
    r.store s = r := by
  rw [store, dif_pos (by simp [h])]

@[simp] theorem length_slots_store (r : CheckpointRing σ) (s : Slot σ) :
    (r.store s).slots.length = r.slots.length := by
  unfold store
  split_ifs <;> simp

/-! ### Dropping the newer slots -/

theorem nextAfterDrop_eq (cursor : Cursor) {len : ℕ} :
    ∀ (slots : List (Option (Slot σ))) (next : ℕ), next < len →
      nextAfterDrop cursor len slots next =
        (next + slots.countP (Option.any (later cursor)) * (len - 1)) % len
  | [], next, h => by simp [nextAfterDrop, Nat.mod_eq_of_lt h]
  | slot :: slots, next, h => by
      rw [nextAfterDrop]
      by_cases hs : slot.any (later cursor) = true
      · rw [if_pos hs, nextAfterDrop_eq cursor slots _ (Nat.mod_lt _ (by omega)),
          List.countP_cons_of_pos hs, Nat.mod_add_mod, Nat.succ_mul]
        congr 1
        omega
      · rw [if_neg hs, nextAfterDrop_eq cursor slots _ h, List.countP_cons_of_neg hs]

/-- A list along which the cursors do not decrease: the later ones come last. -/
theorem filter_append_later {l : List (Slot σ)} (h : l.Pairwise fun a b => a.cursor ≤ b.cursor)
    (c : Cursor) : l = l.filter (fun s => !later c s) ++ l.filter (later c) := by
  induction l with
  | nil => rfl
  | cons a l ih =>
      obtain ⟨ha, hl⟩ := List.pairwise_cons.mp h
      by_cases hc : c < a.cursor
      · have hall : ∀ b ∈ a :: l, later c b = true := by
          intro b hb
          rw [later, decide_eq_true_eq]
          rcases List.mem_cons.mp hb with rfl | hb
          · exact hc
          · exact hc.trans_le (ha b hb)
        rw [List.filter_eq_nil_iff.mpr (by intro b hb; simp [hall b hb]),
          List.filter_eq_self.mpr hall]
        rfl
      · rw [List.filter_cons_of_pos (by simpa [later] using hc),
          List.filter_cons_of_neg (by simpa [later] using hc), List.cons_append, ← ih hl]

/-- The number of dropped slots does not depend on the order in which they are visited. -/
theorem countP_later {r : CheckpointRing σ} (hp : r.Packed) (c : Cursor) :
    r.slots.countP (Option.any (later c)) = (r.stored.filter (later c)).length := by
  obtain ⟨k, hk⟩ := hp
  have hzero : List.countP (Option.any (later c)) (List.replicate k (none : Option (Slot σ))) =
      0 := by
    rw [List.countP_eq_zero]
    intro slot hslot
    rw [List.eq_of_mem_replicate hslot]
    simp
  rw [← (List.rotate_perm r.slots r.next).countP_eq, hk, List.countP_append, List.countP_map,
    hzero, Nat.zero_add, ← List.countP_eq_length_filter]
  rfl

theorem map_dropSlot {l : List (Slot σ)} (h : l.Pairwise fun a b => a.cursor ≤ b.cursor)
    (k : ℕ) (c : Cursor) :
    (List.replicate k none ++ l.map some).map (dropSlot c) =
      (List.replicate k none ++ (l.filter fun s => !later c s).map some) ++
        List.replicate (l.filter (later c)).length none := by
  conv_lhs => rw [filter_append_later h c]
  rw [List.map_append, List.map_replicate, List.map_map, List.map_append, List.append_assoc]
  congr 2
  · apply List.map_congr_left
    intro s hmem
    have := (List.mem_filter.mp hmem).2
    simp [dropSlot, Option.filter, this]
  · rw [List.eq_replicate_iff]
    refine ⟨by simp, ?_⟩
    intro o ho
    obtain ⟨s, hmem, rfl⟩ := List.mem_map.mp ho
    have := (List.mem_filter.mp hmem).2
    simp [dropSlot, Option.filter, this]

/-- Stepping back `d` times over a ring of `n + d` places. -/
theorem step_back_mod (n d : ℕ) : d * (n + d - 1) % (n + d) = n % (n + d) := by
  cases d with
  | zero => simp
  | succ d =>
      have hsum : (d + 1) * (n + (d + 1) - 1) + (n + (d + 1)) = n + (n + (d + 1)) * (d + 1) := by
        rw [show n + (d + 1) - 1 = n + d by omega]
        ring
      rw [← Nat.add_mod_right, hsum, Nat.add_mul_mod_self_left]

/-- Dropping leaves exactly the slots whose cursor is not later, in their order. -/
theorem dropNewer_spec {r : CheckpointRing σ} (hp : r.Packed)
    (hs : r.stored.Pairwise fun a b => a.cursor ≤ b.cursor) (c : Cursor) :
    (r.dropNewer c).stored = r.stored.filter (fun s => !later c s) ∧ (r.dropNewer c).Packed := by
  have hcount := countP_later hp c
  obtain ⟨k, hk⟩ := hp
  rcases r.next_le with hnil | hnext
  · have hst : r.stored = [] := by simp [stored, hnil]
    rw [hst]
    exact packed_of_rotate (k := 0) (l := []) (by simp [dropNewer, hnil])
  · set keep := List.replicate k none ++ (r.stored.filter fun s => !later c s).map some with hkeep
    set d := (r.stored.filter (later c)).length with hd
    have hmap : (r.slots.map (dropSlot c)).rotate r.next = keep ++ List.replicate d none := by
      rw [← List.map_rotate, hk, map_dropSlot hs]
    have hlen : r.slots.length = keep.length + d := by
      rw [← List.length_map (dropSlot c), ← List.length_rotate _ r.next, hmap]
      simp
    -- the write position moved back by `d` places, over the holes
    have hrot : (r.dropNewer c).slots.rotate (r.dropNewer c).next =
        List.replicate d none ++ keep := by
      have hn : (keep ++ List.replicate d none).length = keep.length + d := by simp
      rw [dropNewer]
      dsimp only
      rw [nextAfterDrop_eq c _ _ hnext, hcount, ← List.length_map (dropSlot c), List.rotate_mod,
        ← List.rotate_rotate, hmap, List.length_map, hlen, ← List.rotate_mod, hn, step_back_mod,
        ← hn, List.rotate_mod, List.rotate_append_length_eq]
    apply packed_of_rotate (k := d + k)
    rw [hrot, hkeep, List.replicate_add, List.append_assoc]

@[simp] theorem length_slots_dropNewer (r : CheckpointRing σ) (c : Cursor) :
    (r.dropNewer c).slots.length = r.slots.length := by
  simp [dropNewer]

/-! ### Slots that carry more

Only the cursors of the slots matter to the ring: changing what else the slots carry commutes
with every operation. -/

section Map

variable {τ : Type} (g : σ → τ)

/-- The slot with another state. -/
def mapSlot (s : Slot σ) : Slot τ := ⟨g s.fold, s.cursor⟩

/-- The ring with the states of its slots replaced. -/
def map (r : CheckpointRing σ) : CheckpointRing τ where
  slots := r.slots.map (Option.map (mapSlot g))
  next := r.next
  next_lt := by
    intro h
    rw [List.length_map]
    refine r.next_lt ?_
    rintro he
    simp [he] at h

@[simp] theorem map_new (n : ℕ) : (new n : CheckpointRing σ).map g = new n := by
  simp [map, new]

theorem map_store (r : CheckpointRing σ) (s : Slot σ) :
    (r.store s).map g = (r.map g).store (mapSlot g s) := by
  unfold store
  by_cases h : r.slots.length = 0
  · have h' : (r.map g).slots.length = 0 := by simpa [map] using h
    rw [dif_pos h, dif_pos h']
  · have h' : (r.map g).slots.length ≠ 0 := by simpa [map] using h
    rw [dif_neg h, dif_neg h']
    simp [map, List.map_set]

theorem map_clear (r : CheckpointRing σ) : r.clear.map g = (r.map g).clear := by
  simp only [map, clear, mk.injEq, List.map_map, and_true]
  rfl

theorem later_mapSlot (c : Cursor) (s : Slot σ) : later c (mapSlot g s) = later c s := rfl

theorem nextAfterDrop_map (c : Cursor) (len : ℕ) :
    ∀ (slots : List (Option (Slot σ))) (next : ℕ),
      nextAfterDrop c len (slots.map (Option.map (mapSlot g))) next =
        nextAfterDrop c len slots next
  | [], _ => rfl
  | slot :: slots, next => by
      have hany : (Option.map (mapSlot g) slot).any (later c) = slot.any (later c) := by
        cases slot <;> rfl
      rw [List.map_cons, nextAfterDrop, nextAfterDrop, hany, nextAfterDrop_map c len slots]

theorem map_dropNewer (r : CheckpointRing σ) (c : Cursor) :
    (r.dropNewer c).map g = (r.map g).dropNewer c := by
  have hslots : (r.slots.map (dropSlot c)).map (Option.map (mapSlot g)) =
      (r.slots.map (Option.map (mapSlot g))).map (dropSlot c) := by
    rw [List.map_map, List.map_map]
    apply List.map_congr_left
    intro slot _
    cases slot with
    | none => rfl
    | some s =>
        by_cases h : later c s = true <;> simp [dropSlot, later_mapSlot, h, Option.filter]
  have hnext := nextAfterDrop_map g c r.slots.length r.slots r.next
  simp only [map, dropNewer, mk.injEq, List.length_map]
  exact ⟨hslots, hnext.symm⟩

theorem stored_map (r : CheckpointRing σ) : (r.map g).stored = r.stored.map (mapSlot g) := by
  unfold stored map
  dsimp only
  rw [← List.map_rotate, List.filterMap_map, List.map_filterMap]
  rfl

end Map

end CheckpointRing

end Works.Chainfold
