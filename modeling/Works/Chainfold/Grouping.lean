import Works.Lib.StableSort
import Works.Chainfold.Driver

/-! # Grouping

What `group_into` makes of the entries of a window: the entries in order, cut into spans where
the block changes.  On the entries of one chain, whatever their order, the batch is valid and
holds exactly the chain's events in order.  On any entries the spans are the entries in stable
order, and the batch is valid if and only if no two entries disagree about a block or share a
position (`groupInto_exact`). -/

namespace Works.Chainfold

open Works.Lib (StablySorted stablySorted_insertionSort stablySorted_iff)

variable {E : Type}

/-- The span `push_block` adds. -/
theorem chainEvents_pushBlock (b : Batch E) (block : BlockRef) (events : List (ℕ × E)) :
    (b.pushBlock block events).chainEvents =
      b.chainEvents ++ events.map fun item => ⟨block, item.1, item.2⟩ := by
  have hzip : (events.map (·.1)).zip (events.map (·.2)) = events := by
    rw [← List.unzip_fst, ← List.unzip_snd]
    exact List.zip_unzip events
  rw [Batch.chainEvents, Batch.spans_pushBlock, List.flatMap_append]
  congr 1
  rw [List.flatMap_cons, List.flatMap_nil, List.append_nil, SpanView.chainEvents, SpanView.items,
    hzip]
  rfl

/-- Grouping keeps the entries and their order. -/
theorem chainEvents_groupLoop : ∀ (xs : List (ChainEvent E)) (batch : Batch E)
    (open_ : BlockRef) (span : List (ℕ × E)),
    (groupLoop batch (some open_) span xs).chainEvents =
      batch.chainEvents ++ (span.map fun item => ⟨open_, item.1, item.2⟩) ++ xs
  | [], batch, open_, span => by
      rw [groupLoop, chainEvents_pushBlock, List.append_nil]
  | x :: xs, batch, open_, span => by
      rw [groupLoop]
      split_ifs with h
      · rw [chainEvents_groupLoop xs, chainEvents_pushBlock]
        simp
      · rw [not_not] at h
        rw [chainEvents_groupLoop xs, h]
        simp

theorem boundary_groupLoop : ∀ (xs : List (ChainEvent E)) (batch : Batch E)
    (open_ : Option BlockRef) (span : List (ℕ × E)),
    (groupLoop batch open_ span xs).boundary = batch.boundary
  | [], batch, none, span => rfl
  | [], batch, some open_, span => rfl
  | x :: xs, batch, none, span => by
      rw [groupLoop]
      exact boundary_groupLoop xs _ _ _
  | x :: xs, batch, some open_, span => by
      rw [groupLoop]
      split_ifs
      · rw [boundary_groupLoop xs]
        rfl
      · exact boundary_groupLoop xs _ _ _

/-- A span above the others keeps the batch valid. -/
theorem ValidSpans.pushBlock {b : Batch E} (h : Batch.ValidSpans b.spans) {block : BlockRef}
    {events : List (ℕ × E)} (habove : ∀ s ∈ b.spans, s.number < block.number)
    (hne : events ≠ []) (hsorted : events.Pairwise fun a b => a.1 < b.1) :
    Batch.ValidSpans (b.pushBlock block events).spans := by
  rw [Batch.spans_pushBlock]
  constructor
  · exact List.pairwise_append.mpr ⟨h.ascending, List.pairwise_singleton _ _, by simpa using habove⟩
  · intro s hs
    rcases List.mem_append.mp hs with hs | hs
    · exact h.nonempty s hs
    · rw [List.mem_singleton.mp hs]
      simpa using hne
  · intro s hs
    rcases List.mem_append.mp hs with hs | hs
    · exact h.sorted s hs
    · rw [List.mem_singleton.mp hs]
      exact List.pairwise_map.mpr hsorted

/-- Entries in strict order that name one block at each height are cut into valid spans. -/
theorem validSpans_groupLoop : ∀ (xs : List (ChainEvent E)) (batch : Batch E)
    (open_ : BlockRef) (span : List (ℕ × E)), Batch.ValidSpans batch.spans →
    (∀ s ∈ batch.spans, s.number < open_.number) → span ≠ [] →
    ((span.map fun item => (⟨open_, item.1, item.2⟩ : ChainEvent E)) ++ xs).Pairwise
      (fun a b => a.pos < b.pos) →
    (∀ x ∈ xs, ∀ y ∈ xs, x.block.number = y.block.number → x.block = y.block) →
    (∀ x ∈ xs, x.block.number = open_.number → x.block = open_) →
    Batch.ValidSpans (groupLoop batch (some open_) span xs).spans
  | [], batch, open_, span, hv, habove, hne, hsorted, _, _ => by
      rw [groupLoop]
      refine ValidSpans.pushBlock hv habove hne ?_
      rw [List.append_nil, List.pairwise_map] at hsorted
      refine hsorted.imp ?_
      intro a b hab
      have hab : open_.number < open_.number ∨ open_.number = open_.number ∧ a.1 < b.1 := hab
      omega
  | x :: xs, batch, open_, span, hv, habove, hne, hsorted, hone, hopen => by
      have hone' : ∀ y ∈ xs, ∀ z ∈ xs, y.block.number = z.block.number → y.block = z.block :=
        fun y hy z hz => hone y (List.mem_cons_of_mem _ hy) z (List.mem_cons_of_mem _ hz)
      rw [groupLoop]
      split_ifs with h
      · obtain ⟨hspan, hrest, hcross⟩ := List.pairwise_append.mp hsorted
        have hlt : open_.number < x.block.number := by
          obtain ⟨item, hitem⟩ := List.exists_mem_of_ne_nil _ hne
          have hpos := hcross ⟨open_, item.1, item.2⟩ (List.mem_map.mpr ⟨item, hitem, rfl⟩) x
            List.mem_cons_self
          rcases hpos with hpos | ⟨hpos, -⟩
          · exact hpos
          · exact absurd (hopen x List.mem_cons_self hpos.symm).symm h
        refine validSpans_groupLoop xs _ _ _ ?_ ?_ (by simp) (by simpa using hrest) hone' ?_
        · refine ValidSpans.pushBlock hv habove hne ?_
          rw [List.pairwise_map] at hspan
          refine hspan.imp ?_
          intro a b hab
          have hab : open_.number < open_.number ∨ open_.number = open_.number ∧ a.1 < b.1 := hab
          omega
        · intro s hs
          rw [Batch.spans_pushBlock] at hs
          rcases List.mem_append.mp hs with hs | hs
          · exact (habove s hs).trans hlt
          · rw [List.mem_singleton.mp hs]
            exact hlt
        · intro y hy hn
          exact hone y (List.mem_cons_of_mem _ hy) x List.mem_cons_self hn
      · rw [not_not] at h
        subst h
        refine validSpans_groupLoop xs _ _ _ hv habove (by simp) ?_ hone'
          fun y hy => hopen y (List.mem_cons_of_mem _ hy)
        rw [List.map_append, List.append_assoc]
        exact hsorted

/-! ### One chain -/

/-- A sorted list of entries has one entry at a position. -/
theorem eq_of_pos_eq {xs : List (ChainEvent E)} (h : xs.Pairwise fun a b => a.pos < b.pos)
    {x y : ChainEvent E} (hx : x ∈ xs) (hy : y ∈ xs) (hpos : x.pos = y.pos) : x = y := by
  induction xs with
  | nil => simp at hx
  | cons a xs ih =>
      obtain ⟨ha, hxs⟩ := List.pairwise_cons.mp h
      rcases List.mem_cons.mp hx with rfl | hx'
      · rcases List.mem_cons.mp hy with rfl | hy'
        · rfl
        · exact absurd hpos (ha y hy').ne
      · rcases List.mem_cons.mp hy with rfl | hy'
        · exact absurd hpos.symm (ha x hx').ne
        · exact ih hxs hx' hy'

/-- Sorting entries by position brings them into their strict order, if they have one. -/
theorem insertionSort_eq {xs ys : List (ChainEvent E)} (hperm : xs.Perm ys)
    (hs : ys.Pairwise fun a b => a.pos < b.pos) :
    (xs.insertionSort fun a b => a.pos ≤ b.pos) = ys := by
  have htot : Std.Total fun a b : ChainEvent E => a.pos ≤ b.pos := ⟨fun a b => le_total _ _⟩
  have htrans : IsTrans (ChainEvent E) fun a b => a.pos ≤ b.pos := ⟨fun _ _ _ => le_trans⟩
  have hp := (List.perm_insertionSort (fun a b : ChainEvent E => a.pos ≤ b.pos) xs).trans hperm
  refine List.Perm.eq_of_pairwise ?_ (List.pairwise_insertionSort _ xs) (hs.imp le_of_lt) hp
  intro a b ha hb hab hba
  exact eq_of_pos_eq hs (hp.subset ha) hb (le_antisymm hab hba)

/-- **Grouping the entries of one chain**, in whatever order they come. -/
theorem groupInto_spec {b : Batch E} (hb : b.spans = []) {xs ys : List (ChainEvent E)}
    (hperm : xs.Perm ys) (hs : ys.Pairwise fun a b => a.pos < b.pos)
    (hone : ∀ x ∈ ys, ∀ y ∈ ys, x.block.number = y.block.number → x.block = y.block) :
    (groupInto b xs).chainEvents = ys ∧ (groupInto b xs).boundary = b.boundary ∧
      (groupInto b xs).validate = .ok () := by
  rw [groupInto, insertionSort_eq hperm hs, boundary_groupLoop, Batch.validate_ok_iff]
  have hempty : b.chainEvents = [] := by rw [Batch.chainEvents, hb]; rfl
  have hvalid : Batch.ValidSpans b.spans := by
    rw [hb]
    exact ⟨List.Pairwise.nil, by simp, by simp⟩
  cases ys with
  | nil => exact ⟨hempty, rfl, hvalid⟩
  | cons x ys =>
      rw [groupLoop]
      refine ⟨?_, rfl, ?_⟩
      · rw [chainEvents_groupLoop, hempty]
        rfl
      · refine validSpans_groupLoop ys b x.block _ hvalid (by simp [hb]) (by simp) hs ?_ ?_
        · exact fun y hy z hz =>
            hone y (List.mem_cons_of_mem _ hy) z (List.mem_cons_of_mem _ hz)
        · exact fun y hy => hone y (List.mem_cons_of_mem _ hy) x List.mem_cons_self

/-! ### Any entries -/

theorem BlockRef.eq_of_fields {r s : BlockRef} (hnumber : r.number = s.number)
    (hhash : r.hash = s.hash) : r = s := by
  cases r
  cases s
  rw [BlockRef.mk.injEq]
  exact ⟨hnumber, hhash⟩

/-- The events of valid spans ascend. -/
theorem pairwise_chainEvents {b : Batch E} (hv : Batch.ValidSpans b.spans) :
    b.chainEvents.Pairwise fun x y => x.pos < y.pos := by
  rw [Batch.chainEvents, List.pairwise_flatMap]
  constructor
  · intro s hs
    exact Engine.sorted_chainEvents (Batch.length_eq_of_mem_spans hs) (hv.sorted s hs)
  · apply hv.ascending.imp
    intro s t hst x hx y hy
    obtain ⟨_, -, rfl⟩ := List.mem_map.mp hx
    obtain ⟨_, -, rfl⟩ := List.mem_map.mp hy
    exact Or.inl hst

/-- Valid spans name one block at each height. -/
theorem block_eq_of_number_eq {b : Batch E} (hv : Batch.ValidSpans b.spans) {x y : ChainEvent E}
    (hx : x ∈ b.chainEvents) (hy : y ∈ b.chainEvents) (h : x.block.number = y.block.number) :
    x.block = y.block := by
  obtain ⟨s, hs, hxs⟩ := List.mem_flatMap.mp hx
  obtain ⟨t, ht, hyt⟩ := List.mem_flatMap.mp hy
  obtain ⟨_, -, rfl⟩ := List.mem_map.mp hxs
  obtain ⟨_, -, rfl⟩ := List.mem_map.mp hyt
  have hone : ∀ s ∈ b.spans, ∀ t ∈ b.spans, s.number = t.number → s.block = t.block := by
    have hsymm : Std.Symm fun s t : SpanView E => s.number = t.number → s.block = t.block :=
      ⟨fun s t hst heq => (hst heq.symm).symm⟩
    apply List.Pairwise.forall_of_forall
    · exact fun s _ _ => rfl
    · exact hv.ascending.imp fun hlt heq => absurd heq hlt.ne
  exact hone s hs t ht h

/-- What the spans of an empty batch hold after grouping. -/
theorem chainEvents_groupInto {b : Batch E} (hb : b.spans = []) (xs : List (ChainEvent E)) :
    (groupInto b xs).chainEvents = xs.insertionSort fun x y => x.pos ≤ y.pos := by
  have hempty : b.chainEvents = [] := by rw [Batch.chainEvents, hb]; rfl
  rw [groupInto]
  cases xs.insertionSort fun x y => x.pos ≤ y.pos with
  | nil => exact hempty
  | cons x ys =>
      rw [groupLoop, chainEvents_groupLoop, hempty]
      rfl

/-- Sorted entries ascend if and only if no position occurs twice. -/
theorem pairwise_lt_iff_nodup {xs : List (ChainEvent E)}
    (h : xs.Pairwise fun x y => x.pos ≤ y.pos) :
    (xs.Pairwise fun x y => x.pos < y.pos) ↔ (xs.map ChainEvent.pos).Nodup := by
  rw [List.Nodup, List.pairwise_map]
  constructor
  · exact fun hlt => hlt.imp fun hxy => hxy.ne
  · exact fun hne => (h.and hne).imp fun hxy => lt_of_le_of_ne hxy.1 hxy.2

/-- **Grouping loses and hides nothing.**  The spans of the batch are the entries in stable
order, and the batch is valid if and only if every height has one hash and no two entries have
the same position. -/
theorem groupInto_exact {b : Batch E} (hb : b.isEmpty = true) (xs : List (ChainEvent E)) :
    (∀ ys, StablySorted ChainEvent.pos xs ys ↔ (groupInto b xs).chainEvents = ys) ∧
      ((groupInto b xs).validate = .ok () ↔
        (∀ x ∈ xs, ∀ y ∈ xs, x.block.number = y.block.number → x.block.hash = y.block.hash) ∧
          (xs.map ChainEvent.pos).Nodup) := by
  have hspans := b.isEmpty_iff.mp hb
  have hevents := chainEvents_groupInto hspans xs
  have hperm := List.perm_insertionSort (fun x y : ChainEvent E => x.pos ≤ y.pos) xs
  have hsorted := (stablySorted_insertionSort ChainEvent.pos xs).sorted
  refine ⟨fun ys => by rw [hevents]; exact stablySorted_iff, ?_, ?_⟩
  · intro hvalid
    rw [Batch.validate_ok_iff] at hvalid
    constructor
    · intro x hx y hy hxy
      rw [← hperm.mem_iff, ← hevents] at hx hy
      rw [block_eq_of_number_eq hvalid hx hy hxy]
    · have hlt := pairwise_chainEvents hvalid
      rw [hevents, pairwise_lt_iff_nodup hsorted] at hlt
      exact (hperm.map _).nodup_iff.mp hlt
  · rintro ⟨hone, hnodup⟩
    have hlt := (pairwise_lt_iff_nodup hsorted).mpr ((hperm.map _).nodup_iff.mpr hnodup)
    refine (groupInto_spec hspans hperm.symm hlt fun x hx y hy hxy => ?_).2.2
    have hhash := hone x (hperm.mem_iff.mp hx) y (hperm.mem_iff.mp hy) hxy
    exact BlockRef.eq_of_fields hxy hhash

/-- Two blocks of one height whose events come in turns. -/
def takingTurns : List (ChainEvent ℕ) :=
  [⟨⟨5, Vector.replicate 32 1⟩, 2, 12⟩, ⟨⟨5, Vector.replicate 32 2⟩, 1, 11⟩,
    ⟨⟨5, Vector.replicate 32 1⟩, 0, 10⟩]

theorem takingTurns_refused : (groupInto Batch.new takingTurns).validate ≠ .ok () := by
  intro hvalid
  have hone := ((groupInto_exact rfl takingTurns).2.mp hvalid).1
  have hhash := hone _ List.mem_cons_self _ (List.mem_cons_of_mem _ List.mem_cons_self) rfl
  exact absurd hhash (by decide)

end Works.Chainfold
