import Works.Rotortree.Storage.FreshRun
import Works.Rotortree.Storage.Isolation

/-! # Snapshots of a recovered tree

Recovery maps every chunk of a level from its file, also a last one that is not full.  The next
checkpoint writes such a chunk again, behind the windows that snapshots still have onto it.
`Shared.Spares` says that this changes nothing a snapshot reads, and `CrashRun.snapshot_kept` that
then the snapshot shows the tree of the moment it was taken for as long as the process runs.

A pending write is followed from the capture to the file (`Spared`): it puts at the nodes that the
snapshot maps what the snapshot shows. -/

namespace Works.Rotortree

open Works.Lib ChunkedLevel

variable {Hash : Type} {N MAX_DEPTH : ℕ}

/-- A checkpoint that takes the levels now changes nothing that `s` shows: no leaf came in since, or
all nodes that `s` maps in chunks which are not counted are complete. -/
def Shared.Spares (h : Shared Hash N MAX_DEPTH) (s : TreeSnapshot Hash N MAX_DEPTH) : Prop :=
  h.inner.size = s.size ∨ ∀ (k : Fin MAX_DEPTH) (i : ℕ) (c : Chunk Hash),
    (s.levels k).chunks[i]? = some c → c.IsMapped → h.counted k ≤ i →
      min (s.levels k).len ((i + 1) * CHUNK_SIZE) * N ^ k.val ≤ s.size

/-- A write that changes nothing of what `s` shows of the tree over `L₀`: it is of the window onto
the very place, or of the nodes that `s` maps there. -/
def ShardWrite.Spares (H : Hasher Hash) (s : TreeSnapshot Hash N MAX_DEPTH) (L₀ : List Hash)
    (w : ShardWrite Hash) : Prop :=
  ∃ (k : Fin MAX_DEPTH) (i : ℕ) (c : Chunk Hash), w = .home k i c ∧
    ((∃ v, c = Chunk.home k v i) ∨ ∀ c', (s.levels k).chunks[i]? = some c' → c'.IsMapped →
      ∀ p, p / CHUNK_SIZE = i → p < (storedLevel N H.hashChildren L₀ k).length →
        ∀ fs, (storedLevel N H.hashChildren L₀ k)[p]? =
          some (c.asSlice fs ⟨p % CHUNK_SIZE, Nat.mod_lt _ CHUNK_SIZE_pos⟩))

/-- The snapshot shows the tree over `L₀`, and the pending writes change nothing of it. -/
structure Spared [Zero Hash] (H : Hasher Hash) (disk : Disk Hash) (h : Shared Hash N MAX_DEPTH)
    (s : TreeSnapshot Hash N MAX_DEPTH) (L₀ : List Hash) : Prop where
  shown : s.Refines disk.shards.fs H L₀
  home : ∀ k : Fin MAX_DEPTH, AtHome k (s.levels k)
  pending : ∀ w ∈ h.holder.pending, w.Spares H s L₀

/-! ### Steps -/

section Steps

variable [Zero Hash] {P : ℕ → Prop} {W : Wire Hash} {H : Hasher Hash} {tiers : ℕ}
variable {disk disk' : Disk Hash} {h h' : Shared Hash N MAX_DEPTH} {L L₀ : List Hash} {m : ℕ}
variable {s : TreeSnapshot Hash N MAX_DEPTH}

/-- A node that `s` maps in a chunk which is not counted is that of the live tree. -/
theorem Shared.Spares.node (hN : 2 ≤ N) (hspares : h.Spares s)
    (hshown : s.Refines disk.shards.fs H L₀) (hsize : h.inner.size = L.length) (hL : L₀ <+: L)
    {k : Fin MAX_DEPTH} {p : ℕ} {c : Chunk Hash}
    (hc : (s.levels k).chunks[p / CHUNK_SIZE]? = some c) (hm : c.IsMapped)
    (hcounted : h.counted k ≤ p / CHUNK_SIZE)
    (hp : p < (storedLevel N H.hashChildren L₀ k).length) :
    (storedLevel N H.hashChildren L k)[p]? = (storedLevel N H.hashChildren L₀ k)[p]? := by
  rcases hspares with hsame | hcomplete
  · obtain rfl := hL.eq_of_length (by rw [← hshown.size, ← hsame, hsize])
    rfl
  · have hle := hcomplete k _ c hc hm hcounted
    rw [(hshown.levels k).len, hshown.size] at hle
    have hin : p < (p / CHUNK_SIZE + 1) * CHUNK_SIZE := by
      have := Nat.lt_mul_div_succ p CHUNK_SIZE_pos
      rwa [Nat.mul_comm]
    have hnode : (p + 1) * N ^ k.val ≤ L₀.length :=
      (Nat.mul_le_mul_right _ (Nat.le_min.mpr ⟨hp, hin⟩)).trans hle
    have hsame := storedLevel_take (h := H.hashChildren) hN hL.length_le hnode
    rw [← List.prefix_iff_eq_take.mp hL] at hsame
    exact hsame.symm

/-- **The capture.**  What a checkpoint is going to write changes nothing that `s` shows. -/
theorem Steady.spares_captured (hN : 2 ≤ N) (hD : 1 ≤ MAX_DEPTH)
    (hs : Steady P W H tiers disk h L m) (hspares : h.Spares s)
    (hshown : s.Refines disk.shards.fs H L₀) (hL : L₀ <+: L) {snap : CheckpointSnap Hash}
    (hcap : Captured h L m snap) {w : ShardWrite Hash} (hw : w ∈ snap.writes) :
    w.Spares H s L₀ := by
  obtain ⟨k, ld, i, c, hld, hchunk, rfl⟩ := CheckpointSnap.mem_writes.mp hw
  obtain ⟨hk, rfl⟩ := hcap.level_eq hD hld
  dsimp only at hchunk ⊢
  rw [List.getElem?_drop] at hchunk
  refine ⟨⟨k, hk⟩, _, c, rfl, ?_⟩
  cases hmap : c with
  | mapped region offset =>
      rw [← hmap]
      exact .inl (hs.tree.home ⟨k, hk⟩ _ c hchunk (by rw [hmap]; trivial))
  | memory data =>
      right
      intro c' hc' hm p hpi hp fs
      rw [← hpi] at hc' hchunk
      have hcounted : h.counted k ≤ p / CHUNK_SIZE := by
        rw [Shared.counted, hs.tree.counts k hk, hpi]
        exact Nat.le_add_right _ _
      have hnode := hspares.node hN hshown hs.tree.refines.size hL hc' hm hcounted hp
      have hlt : p < (storedLevel N H.hashChildren L k).length := by
        rw [List.getElem?_eq_getElem hp] at hnode
        exact (List.getElem?_eq_some_iff.mp hnode).1
      rw [← hnode, (hs.tree.refines.levels ⟨k, hk⟩).asSlice hlt hchunk, hmap]
      rfl

/-- **The write** of a chunk. -/
theorem Spared.write (hi : Spared H disk h s L₀) {w : ShardWrite Hash} (hw : w.Spares H s L₀)
    (hfiles : disk'.shards = disk.shards.write w) : s.Refines disk'.shards.fs H L₀ where
  size := hi.shown.size
  depth := hi.shown.depth
  root := hi.shown.root
  levels := by
    intro k
    have hl := hi.shown.levels k
    refine hl.of_fs (hi.home k) fun p hp hmapped => ?_
    obtain ⟨kw, i, c, rfl, hspares⟩ := hw
    rw [hfiles, nodeAt_write]
    split_ifs with hpi
    · obtain ⟨hk, hpi⟩ := hpi
      obtain rfl : k = kw := Fin.ext hk
      rcases hspares with ⟨v, rfl⟩ | hnodes
      · rw [Chunk.asSlice_home, ← hpi]
        dsimp only
        rw [Nat.div_add_mod' p CHUNK_SIZE]
      · obtain ⟨c', hc'⟩ := hl.exists_chunk hp
        have hm := hmapped c' hc'
        have hnew := hnodes c' (by rw [← hpi]; exact hc') hm p hpi hp disk.shards.fs
        obtain ⟨v, hv⟩ := hi.home k _ c' hc' hm
        rw [← hl.cells p hp, cell_home (by rw [hc', hv]), Option.some.injEq] at hnew
        exact hnew.symm
    · rfl

/-- **One step.** -/
theorem Spared.step (hN : 2 ≤ N) (hD : 1 ≤ MAX_DEPTH) (hs : Steady P W H tiers disk h L m)
    (hi : Spared H disk h s L₀) (hL : L₀ <+: L) {a : Action Hash}
    (hspares : ∀ ok, a = .checkpointCapture ok → h.Spares s)
    (hm : Moved W H disk h L m disk' h' a) : Spared H disk' h' s L₀ := by
  cases hm with
  | idle hfiles hinner hcounts hsnap hpending =>
      refine ⟨by rw [hfiles]; exact hi.shown, hi.home, ?_⟩
      rcases hpending with hnone | hsame
      · rw [hnone]
        rintro w ⟨⟩
      · rw [hsame]
        exact hi.pending
  | @call c admitted hdisk hcall =>
      refine ⟨by rw [hdisk]; exact hi.shown, hi.home, ?_⟩
      rw [hcall, (Shared.insertCall_frame W H disk.shards.fs c h).2.2.1]
      exact hi.pending
  | capture hcap hfiles hinner hcounts hsnap hpending =>
      refine ⟨by rw [hfiles]; exact hi.shown, hi.home, ?_⟩
      rw [hpending]
      exact fun w hw => hs.spares_captured hN hD (hspares _ rfl) hi.shown hL hcap hw
  | write hpending hfiles hinner hcounts hsnap =>
      refine ⟨hi.write (hi.pending _ (by rw [hpending]; exact List.mem_cons_self)) hfiles, hi.home,
        ?_⟩
      exact fun w hw => hi.pending w (by rw [hpending]; exact List.mem_cons_of_mem _ hw)
  | remap hmn hfiles hcounts hwindows hsnap hpending =>
      refine ⟨by rw [hfiles]; exact hi.shown, hi.home, ?_⟩
      rw [hpending]
      rintro w ⟨⟩

/-- The snapshot of the live tree has no window that a pending write changes. -/
theorem Steady.spared (hs : Steady P W H tiers disk h L m) :
    Spared H disk h h.inner.snapshot L where
  shown := hs.tree.refines.snapshot
  home := fun k i c hc => hs.tree.home k i c (TreeInner.chunk_of_snapshot hc)
  pending := by
    intro w hw
    obtain ⟨n, k, i, c, rfl, -, -, hsafe⟩ := hs.writeOk hw
    refine ⟨k, i, c, rfl, hsafe.imp_right ?_⟩
    rintro ⟨-, hlive⟩ c' hc' hm
    exact absurd hm (hlive c' (TreeInner.chunk_of_snapshot hc'))

end Steps

/-! ### Every run -/

section Run

variable [Zero Hash] [DecidableEq Hash] {W : Wire Hash} {H : Hasher Hash}
variable {ps : List (WalPayload Hash)} {k : ℕ} {w w' : World Hash N MAX_DEPTH}

/-- `open` hands out the snapshot of the tree. -/
theorem openTree_snapshot {pinAboveLevel : ℕ} {verify : Bool} {par : ℕ → ℕ → Bool}
    {disk disk' : Disk Hash} {t : Shared Hash N MAX_DEPTH}
    (h : openTree W H pinAboveLevel verify par disk = .ok (t, disk')) :
    t.snapshot = t.inner.snapshot := by
  unfold openTree at h
  dsimp only at h
  split_ifs at h
  all_goals
    obtain ⟨r, -, h⟩ := Outcome.bind_eq_ok.mp h
    obtain ⟨counts, -, h⟩ := Outcome.bind_eq_ok.mp h
    cases h
    rfl

omit [Zero Hash] [DecidableEq Hash] in
theorem EntriesOk.fits (h : EntriesOk W N MAX_DEPTH ps) : Fits N MAX_DEPTH (leavesOf ps) where
  size := h.length_lt
  depth := by
    rcases h.room with h0 | h1
    · rw [h0, List.length_nil, Nat.clog_zero_right]
      exact Nat.zero_le _
    · rw [Nat.zero_add] at h1
      exact h1.2

omit [DecidableEq Hash] in
theorem Sound.steady {P : ℕ → Prop} {C : CrashFile UInt8 → Shared Hash N MAX_DEPTH → Prop}
    (h : Sound P C W H ps k w) {t : Shared Hash N MAX_DEPTH}
    (ht : w.handle = some t) :
    EntriesOk W N MAX_DEPTH ps ∧ ∃ m, Steady P W H MAX_DEPTH w.disk t (leavesOf ps) m := by
  cases h with
  | new => cases ht
  | opened hs hb hc hk =>
      cases ht
      exact ⟨hb.entries, _, hs⟩
  | crashed hqs hk hc => cases ht

omit [DecidableEq Hash] in
/-- The snapshot that is handed out after a step is a new one, or no entry came in. -/
theorem Steady.published {P : ℕ → Prop} {tiers m : ℕ} (hH : H.Lawful) (hN : 2 ≤ N)
    (hD : 1 ≤ MAX_DEPTH) {disk : Disk Hash} {h h' : Shared Hash N MAX_DEPTH} {L : List Hash}
    (hs : Steady P W H tiers disk h L m) {a : Action Hash}
    (ha : World.SucceedsAll W ⟨disk, some h⟩ a)
    (hstep : World.handleStep W H ⟨disk, some h⟩ h a = some w') (hh' : w'.handle = some h')
    (hf : Forward disk h w'.disk h') : h'.snapshot = h'.inner.snapshot ∨
      h'.snapshot = h.snapshot ∧ World.logged W H ⟨disk, some h⟩ a = [] := by
  cases a with
  | call c admitted =>
      have hc := ha h rfl
      rw [hs.tree.refines.size] at hc
      simp only [World.handleStep] at hstep
      split_ifs at hstep with hlock hadm
      · cases hstep
        cases hh'
        rcases insertCall_cases (W := W) hH hN hD hs.tree.refines c with
          ⟨-, e, he⟩ | ⟨hup, root, inner, -, ⟨-, -, he⟩ | ⟨hno, -⟩⟩
        · right
          rw [he]
          refine ⟨rfl, ?_⟩
          simp only [World.logged, if_neg hlock, if_pos hadm, he]
        · left
          rw [he]
        · exact absurd (hc.resolve_left hup) hno
      · cases hstep
        cases hh'
        exact .inr ⟨rfl, by simp only [World.logged, if_neg hlock, if_neg hadm]⟩
  | _ => exact hf.snapshot.symm.imp_right fun h => ⟨h, rfl⟩

/-- **One step of a run**, with the process still there. -/
theorem CrashRun.spared_step (hW : W.Lawful) (hH : H.Lawful) (hN : 2 ≤ N) (hD : 1 ≤ MAX_DEPTH)
    (hr : CrashRun W H (fun w a => w.SucceedsFresh W a) ps k w) {h : Shared Hash N MAX_DEPTH}
    (hh : w.handle = some h) {a : Action Hash} (ha : w.SucceedsFresh W a)
    (hcrash : ∀ wal shards, a ≠ .crash wal shards) (hw : World.step W H w a = some w') :
    ∃ h', w'.handle = some h' ∧
      World.entriesAfter W H ps w w' a = ps ++ World.logged W H w a ∧
      (h'.snapshot = h'.inner.snapshot ∨
        h'.snapshot = h.snapshot ∧ World.logged W H w a = []) ∧
      ∀ {s : TreeSnapshot Hash N MAX_DEPTH} {L₀ : List Hash}, Spared H w.disk h s L₀ →
        L₀ <+: leavesOf ps → (∀ ok, a = .checkpointCapture ok → h.Spares s) →
        Spared H w'.disk h' s L₀ := by
  obtain ⟨-, m, hs⟩ := (hr.sound_fresh hW hH hN hD).steady hh
  obtain ⟨disk, handle⟩ := w
  cases hh
  have hfinds := hs.finds_fresh (ha.2 h rfl)
  obtain ⟨h', -, hh', -⟩ := hs.step hW hH hN hD hcrash hfinds hw
  have hm := hs.moved hW hN hD hcrash hfinds hw hh'
  refine ⟨h', hh', ?_, hs.published hH hN hD ha.1 hw hh' (hs.forward hH hN hD hm),
    fun hi hL hspares => hi.step hN hD hs hL hspares hm⟩
  cases a with
  | reopen pinAboveLevel verify par => cases hw
  | _ => rfl

/-- The snapshot that is handed out shows the tree. -/
theorem CrashRun.spared (hW : W.Lawful) (hH : H.Lawful) (hN : 2 ≤ N) (hD : 1 ≤ MAX_DEPTH)
    (hr : CrashRun W H (fun w a => w.SucceedsFresh W a) ps k w) :
    ∀ {h : Shared Hash N MAX_DEPTH}, w.handle = some h →
      Spared H w.disk h h.snapshot (leavesOf ps) := by
  induction hr with
  | start => rintro h ⟨⟩
  | @step ps k w w' a hr ha hw ih =>
      intro h' hh'
      obtain ⟨-, m', hs'⟩ := ((hr.step ha hw).sound_fresh hW hH hN hD).steady hh'
      cases hh : w.handle with
      | none =>
          unfold World.step at hw
          rw [hh] at hw
          cases a with
          | reopen pinAboveLevel verify par =>
              dsimp only at hw
              cases hopen : openTree W H pinAboveLevel verify par w.disk with
              | error e =>
                  rw [hopen] at hw
                  cases hw
                  rw [hh] at hh'
                  cases hh'
              | ok r =>
                  rw [hopen] at hw
                  cases hw
                  cases hh'
                  rw [openTree_snapshot hopen]
                  exact hs'.spared
          | _ => cases hw
      | some h =>
          by_cases hcrash : ∃ wal shards, a = .crash wal shards
          · obtain ⟨wal, shards, rfl⟩ := hcrash
            unfold World.step at hw
            rw [hh] at hw
            cases hw
            cases hh'
          · push Not at hcrash
            obtain ⟨h'', hh'', hps, hsnap, hstep⟩ := hr.spared_step hW hH hN hD hh ha hcrash hw
            obtain rfl : h' = h'' := by rwa [hh'', Option.some.injEq, eq_comm] at hh'
            rcases hsnap with hnew | ⟨hsame, hnone⟩
            · rw [hnew]
              exact hs'.spared
            · -- no leaf came in
              obtain ⟨-, m, hs⟩ := (hr.sound_fresh hW hH hN hD).steady hh
              have hi := ih hh
              rw [hps, hnone, List.append_nil, hsame]
              exact hstep hi List.prefix_rfl
                fun _ _ => .inl (hs.tree.refines.size.trans hi.shown.size.symm)

/-- There is no crash, and a checkpoint takes the levels only where that spares `s`. -/
def World.Spares (w : World Hash N MAX_DEPTH) (s : TreeSnapshot Hash N MAX_DEPTH) :
    Action Hash → Prop
  | .checkpointCapture _ => ∀ h, w.handle = some h → h.Spares s
  | .crash _ _ => False
  | _ => True

/-- A run goes on with steps that spare `s`. -/
def World.OnwardSparing (W : Wire Hash) (H : Hasher Hash) (s : TreeSnapshot Hash N MAX_DEPTH) :
    World Hash N MAX_DEPTH → World Hash N MAX_DEPTH → Prop :=
  Relation.ReflTransGen fun w w' =>
    ∃ a, w.SucceedsFresh W a ∧ w.Spares s a ∧ World.step W H w a = some w'

/-- **A snapshot stays what it was.**  In every run with crashes, whatever was recovered, the
snapshot that is handed out shows the tree over the entries, and it shows the same tree, with
valid proofs of all leaves, after any steps that spare it. -/
theorem CrashRun.snapshot_kept (hW : W.Lawful) (hH : H.Lawful) (hN : 2 ≤ N) (hN' : N ≤ 256)
    (hD : 1 ≤ MAX_DEPTH) (hr : CrashRun W H (fun w a => w.SucceedsFresh W a) ps k w)
    {h : Shared Hash N MAX_DEPTH} (hh : w.handle = some h)
    (hon : World.OnwardSparing W H h.snapshot w w') :
    h.snapshot.Refines w.disk.shards.fs H (leavesOf ps) ∧
    h.snapshot.Refines w'.disk.shards.fs H (leavesOf ps) ∧
    ∀ i < h.snapshot.size, ∃ p r, h.snapshot.generateProof w'.disk.shards.fs i = .ok p ∧
      (leavesOf ps)[i]? = some p.leaf ∧ h.snapshot.root = some r ∧
      p.verifyAgainst H r = .ok true := by
  have hi := hr.spared hW hH hN hD hh
  have hlater : ∃ (ps' : List (WalPayload Hash)) (k' : ℕ) (h' : Shared Hash N MAX_DEPTH),
      CrashRun W H (fun w a => w.SucceedsFresh W a) ps' k' w' ∧ w'.handle = some h' ∧
      leavesOf ps <+: leavesOf ps' ∧ Spared H w'.disk h' h.snapshot (leavesOf ps) := by
    induction hon with
    | refl => exact ⟨ps, k, h, hr, hh, List.prefix_rfl, hi⟩
    | tail _ hstep ih =>
        obtain ⟨ps₁, k₁, h₁, hr₁, hh₁, hL, hi₁⟩ := ih
        obtain ⟨a, ha, hspares, hw⟩ := hstep
        obtain ⟨h₂, hh₂, hps, -, hkeep⟩ := hr₁.spared_step hW hH hN hD hh₁ ha
          (by rintro wal shards rfl; exact hspares) hw
        refine ⟨_, _, h₂, hr₁.step ha hw, hh₂, ?_,
          hkeep hi₁ hL (by rintro ok rfl; exact hspares h₁ hh₁)⟩
        rw [hps, leavesOf_append]
        exact hL.trans (List.prefix_append _ _)
  obtain ⟨ps', k', h', -, -, -, hi'⟩ := hlater
  have hfit := ((hr.sound_fresh hW hH hN hD).steady hh).1.fits
  refine ⟨hi.shown, hi'.shown, fun i hlt => ?_⟩
  obtain ⟨p, r, hgen, hleaf, -, hroot, hverify⟩ := hi'.shown.proves hN hN' hD hfit hlt
  exact ⟨p, r, hgen, hleaf, hroot, hverify⟩

end Run

/-! ### A snapshot of recovered leaves -/

namespace World

/-- The steps of a process from `w` on, checked. -/
def goesOn (check : World Hash32 N MAX_DEPTH → Action Hash32 → Bool) (as : List (Action Hash32))
    (w : World Hash32 N MAX_DEPTH) : Option (World Hash32 N MAX_DEPTH) :=
  as.foldlM (fun w a => if check w a then World.step wincode byteHasher w a else none) w

theorem onward_of_goesOn {Q : World Hash32 N MAX_DEPTH → Action Hash32 → Prop}
    {check : World Hash32 N MAX_DEPTH → Action Hash32 → Bool} (hQ : ∀ w a, check w a = true → Q w a)
    {as : List (Action Hash32)} {w w' : World Hash32 N MAX_DEPTH} (h : goesOn check as w = some w') :
    Relation.ReflTransGen (fun w w' => ∃ a, Q w a ∧ World.step wincode byteHasher w a = some w')
      w w' := by
  refine foldlM_invariant (P := fun w' => Relation.ReflTransGen
    (fun w w' => ∃ a, Q w a ∧ World.step wincode byteHasher w a = some w') w w') ?_ .refl h
  intro w₁ a w₂ hon hstep
  split_ifs at hstep with hcheck
  exact hon.tail ⟨a, hQ w₁ a hcheck, hstep⟩

/-- A directory after a crash, opened again. -/
def reopened (w : World Hash32 N MAX_DEPTH) : Option (World Hash32 N MAX_DEPTH) :=
  World.step wincode byteHasher ⟨w.disk.stopped, none⟩ (.reopen 64 true fun _ _ => false)

end World

/-- All nodes of the chunks of `s` that are not counted are complete. -/
def Shared.sparesNow (h : Shared Hash N MAX_DEPTH) (s : TreeSnapshot Hash N MAX_DEPTH) : Bool :=
  (List.finRange MAX_DEPTH).all fun k => (List.range (s.levels k).chunks.length).all fun i =>
    decide (h.counted k ≤ i → min (s.levels k).len ((i + 1) * CHUNK_SIZE) * N ^ k.val ≤ s.size)

theorem Shared.spares_of_now {h : Shared Hash N MAX_DEPTH} {s : TreeSnapshot Hash N MAX_DEPTH}
    (hs : h.sparesNow s = true) : h.Spares s := by
  right
  intro k i c hc _ hi
  simp only [sparesNow, List.all_eq_true, List.mem_finRange, List.mem_range, true_imp_iff,
    decide_eq_true_eq] at hs
  exact hs k i (List.getElem?_eq_some_iff.mp hc).1 hi

/-- A step that spares `s`. -/
def World.sparesNow (w : World Hash32 N MAX_DEPTH) (s : TreeSnapshot Hash32 N MAX_DEPTH) :
    Action Hash32 → Bool
  | .checkpointCapture _ => w.handle.all fun h => h.sparesNow s
  | _ => true

theorem World.spares_of_now {w : World Hash32 N MAX_DEPTH} {s : TreeSnapshot Hash32 N MAX_DEPTH}
    {a : Action Hash32} (hnow : w.succeedsNow a = true) (ha : w.sparesNow s a = true) :
    w.Spares s a := by
  cases a with
  | checkpointCapture ok =>
      intro h hh
      simp only [World.sparesNow, hh, Option.all_some] at ha
      exact Shared.spares_of_now ha
  | crash wal shards => cases hnow
  | _ => trivial

theorem CrashRun.reopened {Q : World Hash32 N MAX_DEPTH → Action Hash32 → Prop}
    {ps : List (WalPayload Hash32)} {k : ℕ} {w w' : World Hash32 N MAX_DEPTH}
    (hr : CrashRun wincode byteHasher Q ps k w) (hh : w.handle.isSome = true)
    (hcrash : Q w w.disk.stop)
    (hreopen : ∀ disk pin verify par, Q ⟨disk, none⟩ (.reopen pin verify par))
    (hw : w.reopened = some w') : ∃ ps' k', CrashRun wincode byteHasher Q ps' k' w' := by
  obtain ⟨disk, handle⟩ := w
  obtain ⟨h, rfl⟩ := Option.isSome_iff_exists.mp hh
  exact ⟨_, _, (hr.stop hcrash).step (hreopen _ _ _ _) hw⟩

set_option maxRecDepth 20000 in
/-- Two leaves are recovered from a checkpoint, and a third one goes to the next checkpoint. -/
theorem pair_run : (World.crashRun (fun w a => w.succeedsNow a && w.freshNow a)
    (firstLeaves 2 ++ checkpointSteps 2 2) :
    Option (List (WalPayload Hash32) × ℕ × World Hash32 2 10)).any (fun s =>
      s.2.2.handle.isSome && s.2.2.reopened.any fun w => w.handle.any fun h =>
        decide (h.snapshot.size = 2 ∧ h.counted 0 = 0) &&
          (w.goesOn (fun w a => w.succeedsNow a && w.freshNow a && w.sparesNow h.snapshot a)
            (.call (.insert (byteHash 2)) false :: checkpointSteps 3 3)).any fun w' =>
              decide (lastCheckpoint wincode w'.disk = 3)) = true := by
  decide +kernel

/-- The snapshot of the recovered leaves, after the checkpoint that writes over what it maps. -/
theorem pair_kept : ∃ (w w' : World Hash32 2 10) (h : Shared Hash32 2 10)
    (ps : List (WalPayload Hash32)), w.handle = some h ∧ h.snapshot.size = 2 ∧ h.counted 0 = 0 ∧
      lastCheckpoint wincode w'.disk = 3 ∧
      h.snapshot.Refines w'.disk.shards.fs byteHasher (leavesOf ps) := by
  obtain ⟨⟨ps, k, w⟩, hrun, hend⟩ := (Option.any_eq_true _ _).mp pair_run
  obtain ⟨hopen, hend⟩ := Bool.and_eq_true_iff.mp hend
  obtain ⟨w₁, hw₁, hend⟩ := (Option.any_eq_true _ _).mp hend
  obtain ⟨h, hh, hend⟩ := (Option.any_eq_true _ _).mp hend
  obtain ⟨hsize, hend⟩ := Bool.and_eq_true_iff.mp hend
  obtain ⟨w', hw', hlast⟩ := (Option.any_eq_true _ _).mp hend
  obtain ⟨hsize, hcounted⟩ := of_decide_eq_true hsize
  have hfresh : ∀ {w : World Hash32 2 10} {a : Action Hash32}, w.succeedsNow a = true →
      w.freshNow a = true → w.SucceedsFresh wincode a := fun hnow hfresh =>
    ⟨(World.succeeds_of_now hnow).1, fun h hh => World.fresh_of_now hfresh hh (le_max_left _ _)⟩
  have hr : CrashRun wincode byteHasher (fun w a => w.SucceedsFresh wincode a) ps k w := by
    refine CrashRun.of_checked (fun w a ha => ?_) hrun
    obtain ⟨hnow, hf⟩ := Bool.and_eq_true_iff.mp ha
    exact hfresh hnow hf
  obtain ⟨ps₁, k₁, hr₁⟩ := hr.reopened hopen ⟨World.succeeds_stop _ _, fun _ _ => trivial⟩
    (fun _ _ _ _ => ⟨trivial, by rintro h ⟨⟩⟩) hw₁
  have hon : World.OnwardSparing wincode byteHasher h.snapshot w₁ w' := by
    have hQ := World.onward_of_goesOn (Q := fun w a => w.SucceedsFresh wincode a ∧
      w.Spares h.snapshot a) (fun w a ha => ?_) hw'
    · exact Relation.ReflTransGen.mono (fun w w' ⟨a, ⟨hf, hs⟩, hw⟩ => ⟨a, hf, hs, hw⟩) _ _ hQ
    · obtain ⟨ha, hs⟩ := Bool.and_eq_true_iff.mp ha
      obtain ⟨hnow, hf⟩ := Bool.and_eq_true_iff.mp ha
      exact ⟨hfresh hnow hf, World.spares_of_now hnow hs⟩
  exact ⟨w₁, w', h, ps₁, hh, hsize, hcounted, of_decide_eq_true hlast,
    (hr₁.snapshot_kept wincode_lawful (Hasher.scalar_lawful _) (by decide) (by decide) (by decide)
      hh hon).2.1⟩

set_option maxRecDepth 20000 in
/-- Three leaves are recovered, and a fourth one goes to the next checkpoint. -/
theorem triple_run : (World.crashRun World.succeedsNow (firstLeaves 3 ++ checkpointSteps 3 3) :
    Option (List (WalPayload Hash32) × ℕ × World Hash32 2 10)).any (fun s =>
      s.2.2.handle.isSome && s.2.2.reopened.any fun w => w.handle.any fun h =>
        (w.goesOn World.succeedsNow
          (.call (.insert (byteHash 3)) false :: checkpointSteps 3 3)).any fun w' =>
            decide (((h.snapshot.levels 1).get w'.disk.shards.fs 1).toOption ≠
              ((h.snapshot.levels 1).get w.disk.shards.fs 1).toOption) &&
            (h.snapshot.generateProof w'.disk.shards.fs 0).toOption.all fun p =>
              h.snapshot.root.all fun r =>
                decide ((p.verifyAgainst byteHasher r).toOption ≠ some true)) = true := by
  decide +kernel

/-- The snapshot of the recovered leaves shows the new node over the last one, and its proof for
the first leaf does not verify against its root. -/
theorem snapshot_overwritten : ∃ (ps : List (WalPayload Hash32)) (k : ℕ)
    (w w' : World Hash32 2 10) (h : Shared Hash32 2 10),
    CrashRun wincode byteHasher (fun w a => w.SucceedsAll wincode a) ps k w ∧ w.handle = some h ∧
      Relation.ReflTransGen (fun w w' => ∃ a,
        (w.SucceedsAll wincode a ∧ ∀ wal shards, a ≠ .crash wal shards) ∧
          World.step wincode byteHasher w a = some w') w w' ∧
      (h.snapshot.levels 1).get w'.disk.shards.fs 1 ≠ (h.snapshot.levels 1).get w.disk.shards.fs 1 ∧
      ¬ ∃ p r, h.snapshot.generateProof w'.disk.shards.fs 0 = .ok p ∧ h.snapshot.root = some r ∧
        p.verifyAgainst byteHasher r = .ok true := by
  obtain ⟨⟨ps, k, w⟩, hrun, hend⟩ := (Option.any_eq_true _ _).mp triple_run
  obtain ⟨hopen, hend⟩ := Bool.and_eq_true_iff.mp hend
  obtain ⟨w₁, hw₁, hend⟩ := (Option.any_eq_true _ _).mp hend
  obtain ⟨h, hh, hend⟩ := (Option.any_eq_true _ _).mp hend
  obtain ⟨w', hw', hend⟩ := (Option.any_eq_true _ _).mp hend
  obtain ⟨hnode, hproof⟩ := Bool.and_eq_true_iff.mp hend
  have hr : CrashRun wincode byteHasher (fun w a => w.SucceedsAll wincode a) ps k w :=
    CrashRun.of_checked (fun w a ha => (World.succeeds_of_now ha).1) hrun
  obtain ⟨ps₁, k₁, hr₁⟩ := hr.reopened hopen (World.succeeds_stop _ _) (fun _ _ _ _ => trivial) hw₁
  refine ⟨ps₁, k₁, w₁, w', h, hr₁, hh,
    World.onward_of_goesOn (fun w a => World.succeeds_of_now) hw', ?_, ?_⟩
  · intro hsame
    exact of_decide_eq_true hnode (congrArg Except.toOption hsame)
  · rintro ⟨p, r, hgen, hroot, hverify⟩
    rw [hgen, hroot] at hproof
    have hne := of_decide_eq_true hproof
    rw [hverify] at hne
    exact hne rfl

end Works.Rotortree
