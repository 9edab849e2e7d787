import Works.Rotortree.ChunkedLevel

/-! # The tree

`TreeInner` and the two insertions of `tree.rs`.  Both run in `TreeM`, which keeps the tree
as it was left when an insertion stops early.  `insert_many` takes the choice between the
sequential and the parallel path of each level as an argument `par`: the `parallel` feature
asks whether the number of parents to compute reaches a threshold, and without the feature
the answer is always no.

Positions in a stored level are natural numbers: a level of `n` nodes occupies `32 * n` bytes
of one address space, so the products and sums the source forms from them do not wrap. -/

namespace Works.Rotortree

open Works.Lib

/-- `PARENT_WINDOW`: parents gathered per `hash_many_into` call. -/
def PARENT_WINDOW : ℕ := 16

/-- `TreeInner`: the levels below the root, and the root. -/
structure TreeInner (Hash : Type) (N MAX_DEPTH : ℕ) where
  levels : Fin MAX_DEPTH → ChunkedLevel Hash
  root : Option Hash
  size : ℕ
  depth : ℕ

/-- `TreeSnapshot`. -/
structure TreeSnapshot (Hash : Type) (N MAX_DEPTH : ℕ) where
  levels : Fin MAX_DEPTH → ChunkedLevel Hash
  root : Option Hash
  size : ℕ
  depth : ℕ

/-- Computations on a tree. -/
abbrev TreeM (Hash : Type) (N MAX_DEPTH : ℕ) := Exec (TreeInner Hash N MAX_DEPTH) TreeError

variable {Hash : Type} {N MAX_DEPTH : ℕ}

namespace TreeInner

/-- `TreeInner::new`. -/
def new : TreeInner Hash N MAX_DEPTH := ⟨fun _ => ChunkedLevel.new, none, 0, 0⟩

/-- `TreeInner::snapshot`: the levels up to the root level, by value. -/
def snapshot (t : TreeInner Hash N MAX_DEPTH) : TreeSnapshot Hash N MAX_DEPTH where
  levels k := if k.val < min (t.depth + 1) MAX_DEPTH then t.levels k else ChunkedLevel.new
  root := t.root
  size := t.size
  depth := t.depth

/-- `levels[k]`. -/
def level (t : TreeInner Hash N MAX_DEPTH) (k : ℕ) : Outcome TreeError (ChunkedLevel Hash) :=
  FixedArray.index t.levels k

/-- Replace `levels[k]`. -/
def setLevel (t : TreeInner Hash N MAX_DEPTH) (k : ℕ) (lvl : ChunkedLevel Hash) :
    TreeInner Hash N MAX_DEPTH :=
  { t with levels := fun i => if i.val = k then lvl else t.levels i }

end TreeInner

/-- `levels[k]` of the current tree. -/
def readLevel (k : ℕ) : TreeM Hash N MAX_DEPTH (ChunkedLevel Hash) := do
  let t ← Exec.get
  Exec.lift (t.level k)

/-- Apply an operation to `levels[k]`. -/
def updateLevel (k : ℕ) (f : ChunkedLevel Hash → Outcome TreeError (ChunkedLevel Hash)) :
    TreeM Hash N MAX_DEPTH Unit := do
  let lvl ← readLevel k
  let lvl' ← Exec.lift (f lvl)
  Exec.modify fun t => t.setLevel k lvl'

variable [Zero Hash] (fs : ShardFs Hash) (H : Hasher Hash)

/-! ### `_insert` -/

/-- The hash one level up after `rung` was written at `locus`: the group so far is hashed, and
a node that opens its group is lifted. -/
def climb (N : ℕ) (lvl : ChunkedLevel Hash) (rung : Hash) (locus : ℕ) : Outcome TreeError Hash :=
  let siblingRank := locus % N
  if siblingRank ≠ 0 then do
    let groupStart := locus - siblingRank
    let group ← lvl.getGroup fs groupStart siblingRank
    let children ← FixedArray.copyFromSlice (fun _ : Fin N => (0 : Hash)) 0 siblingRank group
    let children ← FixedArray.setAt children siblingRank rung
    let tally ← FixedArray.slice children 0 (siblingRank + 1)
    pure (H.hashChildren tally)
  else pure rung

/-- The loop of `_insert` over the levels below the root. -/
def insertPath : ℕ → ℕ → Hash → ℕ → TreeM Hash N MAX_DEPTH Hash
  | 0, _, rung, _ => pure rung
  | n + 1, level, rung, locus => do
      updateLevel level fun lvl => lvl.set fs locus rung
      let lvl ← readLevel level
      let rung' ← Exec.lift (climb fs H N lvl rung locus)
      insertPath n (level + 1) rung' (locus / N)

/-- The end of `_insert`: the root's slot, which does not exist at `MAX_DEPTH`. -/
def storeRoot (depth : ℕ) (rung : Hash) : TreeM Hash N MAX_DEPTH Unit :=
  if depth < MAX_DEPTH then updateLevel depth fun lvl => lvl.set fs 0 rung else pure ()

/-- `_insert`: append one leaf, rewriting the path above it. -/
def insert (leaf : Hash) : TreeM Hash N MAX_DEPTH Hash := do
  let inner ← Exec.get
  let newSize ← Exec.lift (checkedAdd inner.size 1 .capacityExceeded)
  let depth := ceilLogN newSize N
  if MAX_DEPTH < depth then Exec.fail (.maxDepthExceeded MAX_DEPTH)
  else do
    let index ← Exec.lift (u64ToUsize inner.size)
    let rung ← insertPath fs H depth 0 leaf index
    storeRoot fs depth rung
    Exec.modify fun t => { t with root := some rung, size := newSize, depth := depth }
    pure rung

/-! ### Parents -/

/-- `_compute_parent`. -/
def computeParent (N : ℕ) (child : ChunkedLevel Hash) (parentIdx levelLen : ℕ) :
    Outcome TreeError Hash := do
  let groupStart := parentIdx * N
  let groupEnd := min (groupStart + N) levelLen
  Outcome.require (groupStart ≤ groupEnd)
  let tally := groupEnd - groupStart
  if tally = 1 then child.get fs groupStart
  else do
    let group ← child.getGroup fs groupStart tally
    let children ← FixedArray.copyFromSlice (fun _ : Fin N => (0 : Hash)) 0 tally group
    let slice ← FixedArray.slice children 0 tally
    pure (H.hashChildren slice)

/-- `chunks_exact(n)`. -/
def chunksExact (n : ℕ) (l : List Hash) : List (List Hash) :=
  (List.range (l.length / n)).map fun j => (l.drop (j * n)).take n

omit [Zero Hash] in
/-- The windows of `_compute_parents_batched`: groups are gathered in `refs` and hashed when
there are `PARENT_WINDOW` of them, the last ones at the end. -/
def hashWindows : List (List Hash) → List (List Hash) → List Hash → List Hash
  | [], refs, out => if refs.isEmpty then out else out ++ H.hashManyInto refs
  | g :: gs, refs, out =>
      if (refs ++ [g]).length = PARENT_WINDOW then
        hashWindows gs [] (out ++ H.hashManyInto (refs ++ [g]))
      else hashWindows gs (refs ++ [g]) out

/-- `.expect(..)` on a `Result`. -/
def unwrap {α : Type} : Outcome TreeError α → Outcome TreeError α
  | .ok a => .ok a
  | .error _ => .panic

/-- `_compute_parents_batched`: parents `startParent ..` into `outLen` slots, full groups in
windows when `N` divides the chunk size, the others one by one. -/
def computeParentsBatched (N : ℕ) (child : ChunkedLevel Hash) (startParent levelLen outLen : ℕ) :
    Outcome TreeError (List Hash) := do
  let full := if CHUNK_SIZE % N = 0 then min (levelLen / N - startParent) outLen else 0
  let rs ← child.runs fs (startParent * N) (full * N)
  let batched := hashWindows H (rs.flatMap (chunksExact N)) [] []
  Outcome.require (batched.length ≤ outLen)
  let rest ← (List.range (outLen - batched.length)).mapM fun i =>
    unwrap (computeParent fs H N child (startParent + batched.length + i) levelLen)
  pure (batched ++ rest)

/-! ### `_insert_many` -/

/-- `_insert_many_level_seq`; returns the root as it stands after the level. -/
def insertManyLevelSeq (level startParent numParents levelLen : ℕ) (isRootLevel : Bool)
    (root : Hash) : TreeM Hash N MAX_DEPTH Hash := do
  let nextLevel := level + 1
  Exec.lift (Outcome.require (startParent ≤ numParents))
  if nextLevel < MAX_DEPTH then do
    updateLevel nextLevel fun lvl => lvl.ensureLen fs numParents
    let child ← readLevel level
    updateLevel nextLevel fun lvl => lvl.writeWith fs startParent (numParents - startParent)
      fun off n => computeParentsBatched fs H N child (startParent + off) levelLen n
    let parent ← readLevel nextLevel
    if isRootLevel then Exec.lift (parent.get fs (numParents - 1)) else pure root
  else do
    let child ← readLevel level
    let ps ← Exec.lift ((List.range (numParents - startParent)).mapM fun i =>
      computeParent fs H N child (startParent + i) levelLen)
    if isRootLevel then pure (ps.getLast?.getD root) else pure root

/-- The parallel path of one level of `_insert_many`: the parent that already exists is
overwritten, the others are appended. -/
def insertManyLevelPar (level startParent numParents levelLen : ℕ) (isRootLevel : Bool)
    (root : Hash) : TreeM Hash N MAX_DEPTH Hash := do
  Exec.lift (Outcome.require (startParent ≤ numParents))
  let work := numParents - startParent
  let child ← readLevel level
  let parent ← readLevel (level + 1)
  let overlap := if startParent < parent.len then 1 else 0
  updateLevel (level + 1) fun lvl =>
    if overlap = 1 then
      lvl.writeWith fs startParent 1 fun _ n =>
        computeParentsBatched fs H N child startParent levelLen n
    else pure lvl
  Exec.lift (Outcome.require (overlap ≤ work))
  updateLevel (level + 1) fun lvl => lvl.extendWith fs (work - overlap)
    fun off n => computeParentsBatched fs H N child (startParent + overlap + off) levelLen n
  let parent ← readLevel (level + 1)
  if isRootLevel then Exec.lift (parent.get fs (numParents - 1)) else pure root

/-- One level of `_insert_many`, by whichever path is taken. -/
def insertManyLevel (par : ℕ → ℕ → Bool) (level startParent numParents levelLen : ℕ)
    (isRootLevel : Bool) (root : Hash) : TreeM Hash N MAX_DEPTH Hash :=
  if par level (numParents - startParent) && level + 1 < MAX_DEPTH then
    insertManyLevelPar fs H level startParent numParents levelLen isRootLevel root
  else insertManyLevelSeq fs H level startParent numParents levelLen isRootLevel root

/-- The loop of `_insert_many`: `n` levels from `level` up. -/
def insertManyLevels (par : ℕ → ℕ → Bool) : ℕ → ℕ → ℕ → Hash → TreeM Hash N MAX_DEPTH Hash
  | 0, _, _, root => pure root
  | n + 1, level, startParent, root => do
      let lvl ← readLevel level
      let levelLen := lvl.len
      let numParents := levelLen ⌈/⌉ N
      let isRootLevel := n == 0
      let root' ← insertManyLevel fs H par level startParent numParents levelLen isRootLevel root
      insertManyLevels par n (level + 1) (startParent / N) root'

/-- `_insert_many`. -/
def insertMany (par : ℕ → ℕ → Bool) (leaves : List Hash) : TreeM Hash N MAX_DEPTH Hash := do
  if leaves.isEmpty then Exec.fail .emptyBatch
  else do
    let inner ← Exec.get
    let newSize ← Exec.lift (checkedAdd inner.size leaves.length .capacityExceeded)
    let depth := ceilLogN newSize N
    if MAX_DEPTH < depth then Exec.fail (.maxDepthExceeded MAX_DEPTH)
    else do
      updateLevel 0 fun lvl => lvl.extend fs leaves
      let oldSize ← Exec.lift (u64ToUsize inner.size)
      let level0 ← readLevel 0
      let root₀ ← Exec.lift (if depth = 0 then level0.get fs 0 else pure 0)
      let root ← insertManyLevels fs H par depth 0 (oldSize / N) root₀
      Exec.modify fun t => { t with root := some root, size := newSize, depth := depth }
      pure root

end Works.Rotortree
