import Works.Rotortree.Tree

/-! # Proofs

Inclusion and consistency proofs (`proof.rs`): their generators over a snapshot, their
verifiers, and the update of an inclusion proof along a consistency proof.  The verifiers read
values an adversary chose: counts are bytes, slices and indices are checked, and the one sum of
two sizes that can leave `usize` is checked as well (`expectedNewCount`). -/

namespace Works.Rotortree

open Works.Lib

/-- `ProofLevel`. -/
structure ProofLevel (Hash : Type) (N : ℕ) where
  position : UInt8
  siblingCount : UInt8
  siblings : Fin N → Hash

/-- `NaryProof`. -/
structure NaryProof (Hash : Type) (N MAX_DEPTH : ℕ) where
  root : Hash
  leaf : Hash
  leafIndex : ℕ
  treeSize : ℕ
  levelCount : ℕ
  levels : Fin MAX_DEPTH → ProofLevel Hash N

/-- `ConsistencyLevel`. -/
structure ConsistencyLevel (Hash : Type) (N : ℕ) where
  sharedCount : UInt8
  newCount : UInt8
  hashes : Fin N → Hash

/-- `ConsistencyProof`. -/
structure ConsistencyProof (Hash : Type) (N MAX_DEPTH : ℕ) where
  oldRoot : Hash
  newRoot : Hash
  oldSize : ℕ
  newSize : ℕ
  levelCount : ℕ
  levels : Fin MAX_DEPTH → ConsistencyLevel Hash N

variable {Hash : Type} {N MAX_DEPTH : ℕ}

/-- `ProofLevel::EMPTY`. -/
def ProofLevel.EMPTY [Zero Hash] : ProofLevel Hash N := ⟨0, 0, fun _ => 0⟩

/-- `ConsistencyLevel::EMPTY`. -/
def ConsistencyLevel.EMPTY [Zero Hash] : ConsistencyLevel Hash N := ⟨0, 0, fun _ => 0⟩

/-- `new_hashes`. -/
def ConsistencyLevel.newHashes (level : ConsistencyLevel Hash N) : Outcome TreeError (List Hash) :=
  FixedArray.slice level.hashes level.sharedCount.toNat
    (level.sharedCount.toNat + level.newCount.toNat)

/-! ### Inclusion -/

namespace NaryProof

section Verify

variable (H : Hasher Hash)

/-- One level of `verify`: the new `current` and the reused `children` buffer. -/
def verifyLevel (level : ProofLevel Hash N) (expectedIndex : ℕ) (current : Hash)
    (children : Fin N → Hash) : Outcome TreeError (Hash × (Fin N → Hash)) :=
  if level.position.toNat ≠ expectedIndex % N then .fail .mathError
  else if 0 < level.siblingCount.toNat then
    let total := level.siblingCount.toNat + 1
    let pos := level.position.toNat
    if N < total ∨ total ≤ pos then .fail .mathError
    else do
      let left ← FixedArray.slice level.siblings 0 pos
      let children ← FixedArray.copyFromSlice children 0 pos left
      let children ← FixedArray.setAt children pos current
      let rest := total - pos - 1
      let right ← FixedArray.slice level.siblings pos (pos + rest)
      let children ← FixedArray.copyFromSlice children (pos + 1) total right
      let group ← FixedArray.slice children 0 total
      pure (H.hashChildren group, children)
  else pure (current, children)

/-- The loop of `verify`. -/
def verifyLevels : List (ProofLevel Hash N) → ℕ → Hash → (Fin N → Hash) → Outcome TreeError Hash
  | [], _, current, _ => pure current
  | level :: rest, expectedIndex, current, children => do
      let step ← verifyLevel H level expectedIndex current children
      verifyLevels rest (expectedIndex / N) step.1 step.2

/-- `NaryProof::verify`. -/
def verify [Zero Hash] [DecidableEq Hash] (p : NaryProof Hash N MAX_DEPTH) : Outcome TreeError Bool :=
  if p.treeSize = 0 ∨ p.treeSize ≤ p.leafIndex then .fail .mathError
  else
    let expectedDepth := ceilLogN p.treeSize N
    if p.levelCount ≠ expectedDepth ∨ MAX_DEPTH < expectedDepth then
      .fail (.invalidProofDepth expectedDepth p.levelCount)
    else do
      let expectedIndex ← u64ToUsize p.leafIndex
      let levels ← FixedArray.slice p.levels 0 p.levelCount
      let current ← verifyLevels H levels expectedIndex p.leaf fun _ => 0
      pure (current == p.root)

/-- `NaryProof::verify_against`. -/
def verifyAgainst [Zero Hash] [DecidableEq Hash] (p : NaryProof Hash N MAX_DEPTH)
    (trustedRoot : Hash) : Outcome TreeError Bool :=
  if p.root ≠ trustedRoot then .ok false else p.verify H

end Verify

end NaryProof

namespace TreeSnapshot

/-- `levels[k]`. -/
def level (s : TreeSnapshot Hash N MAX_DEPTH) (k : ℕ) : Outcome TreeError (ChunkedLevel Hash) :=
  FixedArray.index s.levels k

variable [Zero Hash] (fs : ShardFs Hash)

/-- One level of `generate_proof`. -/
def proofLevel (s : TreeSnapshot Hash N MAX_DEPTH) (level index : ℕ) :
    Outcome TreeError (ProofLevel Hash N) := do
  let lvl ← s.level level
  let childPos := index % N
  let groupStart := index - childPos
  let groupEnd := min (groupStart + N) lvl.len
  Outcome.require (groupStart + childPos + 1 ≤ groupEnd)
  let groupSize := groupEnd - groupStart
  let nodes ← lvl.getGroup fs groupStart groupSize
  let group ← FixedArray.copyFromSlice (fun _ : Fin N => (0 : Hash)) 0 groupSize nodes
  let left ← FixedArray.slice group 0 childPos
  let siblings ← FixedArray.copyFromSlice (fun _ : Fin N => (0 : Hash)) 0 childPos left
  let rest := groupSize - childPos - 1
  let right ← FixedArray.slice group (childPos + 1) groupSize
  let siblings ← FixedArray.copyFromSlice siblings childPos (childPos + rest) right
  let position ← toU8 childPos
  let siblingCount ← toU8 (groupSize - 1)
  pure ⟨position, siblingCount, siblings⟩

/-- The loop of `generate_proof`: `n` levels from `level` up. -/
def proofLevels (s : TreeSnapshot Hash N MAX_DEPTH) :
    ℕ → ℕ → ℕ → (Fin MAX_DEPTH → ProofLevel Hash N) →
      Outcome TreeError (Fin MAX_DEPTH → ProofLevel Hash N)
  | 0, _, _, levels => pure levels
  | n + 1, level, index, levels => do
      let pl ← s.proofLevel fs level index
      let levels ← FixedArray.setAt levels level pl
      proofLevels s n (level + 1) (index / N) levels

/-- `TreeSnapshot::generate_proof`. -/
def generateProof (s : TreeSnapshot Hash N MAX_DEPTH) (leafIndex : ℕ) :
    Outcome TreeError (NaryProof Hash N MAX_DEPTH) :=
  if s.size ≤ leafIndex then .fail (.indexOutOfRange leafIndex s.size)
  else do
    let leafIdx ← u64ToUsize leafIndex
    let levels ← s.proofLevels fs s.depth 0 leafIdx fun _ => ProofLevel.EMPTY
    let root ← Outcome.expect s.root
    let level0 ← s.level 0
    let leaf ← level0.get fs leafIdx
    pure ⟨root, leaf, leafIndex, s.size, s.depth, levels⟩

end TreeSnapshot

/-! ### Consistency -/

/-- `new_level_size.min(group_start + N) - boundary - 1`, with its overflow checks. -/
def expectedNewCount (N boundary groupStart newLevelSize : ℕ) : Outcome TreeError ℕ := do
  Outcome.require (groupStart + N < U64_SIZE)
  Outcome.require (boundary + 1 ≤ min newLevelSize (groupStart + N))
  pure (min newLevelSize (groupStart + N) - boundary - 1)

namespace ConsistencyProof

/-- `while os > 1 || ns > 1`: both sizes shrink until they are one. -/
def layers (N : ℕ) : ℕ → ℕ → ℕ → ℕ
  | 0, _, _ => 0
  | fuel + 1, os, ns => if 1 < os ∨ 1 < ns then layers N fuel (os ⌈/⌉ N) (ns ⌈/⌉ N) + 1 else 0

/-- `expected_depth`; the larger size bounds the number of rounds. -/
def expectedDepth (N os ns : ℕ) : ℕ := layers N (os + ns) os ns

/-- What `verify` carries from level to level. -/
structure Cursor (Hash : Type) (N : ℕ) where
  oldLevelSize : ℕ
  newLevelSize : ℕ
  oldHash : Hash
  newHash : Hash
  children : Fin N → Hash

variable (H : Hasher Hash)

/-- `old_mid` and `new_mid`. -/
def mids (level : ConsistencyLevel Hash N) (i boundaryPos : ℕ) (c : Cursor Hash N) :
    Outcome TreeError (Hash × Hash) :=
  if i = 0 then do
    let mid ← FixedArray.index level.hashes boundaryPos
    pure (mid, mid)
  else pure (c.oldHash, c.newHash)

/-- Hash the first `count` children, unless there is only `mid`. -/
def hashFirst (children : Fin N → Hash) (count : ℕ) (mid : Hash) : Outcome TreeError Hash :=
  if 1 < count then do
    let group ← FixedArray.slice children 0 count
    pure (H.hashChildren group)
  else pure mid

/-- One level of `verify`. -/
def verifyLevel (i : ℕ) (level : ConsistencyLevel Hash N) (c : Cursor Hash N) :
    Outcome TreeError (Cursor Hash N) := do
  let shared := level.sharedCount.toNat
  let newOnly := level.newCount.toNat
  Outcome.require (1 ≤ c.oldLevelSize)
  let boundary := c.oldLevelSize - 1
  let boundaryPos := boundary % N
  let groupStart := boundary - boundaryPos
  let expectedShared := if i = 0 then boundaryPos + 1 else boundaryPos
  let expectedNew ← expectedNewCount N boundary groupStart c.newLevelSize
  if shared ≠ expectedShared ∨ newOnly ≠ expectedNew then .fail .mathError
  else do
    let mid ← mids level i boundaryPos c
    let newChildCount := boundaryPos + 1 + newOnly
    let left ← FixedArray.slice level.hashes 0 boundaryPos
    let children ← FixedArray.copyFromSlice c.children 0 boundaryPos left
    let children ← FixedArray.setAt children boundaryPos mid.1
    let oldHash ← hashFirst H children (boundaryPos + 1) mid.1
    let children ← FixedArray.setAt children boundaryPos mid.2
    let new ← level.newHashes
    let children ← FixedArray.copyFromSlice children (boundaryPos + 1) newChildCount new
    let newHash ← hashFirst H children newChildCount mid.2
    pure ⟨c.oldLevelSize ⌈/⌉ N, c.newLevelSize ⌈/⌉ N, oldHash, newHash, children⟩

/-- The loop of `verify`. -/
def verifyLevels : ℕ → List (ConsistencyLevel Hash N) → Cursor Hash N →
    Outcome TreeError (Cursor Hash N)
  | _, [], c => pure c
  | i, level :: rest, c => do
      let c ← verifyLevel H i level c
      verifyLevels (i + 1) rest c

variable [Zero Hash] [DecidableEq Hash]

/-- `ConsistencyProof::verify`. -/
def verify (p : ConsistencyProof Hash N MAX_DEPTH) : Outcome TreeError Bool :=
  if p.oldSize = 0 ∨ p.newSize = 0 ∨ p.newSize < p.oldSize ∨ MAX_DEPTH < p.levelCount then
    .fail .mathError
  else if p.oldSize = p.newSize then .ok (p.oldRoot == p.newRoot)
  else if p.levelCount = 0 then .ok false
  else do
    let oldLevelSize ← u64ToUsize p.oldSize
    let newLevelSize ← u64ToUsize p.newSize
    if p.levelCount ≠ expectedDepth N oldLevelSize newLevelSize then
      .fail (.invalidProofDepth (expectedDepth N oldLevelSize newLevelSize) p.levelCount)
    else do
      let levels ← FixedArray.slice p.levels 0 p.levelCount
      let c ← verifyLevels H 0 levels ⟨oldLevelSize, newLevelSize, 0, 0, fun _ => 0⟩
      pure (c.oldHash == p.oldRoot && c.newHash == p.newRoot)

/-- `ConsistencyProof::verify_against`. -/
def verifyAgainst (p : ConsistencyProof Hash N MAX_DEPTH) (trustedOldRoot trustedNewRoot : Hash) :
    Outcome TreeError Bool :=
  if p.oldRoot ≠ trustedOldRoot ∨ p.newRoot ≠ trustedNewRoot then .ok false else p.verify H

/-- `ConsistencyProof::verify_transition`. -/
def verifyTransition (p : ConsistencyProof Hash N MAX_DEPTH) (trustedOldRoot : Hash) :
    Outcome TreeError Bool :=
  p.verifyAgainst H trustedOldRoot p.newRoot

end ConsistencyProof

namespace TreeSnapshot

variable [Zero Hash] (fs : ShardFs Hash)

/-- One level of `generate_consistency_proof`. -/
def consistencyLevel (s : TreeSnapshot Hash N MAX_DEPTH) (depth oldLevelSize newLevelSize : ℕ) :
    Outcome TreeError (ConsistencyLevel Hash N) := do
  Outcome.require (1 ≤ oldLevelSize)
  let boundary := oldLevelSize - 1
  let boundaryPos := boundary % N
  let groupStart := boundary - boundaryPos
  let shared := if depth = 0 then boundaryPos + 1 else boundaryPos
  let newCount ← expectedNewCount N boundary groupStart newLevelSize
  let lvl ← s.level depth
  let left ← lvl.getGroup fs groupStart shared
  let hashes ← FixedArray.copyFromSlice (fun _ : Fin N => (0 : Hash)) 0 shared left
  let right ← lvl.getGroup fs (boundary + 1) newCount
  let hashes ← FixedArray.copyFromSlice hashes shared (shared + newCount) right
  let sharedCount ← toU8 shared
  let newCount ← toU8 newCount
  pure ⟨sharedCount, newCount, hashes⟩

/-- The loop of `generate_consistency_proof`: the number of levels and the levels. -/
def consistencyLevels (s : TreeSnapshot Hash N MAX_DEPTH) :
    ℕ → ℕ → ℕ → ℕ → (Fin MAX_DEPTH → ConsistencyLevel Hash N) →
      Outcome TreeError (ℕ × (Fin MAX_DEPTH → ConsistencyLevel Hash N))
  | 0, depth, _, _, levels => pure (depth, levels)
  | fuel + 1, depth, os, ns, levels =>
      if 1 < os ∨ 1 < ns then
        if MAX_DEPTH ≤ depth then .fail .mathError
        else do
          let cl ← s.consistencyLevel fs depth os ns
          let levels ← FixedArray.setAt levels depth cl
          consistencyLevels s fuel (depth + 1) (os ⌈/⌉ N) (ns ⌈/⌉ N) levels
      else pure (depth, levels)

/-- `TreeSnapshot::generate_consistency_proof`. -/
def generateConsistencyProof (s : TreeSnapshot Hash N MAX_DEPTH) (oldSize : ℕ) (oldRoot : Hash) :
    Outcome TreeError (ConsistencyProof Hash N MAX_DEPTH) :=
  if oldSize = 0 ∨ s.size = 0 ∨ s.size < oldSize then .fail (.indexOutOfRange oldSize s.size)
  else do
    let newRoot ← Outcome.expect s.root
    if oldSize = s.size then
      pure ⟨oldRoot, newRoot, oldSize, s.size, 0, fun _ => ConsistencyLevel.EMPTY⟩
    else do
      let oldLevelSize ← u64ToUsize oldSize
      let newLevelSize ← u64ToUsize s.size
      let res ← s.consistencyLevels fs (oldLevelSize + newLevelSize) 0 oldLevelSize newLevelSize
        fun _ => ConsistencyLevel.EMPTY
      pure ⟨oldRoot, newRoot, oldSize, s.size, res.1, res.2⟩

end TreeSnapshot

/-! ### Updating an inclusion proof -/

namespace ConsistencyProof

variable [Zero Hash] (H : Hasher Hash)

/-- The old group of the member, without the member itself, and its size. -/
def oldGroup (oldProof : NaryProof Hash N MAX_DEPTH) (treeLevel memberPos : ℕ) :
    Outcome TreeError ((Fin N → Hash) × ℕ) :=
  if treeLevel < oldProof.levelCount then do
    let oldLevel ← FixedArray.index oldProof.levels treeLevel
    let groupSize := oldLevel.siblingCount.toNat + 1
    let left ← FixedArray.slice oldLevel.siblings 0 memberPos
    let group ← FixedArray.copyFromSlice (fun _ : Fin N => (0 : Hash)) 0 memberPos left
    if memberPos + 1 < groupSize then do
      let right ← FixedArray.slice oldLevel.siblings memberPos (groupSize - 1)
      let group ← FixedArray.copyFromSlice group (memberPos + 1) groupSize right
      pure (group, groupSize)
    else pure (group, groupSize)
  else pure (fun _ => 0, 1)

omit [Zero Hash] in
/-- `group[boundary_pos] = new_boundary_hash`, above the leaves and beside the member. -/
def refreshBoundary (group : Fin N → Hash) (treeLevel memberPos boundaryPos : ℕ)
    (newBoundaryHash : Hash) : Outcome TreeError (Fin N → Hash) :=
  if 0 < treeLevel ∧ memberPos ≠ boundaryPos then
    FixedArray.setAt group boundaryPos newBoundaryHash
  else pure group

omit [Zero Hash] in
/-- The new nodes, after the old group. -/
def appendNew (group : Fin N → Hash) (level : ConsistencyLevel Hash N) (oldGroupSize : ℕ) :
    Outcome TreeError (Fin N → Hash) :=
  if 0 < level.newCount.toNat then do
    let new ← level.newHashes
    FixedArray.copyFromSlice group oldGroupSize (oldGroupSize + level.newCount.toNat) new
  else pure group

/-- The siblings of the member in a group. -/
def siblingsOf (group : Fin N → Hash) (memberPos groupSize : ℕ) :
    Outcome TreeError (Fin N → Hash) := do
  let left ← FixedArray.slice group 0 memberPos
  let siblings ← FixedArray.copyFromSlice (fun _ : Fin N => (0 : Hash)) 0 memberPos left
  if memberPos + 1 < groupSize then do
    let right ← FixedArray.slice group (memberPos + 1) groupSize
    FixedArray.copyFromSlice siblings memberPos (groupSize - 1) right
  else pure siblings

/-- The level of the new proof when the member is in the boundary group. -/
def boundaryLevel (oldProof : NaryProof Hash N MAX_DEPTH) (level : ConsistencyLevel Hash N)
    (treeLevel memberPos boundaryPos : ℕ) (newBoundaryHash : Hash) :
    Outcome TreeError (ProofLevel Hash N) := do
  let old ← oldGroup oldProof treeLevel memberPos
  let group ← refreshBoundary old.1 treeLevel memberPos boundaryPos newBoundaryHash
  let group ← appendNew group level old.2
  let newGroupSize := old.2 + level.newCount.toNat
  let siblings ← siblingsOf group memberPos newGroupSize
  let position ← toU8 memberPos
  let siblingCount ← toU8 (newGroupSize - 1)
  pure ⟨position, siblingCount, siblings⟩

/-- The new levels after one level of the loop. -/
def updateLevel (oldProof : NaryProof Hash N MAX_DEPTH) (level : ConsistencyLevel Hash N)
    (treeLevel boundary memberIdx : ℕ) (newBoundaryHash : Hash)
    (newLevels : Fin MAX_DEPTH → ProofLevel Hash N) :
    Outcome TreeError (Fin MAX_DEPTH → ProofLevel Hash N) :=
  if memberIdx / N ≠ boundary / N then
    if treeLevel < oldProof.levelCount then do
      let oldLevel ← FixedArray.index oldProof.levels treeLevel
      FixedArray.setAt newLevels treeLevel oldLevel
    else pure newLevels
  else do
    let pl ← boundaryLevel oldProof level treeLevel (memberIdx % N) (boundary % N) newBoundaryHash
    FixedArray.setAt newLevels treeLevel pl

omit [Zero Hash] in
/-- `mid`. -/
def updateMid (level : ConsistencyLevel Hash N) (treeLevel boundaryPos : ℕ)
    (newBoundaryHash : Hash) : Outcome TreeError Hash :=
  if treeLevel = 0 then FixedArray.index level.hashes boundaryPos else pure newBoundaryHash

omit [Zero Hash] in
/-- The boundary node of the new tree one level up, and the reused `children` buffer. -/
def nextBoundaryHash (level : ConsistencyLevel Hash N) (boundaryPos : ℕ) (mid : Hash)
    (children : Fin N → Hash) : Outcome TreeError (Hash × (Fin N → Hash)) :=
  let childCount := boundaryPos + 1 + level.newCount.toNat
  if childCount = 1 then pure (mid, children)
  else do
    let left ← FixedArray.slice level.hashes 0 boundaryPos
    let children ← FixedArray.copyFromSlice children 0 boundaryPos left
    let children ← FixedArray.setAt children boundaryPos mid
    let new ← level.newHashes
    let children ← FixedArray.copyFromSlice children (boundaryPos + 1) childCount new
    let group ← FixedArray.slice children 0 childCount
    pure (H.hashChildren group, children)

/-- The loop of `update_inclusion_proof`. -/
def updateLevels (oldProof : NaryProof Hash N MAX_DEPTH) :
    ℕ → List (ConsistencyLevel Hash N) → ℕ → ℕ → Hash → (Fin N → Hash) →
      (Fin MAX_DEPTH → ProofLevel Hash N) → Outcome TreeError (Fin MAX_DEPTH → ProofLevel Hash N)
  | _, [], _, _, _, _, newLevels => pure newLevels
  | treeLevel, level :: rest, oldLevelSize, memberIdx, newBoundaryHash, children, newLevels => do
      Outcome.require (1 ≤ oldLevelSize)
      let boundary := oldLevelSize - 1
      let newLevels ← updateLevel oldProof level treeLevel boundary memberIdx newBoundaryHash
        newLevels
      let mid ← updateMid level treeLevel (boundary % N) newBoundaryHash
      let next ← nextBoundaryHash H level (boundary % N) mid children
      updateLevels oldProof (treeLevel + 1) rest (oldLevelSize ⌈/⌉ N) (memberIdx / N) next.1 next.2
        newLevels

/-- `update_inclusion_proof`. -/
def updateInclusionProof [DecidableEq Hash] (p : ConsistencyProof Hash N MAX_DEPTH)
    (oldProof : NaryProof Hash N MAX_DEPTH) : Outcome TreeError (NaryProof Hash N MAX_DEPTH) :=
  if oldProof.root ≠ p.oldRoot then .fail .mathError
  else do
    let verified ← p.verify H
    if !verified then .fail .mathError
    else if p.oldSize ≤ oldProof.leafIndex then
      .fail (.indexOutOfRange oldProof.leafIndex p.oldSize)
    else if p.oldSize = p.newSize then .fail .noUpdateNeeded
    else do
      let oldLevelSize ← u64ToUsize p.oldSize
      let memberIdx ← u64ToUsize oldProof.leafIndex
      let levels ← FixedArray.slice p.levels 0 p.levelCount
      let newLevels ← updateLevels H oldProof 0 levels oldLevelSize memberIdx 0 (fun _ => 0)
        fun _ => ProofLevel.EMPTY
      pure ⟨p.newRoot, oldProof.leaf, oldProof.leafIndex, p.newSize, p.levelCount, newLevels⟩

end ConsistencyProof

end Works.Rotortree
