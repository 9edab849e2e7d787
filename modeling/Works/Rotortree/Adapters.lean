import Works.Lib.Blake3
import Works.Rotortree.Calls
import Works.Rotortree.Storage.TestUtil

/-! # The BLAKE3 hasher

`Blake3Hasher` of `adapters/blake3.rs`.  Groups of one eligible arity go through the kernel for
many inputs, at most as many at once as the platform takes, all others through the scalar hash.
What comes out is the same (`blake3_hashManyInto`), so the tree over this hasher is the one over
the scalar hash, whatever the platform.  A program that panics returns nothing. -/

namespace Works.Rotortree

open Works.Lib Blake3

/-- What the adapter takes from the crate `blake3`: `hash`, and `hash_many` of the detected
platform with its degree, for a counter that is not incremented. -/
structure Blake3Crate where
  hash : List UInt8 → Hash32
  MAX_SIMD_DEGREE : ℕ
  simdDegree : ℕ
  hashMany (inputs : List (List UInt8)) (key : Cv) (counter flags flagsStart flagsEnd : ℕ) :
    List Hash32

/-- What the crate promises. -/
structure Blake3Crate.Documented (B : Blake3Crate) : Prop where
  degree : 1 ≤ B.MAX_SIMD_DEGREE
  hash : ∀ bytes, (B.hash bytes).toList = Blake3.hash compress bytes
  hashMany : ∀ (inputs : List (List UInt8)) (key : Cv) (counter flags flagsStart flagsEnd len : ℕ),
    BLOCK_LEN ∣ len → (∀ input ∈ inputs, input.length = len) →
    inputs.length ≤ B.MAX_SIMD_DEGREE →
      (B.hashMany inputs key counter flags flagsStart flagsEnd).map (·.toList) =
        inputs.map (hash1 compress key counter flags flagsStart flagsEnd)

/-- `FLAGS_END`. -/
def FLAGS_END : ℕ := CHUNK_END ||| ROOT

/-- `as_flattened`. -/
def asFlattened (hashes : List Hash32) : List UInt8 := hashes.flatMap fun h => h.toList

section Blake3

variable (B : Blake3Crate)

/-- `batch_root`. -/
def batchRoot (inputs : List (List UInt8)) (out : List Hash32) : Option (List Hash32) :=
  if out.length < inputs.length then none
  else some (B.hashMany inputs IV 0 0 CHUNK_START FLAGS_END ++ out.drop inputs.length)

/-- The macro `dispatch` of `batch_eligible`. -/
def dispatch (len : ℕ) (groups : List (List Hash32)) (out : List Hash32) :
    Option (Option (List Hash32)) :=
  if (groups.take B.MAX_SIMD_DEGREE).all fun g => decide ((asFlattened g).length = len) then
    if B.MAX_SIMD_DEGREE < groups.length then none
    else (batchRoot B (groups.map asFlattened) out).map some
  else some none

/-- `batch_eligible`; none within is `false`. -/
def batchEligible (arity : ℕ) (groups : List (List Hash32)) (out : List Hash32) :
    Option (Option (List Hash32)) :=
  match arity with
  | 2 => dispatch B 64 groups out
  | 4 => dispatch B 128 groups out
  | 8 => dispatch B 256 groups out
  | 16 => dispatch B 512 groups out
  | _ => some none

/-- `Blake3Hasher::hash_children`. -/
def Blake3Crate.hashChildren (children : List Hash32) : Hash32 := B.hash (asFlattened children)

/-- The scalar loop over the groups. -/
def scalarInto (groups : List (List Hash32)) (out : List Hash32) : List Hash32 :=
  List.zipWith (fun g _ => B.hashChildren g) groups out ++ out.drop groups.length

/-- The loop of `hash_many_into`; every turn takes a group. -/
def hashLoop (arity degree : ℕ) : ℕ → List (List Hash32) → List Hash32 → Option (List Hash32)
  | _, [], out => some out
  | 0, _ :: _, _ => none
  | fuel + 1, g :: groups, out =>
      let take := min (g :: groups).length degree
      if out.length < take then none
      else do
        let hashed ← batchEligible B arity ((g :: groups).take take) (out.take take)
        let rest ← hashLoop arity degree fuel ((g :: groups).drop take) (out.drop take)
        some (hashed.getD (scalarInto B ((g :: groups).take take) (out.take take)) ++ rest)

/-- `Blake3Hasher::hash_many_into`. -/
def Blake3Crate.hashManyInto (groups : List (List Hash32)) (out : List Hash32) :
    Option (List Hash32) :=
  let arity := (groups.head?.map (·.length)).getD 0
  let uniformEligible := (arity = 2 || arity = 4 || arity = 8 || arity = 16) &&
    groups.all fun g => decide (g.length = arity)
  if !uniformEligible then some (scalarInto B groups out)
  else if B.MAX_SIMD_DEGREE < 1 || out.length < groups.length then none
  else do
    let degree := max 1 (min B.simdDegree B.MAX_SIMD_DEGREE)
    let hashed ← hashLoop B arity degree groups.length groups (out.take groups.length)
    some (hashed ++ out.drop groups.length)

/-- `Blake3Hasher`; the buffer of the caller is filled from the front. -/
def blake3Hasher : Hasher Hash32 where
  hashChildren := B.hashChildren
  hashManyInto groups :=
    (B.hashManyInto groups (groups.map fun _ => 0)).getD []

end Blake3

/-! ### The batch is the scalar loop -/

section Batch

variable {B : Blake3Crate} {groups : List (List Hash32)} {out : List Hash32} {arity : ℕ}

theorem length_asFlattened (hashes : List Hash32) :
    (asFlattened hashes).length = 32 * hashes.length := by
  simp [asFlattened, List.length_flatMap, Nat.mul_comm]

/-- The arities whose groups are whole blocks of one chunk. -/
def Eligible (arity : ℕ) : Prop := arity = 2 ∨ arity = 4 ∨ arity = 8 ∨ arity = 16

theorem Eligible.whole (h : Eligible arity) :
    0 < arity ∧ BLOCK_LEN ∣ 32 * arity ∧ 32 * arity ≤ CHUNK_LEN := by
  rcases h with rfl | rfl | rfl | rfl <;> decide

/-- The kernel hashes groups of an eligible arity. -/
theorem batchRoot_eq (hB : B.Documented) (harity : Eligible arity)
    (hgroups : ∀ g ∈ groups, g.length = arity) (hlen : groups.length ≤ B.MAX_SIMD_DEGREE)
    (hout : out.length = groups.length) :
    batchRoot B (groups.map asFlattened) out = some (groups.map B.hashChildren) := by
  obtain ⟨hpos, hdvd, hle⟩ := harity.whole
  have hbytes : ∀ g ∈ groups, (asFlattened g).length = 32 * arity := by
    intro g hg
    rw [length_asFlattened, hgroups g hg]
  have hmany : (B.hashMany (groups.map asFlattened) IV 0 0 CHUNK_START FLAGS_END).map (·.toList) =
      (groups.map B.hashChildren).map (·.toList) := by
    rw [hB.hashMany _ _ _ _ _ _ (32 * arity) hdvd (by simpa using hbytes) (by simpa using hlen),
      List.map_map, List.map_map]
    refine List.map_congr_left fun g hg => ?_
    have hne : asFlattened g ≠ [] := List.ne_nil_of_length_pos (by rw [hbytes g hg]; omega)
    rw [Function.comp_apply, Function.comp_apply, Blake3Crate.hashChildren, hB.hash,
      hash_eq_hash1 hne (by rw [hbytes g hg]; exact hdvd) (by rw [hbytes g hg]; exact hle)]
    rfl
  have hinj : Function.Injective fun h : Hash32 => h.toList := by
    intro a b hab
    exact Vector.toList_inj.mp hab
  rw [batchRoot, if_neg (by simp [hout]), List.map_injective_iff.mpr hinj hmany,
    List.drop_eq_nil_of_le (by simp [hout]), List.append_nil]

theorem batchEligible_eq (hB : B.Documented) (harity : Eligible arity)
    (hgroups : ∀ g ∈ groups, g.length = arity) (hlen : groups.length ≤ B.MAX_SIMD_DEGREE)
    (hout : out.length = groups.length) :
    batchEligible B arity groups out = some (some (groups.map B.hashChildren)) := by
  have hdispatch :
      dispatch B (32 * arity) groups out = some (some (groups.map B.hashChildren)) := by
    have hall : ((groups.take B.MAX_SIMD_DEGREE).all fun g =>
        decide ((asFlattened g).length = 32 * arity)) = true := by
      rw [List.all_eq_true]
      intro g hg
      rw [decide_eq_true_eq, length_asFlattened, hgroups g (List.mem_of_mem_take hg)]
    rw [dispatch, if_pos hall, if_neg (by omega), batchRoot_eq hB harity hgroups hlen hout]
    rfl
  rcases harity with rfl | rfl | rfl | rfl <;> exact hdispatch

theorem hashLoop_eq (hB : B.Documented) (harity : Eligible arity) {degree : ℕ}
    (hdegree : 1 ≤ degree) (hmax : degree ≤ B.MAX_SIMD_DEGREE) (fuel : ℕ)
    (hfuel : groups.length ≤ fuel) (hgroups : ∀ g ∈ groups, g.length = arity)
    (hout : out.length = groups.length) :
    hashLoop B arity degree fuel groups out = some (groups.map B.hashChildren) := by
  induction fuel generalizing groups out with
  | zero =>
      obtain rfl := List.length_eq_zero_iff.mp (Nat.le_zero.mp hfuel)
      rw [List.length_eq_zero_iff.mp hout]
      rfl
  | succ fuel ih =>
      cases groups with
      | nil =>
          rw [List.length_eq_zero_iff.mp hout]
          rfl
      | cons g groups =>
          have htake : 1 ≤ min (g :: groups).length degree := by
            rw [List.length_cons]
            omega
          rw [hashLoop]
          generalize hk : min (g :: groups).length degree = k at htake
          have hkl : k ≤ (g :: groups).length := hk ▸ Nat.min_le_left _ _
          have hkd : k ≤ degree := hk ▸ Nat.min_le_right _ _
          have hnow : batchEligible B arity ((g :: groups).take k) (out.take k) =
              some (some (((g :: groups).take k).map B.hashChildren)) := by
            refine batchEligible_eq hB harity ?_ ?_ ?_
            · exact fun x hx => hgroups x (List.mem_of_mem_take hx)
            · rw [List.length_take]
              omega
            · rw [List.length_take, List.length_take, hout]
          have hrest : hashLoop B arity degree fuel ((g :: groups).drop k) (out.drop k) =
              some (((g :: groups).drop k).map B.hashChildren) := by
            refine ih ?_ (fun x hx => hgroups x (List.mem_of_mem_drop hx)) ?_
            · rw [List.length_drop]
              omega
            · rw [List.length_drop, List.length_drop, hout]
          rw [if_neg (by omega), hnow, hrest]
          show some (((g :: groups).take k).map B.hashChildren ++ _) = _
          rw [← List.map_append, List.take_append_drop]

theorem scalarInto_eq (hout : groups.length ≤ out.length) :
    scalarInto B groups out = groups.map B.hashChildren ++ out.drop groups.length := by
  rw [scalarInto]
  congr 1
  apply List.ext_getElem
  · simp [hout]
  · intro i hi hi'
    simp

theorem hashManyInto_eq (hB : B.Documented) (hout : groups.length ≤ out.length) :
    B.hashManyInto groups out = some (groups.map B.hashChildren ++ out.drop groups.length) := by
  rw [Blake3Crate.hashManyInto]
  dsimp only
  generalize (groups.head?.map (·.length)).getD 0 = arity
  by_cases hu : ((arity = 2 || arity = 4 || arity = 8 || arity = 16) &&
      groups.all fun g => decide (g.length = arity)) = true
  · rw [hu]
    simp only [Bool.and_eq_true, Bool.or_eq_true, decide_eq_true_eq, List.all_eq_true] at hu
    obtain ⟨harity, hgroups⟩ := hu
    have hdegree := hB.degree
    have heligible : Eligible arity := by
      unfold Eligible
      tauto
    have hloop : hashLoop B arity (max 1 (min B.simdDegree B.MAX_SIMD_DEGREE)) groups.length groups
        (out.take groups.length) = some (groups.map B.hashChildren) :=
      hashLoop_eq hB heligible (Nat.le_max_left _ _) (by omega) groups.length le_rfl hgroups
        (by rw [List.length_take]; omega)
    have hno : (decide (B.MAX_SIMD_DEGREE < 1) || decide (out.length < groups.length)) = false := by
      simp only [Bool.or_eq_false_iff, decide_eq_false_iff_not]
      omega
    rw [Bool.not_true, if_neg Bool.false_ne_true, hno, if_neg Bool.false_ne_true, hloop]
    rfl
  · rw [Bool.not_eq_true] at hu
    rw [hu, Bool.not_false, if_pos rfl, scalarInto_eq hout]

theorem Blake3Crate.Documented.lawful (hB : B.Documented) : (blake3Hasher B).Lawful := by
  intro groups
  have hlen : groups.length ≤ (groups.map fun _ => (0 : Hash32)).length := by simp
  show (B.hashManyInto groups _).getD [] = groups.map B.hashChildren
  rw [hashManyInto_eq hB hlen, Option.getD_some, List.drop_eq_nil_of_le (by simp), List.append_nil]

/-- **The batched hash is the scalar one**, on every platform and for groups of any shape: it
fills the front of the buffer and does not panic. -/
theorem blake3_hashManyInto (hB : B.Documented) (groups : List (List Hash32)) (out : List Hash32)
    (hout : groups.length ≤ out.length) :
    B.hashManyInto groups out = some (groups.map B.hashChildren ++ out.drop groups.length) ∧
      (blake3Hasher B).hashManyInto groups = groups.map (blake3Hasher B).hashChildren :=
  ⟨hashManyInto_eq hB hout, hB.lawful groups⟩

end Batch

/-! ### The tree over BLAKE3 -/

/-- The hash of a node by the definition of BLAKE3. -/
def blake3Children (children : List Hash32) : Hash32 :=
  ⟨(Blake3.hash compress (asFlattened children)).toArray, by simp [Blake3.hash]⟩

theorem Blake3Crate.Documented.hashChildren {B : Blake3Crate} (hB : B.Documented) :
    B.hashChildren = blake3Children := by
  funext children
  apply Vector.toList_inj.mp
  rw [Blake3Crate.hashChildren, hB.hash]
  rfl

/-- **The platform does not show.**  Any calls that bring the same leaves, one by one or in
batches, on any two platforms, lead to the same tree: the one over BLAKE3. -/
theorem blake3_platforms_agree {B B' : Blake3Crate} (hB : B.Documented) (hB' : B'.Documented)
    {N MAX_DEPTH : ℕ} (hN : 2 ≤ N) (hD : 1 ≤ MAX_DEPTH) (fs : ShardFs Hash32)
    (cs cs' : List (Call Hash32)) (hcs : accepted N MAX_DEPTH cs' = accepted N MAX_DEPTH cs) :
    Refines fs (Hasher.scalar blake3Children)
        (after fs (blake3Hasher B) cs : TreeInner Hash32 N MAX_DEPTH) (accepted N MAX_DEPTH cs) ∧
      SameTree fs (after fs (blake3Hasher B) cs : TreeInner Hash32 N MAX_DEPTH)
        (after fs (blake3Hasher B') cs') := by
  have hrefines : ∀ {B : Blake3Crate}, B.Documented → ∀ cs : List (Call Hash32),
      Refines fs (Hasher.scalar blake3Children)
        (after fs (blake3Hasher B) cs : TreeInner Hash32 N MAX_DEPTH)
        (accepted N MAX_DEPTH cs) := by
    intro B hB cs
    have h : Refines fs (blake3Hasher B)
        (after fs (blake3Hasher B) cs : TreeInner Hash32 N MAX_DEPTH) (accepted N MAX_DEPTH cs) :=
      after_refines hB.lawful hN hD cs
    have hsame : (blake3Hasher B).hashChildren = (Hasher.scalar blake3Children).hashChildren :=
      hB.hashChildren
    exact ⟨h.size, h.depth, hsame ▸ h.root, hsame ▸ h.levels⟩
  have hleft := hrefines hB cs
  exact ⟨hleft, hleft.sameTree (hcs ▸ hrefines hB' cs')⟩

/-- The crate on a platform that hashes `degree` inputs at once. -/
def blake3Crate (degree : ℕ) : Blake3Crate where
  hash bytes := ⟨(Blake3.hash compress bytes).toArray, by simp [Blake3.hash]⟩
  MAX_SIMD_DEGREE := 16
  simdDegree := degree
  hashMany inputs key counter flags flagsStart flagsEnd := inputs.map fun bytes =>
    ⟨(hash1 compress key counter flags flagsStart flagsEnd bytes).toArray, by simp [hash1]⟩

theorem blake3Crate_documented (degree : ℕ) : (blake3Crate degree).Documented where
  degree := Nat.le_add_left 1 15
  hash _ := rfl
  hashMany inputs key counter flags flagsStart flagsEnd len _ _ _ := by
    rw [blake3Crate, List.map_map]
    rfl

/-- Five pairs of nodes on a platform of degree two. -/
theorem blake3Crate_pairs : (blake3Crate 2).hashManyInto (List.replicate 5 [0, 0])
    (List.replicate 6 0) = some (List.replicate 5 (blake3Children [0, 0]) ++ [0]) := by
  obtain ⟨hmany, -⟩ := blake3_hashManyInto (blake3Crate_documented 2) (List.replicate 5 [0, 0])
    (List.replicate 6 0) (by decide)
  rw [hmany, (blake3Crate_documented 2).hashChildren, List.map_replicate]
  rfl

/-- Three leaves one by one on a scalar platform, and in a batch on a wide one. -/
theorem blake3Crate_sameTree : SameTree (fun _ _ _ => 0)
    (after (fun _ _ _ => 0) (blake3Hasher (blake3Crate 1))
      [.insert (testLeaf 1), .insert (testLeaf 2), .insert (testLeaf 3)] : TreeInner Hash32 2 2)
    (after (fun _ _ _ => 0) (blake3Hasher (blake3Crate 8))
      [.insertMany (fun _ _ => false) [testLeaf 1, testLeaf 2, testLeaf 3]]) := by
  have haccepted :
      accepted 2 2 [.insertMany (fun _ _ => false) [testLeaf 1, testLeaf 2, testLeaf 3]] =
        accepted 2 2 [.insert (testLeaf 1), .insert (testLeaf 2), .insert (testLeaf 3)] := by
    decide +kernel
  exact (blake3_platforms_agree (blake3Crate_documented 1) (blake3Crate_documented 8)
    (by decide) (by decide) _ _ _ haccepted).2

end Works.Rotortree
