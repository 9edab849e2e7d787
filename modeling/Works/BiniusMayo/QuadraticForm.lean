import Works.BiniusMayo.MapRing
import Works.BiniusMayo.Verify

/-! # The sum of quadratic forms

The key as a block matrix, its blocks read row by row from the flat lists; the rows of the
signature as vectors.  Each pair of rows contributes its form, and the schedule of the folding
gives it a power of `z`.  The circuits of the three passes compute this sum
(`pipeline_computes_forms`). -/

namespace Works.BiniusMayo

open Lib Lib.Circuit Polynomial Matrix

/-! ### Blocks, row by row -/

/-- The positions of a block in row-major order: row `i` has the columns `rows i`. -/
def rowMajor (rows : ℕ → List ℕ) (n : ℕ) : List (ℕ × ℕ) :=
  (List.range n).flatMap fun i => (rows i).map fun j => (i, j)

/-- The positions on and above the diagonal of a matrix of size `n`. -/
def upperPositions (n : ℕ) : List (ℕ × ℕ) := rowMajor (fun i => List.range' i (n - i)) n

/-- The positions of a matrix with `n` rows and `m` columns. -/
def fullPositions (n m : ℕ) : List (ℕ × ℕ) := rowMajor (fun _ => List.range' 0 m) n

/-- The entry of a flat block at one of its positions. -/
def readBlock (positions : List (ℕ × ℕ)) (block : List Lanes) (i j : ℕ) : Lanes :=
  block.getD (positions.idxOf (i, j)) 0

theorem rowMajor_succ (rows : ℕ → List ℕ) (n : ℕ) :
    rowMajor rows (n + 1) = rowMajor rows n ++ (rows n).map fun j => (n, j) := by
  unfold rowMajor
  rw [List.range_succ, List.flatMap_append, List.flatMap_singleton]

theorem length_rowMajor (rows : ℕ → List ℕ) (n : ℕ) :
    (rowMajor rows n).length = ∑ k ∈ Finset.range n, (rows k).length := by
  induction n with
  | zero => rfl
  | succ n ih =>
      rw [rowMajor_succ, List.length_append, List.length_map, ih, Finset.sum_range_succ]

theorem mem_rowMajor {rows : ℕ → List ℕ} {n i j : ℕ} :
    (i, j) ∈ rowMajor rows n ↔ i < n ∧ j ∈ rows i := by
  unfold rowMajor
  simp

theorem idxOf_map_pair (i j : ℕ) (l : List ℕ) :
    (l.map fun j => (i, j)).idxOf (i, j) = l.idxOf j := by
  induction l with
  | nil => rfl
  | cons k l ih =>
      have hsame : ((i, k) == (i, j)) = (k == j) := by
        rw [Bool.eq_iff_iff, beq_iff_eq, beq_iff_eq]
        simp
      rw [List.map_cons, List.idxOf_cons, List.idxOf_cons, ih, hsame]

/-- The index of a position: the rows before its row, and the columns before it. -/
theorem idxOf_rowMajor {rows : ℕ → List ℕ} {n i j : ℕ} (hi : i < n) (hj : j ∈ rows i) :
    (rowMajor rows n).idxOf (i, j) = ∑ k ∈ Finset.range i, (rows k).length + (rows i).idxOf j := by
  induction n with
  | zero => exact absurd hi (Nat.not_lt_zero i)
  | succ n ih =>
      rw [rowMajor_succ]
      rcases Nat.lt_or_ge i n with hlt | hge
      · rw [List.idxOf_append_of_mem (mem_rowMajor.mpr ⟨hlt, hj⟩), ih hlt]
      · have heq : i = n := by omega
        subst heq
        have hnot : (i, j) ∉ rowMajor rows i := fun hmem =>
          absurd (mem_rowMajor.mp hmem).1 (Nat.lt_irrefl i)
        rw [List.idxOf_append_of_notMem hnot, length_rowMajor, idxOf_map_pair]

theorem idxOf_range' (len : ℕ) : ∀ {s j : ℕ}, s ≤ j → j < s + len →
    (List.range' s len).idxOf j = j - s := by
  induction len with
  | zero =>
      intro s j h₁ h₂
      omega
  | succ len ih =>
      intro s j h₁ h₂
      rw [List.range'_succ, List.idxOf_cons]
      by_cases heq : s = j
      · rw [heq, beq_self_eq_true, cond_true, Nat.sub_self]
      · have hne : (s == j) = false := by simpa using heq
        rw [hne, cond_false, ih (by omega) (by omega)]
        omega

/-- The rows before row `i` of an upper-triangular matrix. -/
theorem sum_upper_rows {n i : ℕ} (h : i ≤ n) :
    ∑ k ∈ Finset.range i, (n - k) = i * (2 * n - i + 1) / 2 := by
  induction i with
  | zero => simp
  | succ i ih =>
      have hrow := triIdx_row_end (show i < n by omega)
      unfold triIdx at hrow
      rw [Finset.sum_range_succ, ih (by omega), hrow, Nat.sub_self, Nat.add_zero]

/-- **The closed forms are row-major indices.** -/
theorem readBlock_upper {n i j : ℕ} (block : List Lanes) (hij : i ≤ j) (hj : j < n) :
    readBlock (upperPositions n) block i j = block.getD (triIdx n i j) 0 := by
  have hmem : j ∈ List.range' i (n - i) := List.mem_range'_1.mpr ⟨hij, by omega⟩
  unfold readBlock upperPositions
  rw [idxOf_rowMajor (show i < n by omega) hmem, idxOf_range' _ hij (by omega)]
  simp only [List.length_range']
  rw [sum_upper_rows (by omega), triIdx]

theorem readBlock_full {i j : ℕ} (block : List Lanes) (hi : i < V) (hj : j < O) :
    readBlock (fullPositions V O) block i j = block.getD (idxP2 i j) 0 := by
  have hmem : j ∈ List.range' 0 O := List.mem_range'_1.mpr ⟨Nat.zero_le j, by omega⟩
  unfold readBlock fullPositions
  rw [idxOf_rowMajor hi hmem, idxOf_range' _ (Nat.zero_le j) (by omega)]
  simp only [List.length_range', Finset.sum_const, Finset.card_range, smul_eq_mul, Nat.sub_zero]
  rfl

/-! ### The matrix and the rows -/

/-- An upper-triangular block. -/
noncomputable def upperBlock (n : ℕ) (block : List Lanes) : Matrix (Fin n) (Fin n) MapRing :=
  fun i j => if i ≤ j then vectorElem (readBlock (upperPositions n) block i j) else 0

/-- A full block. -/
noncomputable def fullBlock (n m : ℕ) (block : List Lanes) : Matrix (Fin n) (Fin m) MapRing :=
  fun i j => vectorElem (readBlock (fullPositions n m) block i j)

/-- The key as a matrix. -/
noncomputable def keyMatrix (P : KeyLanes) : Matrix (Fin V ⊕ Fin O) (Fin V ⊕ Fin O) MapRing :=
  fromBlocks (upperBlock V P.p1) (fullBlock V O P.p2) 0 (upperBlock O P.p3)

/-- Row `i` of the signature as a vector. -/
noncomputable def sigVector (s : Fin K → Fin N → Gf16) (i : Fin K) : Fin V ⊕ Fin O → MapRing :=
  fun k => scalarElem (s i (finSumFinEquiv k))

/-- The form of two rows. -/
noncomputable def form (P : KeyLanes) (s : Fin K → Fin N → Gf16) (i j : Fin K) : MapRing :=
  sigVector s i ⬝ᵥ keyMatrix P *ᵥ sigVector s j

/-- The pairs of rows in the order in which they come in. -/
def pairOrder : List (ℕ × ℕ) :=
  [(3, 3), (2, 2), (2, 3), (1, 1), (1, 2), (1, 3), (0, 0), (0, 1), (0, 2), (0, 3)]

/-- The number of pairs after one. -/
def pairsAfter (i j : ℕ) : ℕ := (pairOrder.drop (pairOrder.idxOf (i, j) + 1)).length

/-- The sum of the forms of all pairs of rows, weighted by powers of `z`. -/
noncomputable def sumOfForms (P : KeyLanes) (s : Fin K → Fin N → Gf16) : MapRing :=
  ∑ i : Fin K, ∑ j : Fin K with i ≤ j,
    mapZ ^ pairsAfter i j * (form P s i j + if i ≠ j then form P s j i else 0)

/-! ### The forms are the values of `SPS` -/

/-- The sum over the positions on and above the diagonal. -/
theorem sum_upper {G : Type} [AddCommMonoid G] (n : ℕ) (g : ℕ → ℕ → G) :
    ∑ k : Fin n, ∑ l : Fin n, (if k ≤ l then g k l else 0) =
      ∑ j ∈ Finset.Ico 0 n, ∑ r ∈ Finset.Ico j n, g j r := by
  have hrow : ∀ k : ℕ, ∑ l : Fin n, (if k ≤ l.val then g k l else 0) =
      ∑ r ∈ Finset.Ico k n, g k r := by
    intro k
    rw [Fin.sum_univ_eq_sum_range fun l => if k ≤ l then g k l else 0, ← Finset.sum_filter]
    congr 1
    ext l
    rw [Finset.mem_filter, Finset.mem_range, Finset.mem_Ico, and_comm]
  rw [← Finset.range_eq_Ico, ← Fin.sum_univ_eq_sum_range fun k => ∑ r ∈ Finset.Ico k n, g k r]
  exact Finset.sum_congr rfl fun k _ => hrow k

/-- The sum over a block of rows and the columns behind them. -/
theorem sum_beside {G : Type} [AddCommMonoid G] (n m : ℕ) (g : ℕ → ℕ → G) :
    ∑ k : Fin n, ∑ l : Fin m, g k (n + l) =
      ∑ j ∈ Finset.Ico 0 n, ∑ r ∈ Finset.Ico n (n + m), g j r := by
  have hrow : ∀ k : ℕ, ∑ l : Fin m, g k (n + l) = ∑ r ∈ Finset.Ico n (n + m), g k r := by
    intro k
    rw [Fin.sum_univ_eq_sum_range fun l => g k (n + l), Finset.sum_Ico_eq_sum_range,
      Nat.add_sub_cancel_left]
  rw [← Finset.range_eq_Ico,
    ← Fin.sum_univ_eq_sum_range fun k => ∑ r ∈ Finset.Ico n (n + m), g k r]
  exact Finset.sum_congr rfl fun k _ => hrow k

/-- The sum over the positions on and above the diagonal, from row `n` on. -/
theorem sum_below {G : Type} [AddCommMonoid G] (n m : ℕ) (g : ℕ → ℕ → G) :
    ∑ k : Fin m, ∑ l : Fin m, (if k ≤ l then g (n + k) (n + l) else 0) =
      ∑ j ∈ Finset.Ico n (n + m), ∑ r ∈ Finset.Ico j (n + m), g j r := by
  rw [sum_upper m fun j r => g (n + j) (n + r), ← Finset.range_eq_Ico,
    Finset.sum_Ico_eq_sum_range, Nat.add_sub_cancel_left]
  refine Finset.sum_congr rfl fun j _ => ?_
  rw [Finset.sum_Ico_eq_sum_range, Finset.sum_Ico_eq_sum_range, Nat.add_sub_add_left]
  refine Finset.sum_congr rfl fun r _ => ?_
  rw [Nat.add_assoc]

variable (P : KeyLanes) (s : Fin K → Fin N → Gf16)

/-- The scalar of a row in the ring. -/
noncomputable def sigElem (i : Fin K) (k : ℕ) : MapRing := scalarElem (scalarAt s i k)

theorem sigVector_inl (i : Fin K) (k : Fin V) : sigVector s i (.inl k) = sigElem s i k := by
  have hk : k.val < N := k.isLt.trans (by decide)
  unfold sigVector sigElem scalarAt readAt
  rw [dif_pos i.isLt, dif_pos hk]
  rfl

theorem sigVector_inr (i : Fin K) (k : Fin O) : sigVector s i (.inr k) = sigElem s i (V + k) := by
  have hk : V + k.val < N := by
    have := k.isLt
    simp only [V, N, O] at *
    omega
  unfold sigVector sigElem scalarAt readAt
  rw [dif_pos i.isLt, dif_pos hk]
  rfl

/-- The blocks of the matrix hold the entries of the key. -/
theorem upperBlock_p1 (k l : Fin V) :
    upperBlock V P.p1 k l = if k ≤ l then vectorElem (P.entry k l) else 0 := by
  unfold upperBlock
  split_ifs with h
  · rw [readBlock_upper _ h l.isLt, KeyLanes.entry, if_pos l.isLt]
    rfl
  · rfl

theorem fullBlock_p2 (k : Fin V) (l : Fin O) :
    fullBlock V O P.p2 k l = vectorElem (P.entry k (V + l)) := by
  unfold fullBlock
  rw [readBlock_full _ k.isLt l.isLt, KeyLanes.entry, if_neg (by omega), if_pos k.isLt,
    Nat.add_sub_cancel_left]

theorem upperBlock_p3 (k l : Fin O) :
    upperBlock O P.p3 k l = if k ≤ l then vectorElem (P.entry (V + k) (V + l)) else 0 := by
  unfold upperBlock
  split_ifs with h
  · rw [readBlock_upper _ h l.isLt, KeyLanes.entry, if_neg (by omega), if_neg (by omega),
      Nat.add_sub_cancel_left, Nat.add_sub_cancel_left]
    rfl
  · rfl

/-- **A form is a value of `SPS`.** -/
theorem form_eq (i j : Fin K) : form P s i j = vectorElem (spsValue P s i j) := by
  set c : ℕ → ℕ → MapRing := fun k l => sigElem s i k * (vectorElem (P.entry k l) * sigElem s j l)
    with hc
  have hvalue : vectorElem (spsValue P s i j) = ∑ k ∈ Finset.range N, ∑ l ∈ Finset.Ico k N, c k l := by
    unfold spsValue psValue
    rw [vectorElem_sum]
    refine Finset.sum_congr rfl fun k _ => ?_
    rw [vectorElem_smul, vectorElem_sum, Finset.mul_sum]
    refine Finset.sum_congr rfl fun l _ => ?_
    rw [vectorElem_smul, hc]
    dsimp only
    rw [mul_comm (vectorElem _) (sigElem s j l)]
    rfl
  rw [hvalue, ← sum_blocks c, ← sum_upper V c]
  have hbeside := sum_beside V O c
  have hbelow := sum_below V O c
  rw [show V + O = N from rfl] at hbeside hbelow
  rw [← hbeside, ← hbelow]
  unfold form keyMatrix dotProduct mulVec dotProduct
  rw [Fintype.sum_sum_type]
  simp only [Fintype.sum_sum_type, fromBlocks_apply₁₁, fromBlocks_apply₁₂, fromBlocks_apply₂₁,
    fromBlocks_apply₂₂, sigVector_inl, sigVector_inr, upperBlock_p1, fullBlock_p2, upperBlock_p3]
  have hguard : ∀ (k l : ℕ) (a e b : MapRing),
      a * ((if k ≤ l then e else 0) * b) = if k ≤ l then a * (e * b) else 0 := by
    intro k l a e b
    split_ifs
    · rfl
    · rw [zero_mul, mul_zero]
  simp only [Fin.le_def, Matrix.zero_apply, zero_mul, Finset.sum_const_zero, zero_add, mul_add,
    Finset.mul_sum, Finset.sum_add_distrib, hguard, hc, add_assoc]

/-! ### The folding -/

/-- The values of a list, the first with the highest power of `z`. -/
noncomputable def weighted (z : MapRing) (c : ℕ × ℕ → MapRing) : List (ℕ × ℕ) → MapRing
  | [] => 0
  | p :: ps => z ^ ps.length * c p + weighted z c ps

/-- **Folding is evaluation at `z`.** -/
theorem vectorElem_foldl (sps : ℕ → ℕ → Lanes) (ps : List (ℕ × ℕ)) :
    ∀ acc : Lanes, vectorElem (ps.foldl (fun acc p => whipStep sps p.1 p.2 acc) acc) =
      mapZ ^ ps.length * vectorElem acc + weighted mapZ (fun p =>
        vectorElem (sps p.1 p.2) + if p.1 ≠ p.2 then vectorElem (sps p.2 p.1) else 0) ps := by
  induction ps with
  | nil =>
      intro acc
      rw [List.foldl_nil, List.length_nil, pow_zero, one_mul, weighted, add_zero]
  | cons p ps ih =>
      intro acc
      have hstep : vectorElem (whipStep sps p.1 p.2 acc) = mapZ * vectorElem acc +
          (vectorElem (sps p.1 p.2) + if p.1 ≠ p.2 then vectorElem (sps p.2 p.1) else 0) := by
        unfold whipStep
        dsimp only
        split_ifs with hne
        · rw [vectorElem_add, vectorElem_add, vectorElem_timesZ, add_assoc]
        · rw [vectorElem_add, vectorElem_timesZ, add_zero]
      rw [List.foldl_cons, ih, hstep, weighted, List.length_cons, pow_succ]
      ring

/-- The loops of the folding run through the pairs in order. -/
theorem whip_eq_foldl (sps : ℕ → ℕ → Lanes) :
    whip sps = pairOrder.foldl (fun acc p => whipStep sps p.1 p.2 acc) 0 := rfl

/-- The weight of a pair is the number of pairs after it. -/
theorem weighted_pairOrder (z : MapRing) (c : ℕ × ℕ → MapRing) :
    weighted z c pairOrder =
      ∑ i : Fin K, ∑ j : Fin K with i ≤ j, z ^ pairsAfter i j * c (i.val, j.val) := by
  have hafter : pairsAfter 0 0 = 3 ∧ pairsAfter 0 1 = 2 ∧ pairsAfter 0 2 = 1 ∧ pairsAfter 0 3 = 0 ∧
      pairsAfter 1 1 = 6 ∧ pairsAfter 1 2 = 5 ∧ pairsAfter 1 3 = 4 ∧
      pairsAfter 2 2 = 8 ∧ pairsAfter 2 3 = 7 ∧ pairsAfter 3 3 = 9 := by decide
  obtain ⟨h00, h01, h02, h03, h11, h12, h13, h22, h23, h33⟩ := hafter
  have h0 : ((0 : Fin 4) : ℕ) = 0 := rfl
  have h1 : ((1 : Fin 4) : ℕ) = 1 := rfl
  have h2 : ((2 : Fin 4) : ℕ) = 2 := rfl
  have h3 : ((3 : Fin 4) : ℕ) = 3 := rfl
  simp only [Finset.sum_filter, Fin.sum_univ_four, Fin.le_def, h0, h1, h2, h3, weighted, pairOrder,
    List.length_cons, List.length_nil, h00, h01, h02, h03, h11, h12, h13, h22, h23, h33,
    Nat.reduceLeDiff, le_refl, if_true, if_false]
  ring

/-- **The public map is the sum of the forms.** -/
theorem vectorElem_publicMap : vectorElem (publicMap P s) = sumOfForms P s := by
  unfold publicMap sumOfForms
  rw [whip_eq_foldl, vectorElem_foldl, vectorElem_zero, mul_zero, zero_add, weighted_pairOrder]
  refine Finset.sum_congr rfl fun i _ => Finset.sum_congr rfl fun j _ => ?_
  rw [form_eq, form_eq]
  simp only [ne_eq, Fin.ext_iff]

/-! ### The three passes -/

/-- The wires of a key and of a signature, and the three passes over them. -/
def pipeline : CircuitBuilder (ExpandedPkWires × SigBroadcasts × BitslicedGf16Mvec) := do
  let pk ← ExpandedPkWires.newWitness
  let sb ← SigBroadcasts.newWitness
  let ps ← computePs pk sb
  let sps ← computeSps sb ps
  let y ← computeRhs sps
  pure (pk, sb, y)

section Pipeline

variable {f : KeccakState → KeccakState} {v x : Wire → Word}

/-- The planes of a key are inputs. -/
def ExpandedPkWires.AreInputs (pk : ExpandedPkWires) : Prop :=
  ∀ block ∈ [pk.p1, pk.p2, pk.p3], ∀ a ∈ block, ∀ b, (a.bits b).IsInput

theorem newWitnesses_inputs (n : ℕ) :
    Yields f v (newWitnesses n) fun as => ∀ a ∈ as, ∀ b, (a.bits b).IsInput := by
  refine Computes.mono (mapM_computes (Q := fun _ (a : BitslicedGf16Mvec) => ∀ b, (a.bits b).IsInput)
    (fun _ => BitslicedGf16Mvec.newWitness_yields) _) fun as has => ?_
  generalize List.range n = indices at has
  induction has with
  | nil => exact fun a ha => absurd ha List.not_mem_nil
  | cons hhead _ ih =>
      intro a ha
      cases List.mem_cons.mp ha with
      | inl heq => rw [heq]; exact hhead
      | inr hmem => exact ih a hmem

theorem expandedPk_inputs :
    Yields f v ExpandedPkWires.newWitness fun pk => pk.AreInputs := by
  refine Computes.bind (newWitnesses_inputs _) fun p1 h1 => Computes.bind (newWitnesses_inputs _)
    fun p2 h2 => Computes.bind (newWitnesses_inputs _) fun p3 h3 => Computes.pure ?_
  intro block hblock
  simp only [List.mem_cons, List.not_mem_nil, or_false] at hblock
  rcases hblock with rfl | rfl | rfl
  · exact h1
  · exact h2
  · exact h3

/-- The lanes of a key are those of its inputs. -/
theorem ExpandedPkWires.AreInputs.lanes_eq {pk : ExpandedPkWires} (h : pk.AreInputs)
    (hx : SameInputs x v) : pk.lanes v = pk.lanes x := by
  have hblock : ∀ block ∈ [pk.p1, pk.p2, pk.p3], block.map (·.lanes v) = block.map (·.lanes x) := by
    intro block hblock
    refine List.map_congr_left fun a ha => congrArg lanesOf (funext fun b => ?_)
    exact hx _ (h block hblock a ha b)
  unfold ExpandedPkWires.lanes
  rw [hblock pk.p1 (by simp), hblock pk.p2 (by simp), hblock pk.p3 (by simp)]

theorem pipeline_yields (hx : SameInputs x v) : Yields f v pipeline fun c =>
    vectorElem (c.2.2.lanes v) = sumOfForms (c.1.lanes x) (c.2.1.scalars x) := by
  have hpk : Yields f v ExpandedPkWires.newWitness fun pk => pk.Sized ∧ pk.AreInputs := by
    intro n hd
    exact ⟨⟨(Mayo2Verify.expandedPk_yields n hd).1, (expandedPk_inputs n hd).1⟩,
      (expandedPk_inputs n hd).2⟩
  refine Computes.bind hpk fun pk hpk => Computes.bind SigBroadcasts.newWitness_yields
    fun sb hsb => ?_
  refine Computes.bind (computePs_yields hpk.1 hsb.2) fun ps hps =>
    Computes.bind (computeSps_yields hsb.2 hps) fun sps hsps =>
    Computes.bind (computeRhs_yields hsps) fun y hy => Computes.pure ?_
  have hscalars : sb.scalars v = sb.scalars x := by
    funext col r
    exact congrArg lowNibble (hx _ (hsb.1 col r))
  dsimp only
  rw [hy, whip_congr (h := spsValue (pk.lanes v) (sb.scalars v)) fun row col hrow hcol =>
    spsTable_apply _ _ hrow hcol, hpk.2.lanes_eq hx, hscalars]
  exact vectorElem_publicMap _ _

end Pipeline

/-- **The circuits compute the map.**  Whatever the planes of the key and the words of the
signature are, the output of the three passes is the sum of the forms of the pairs of rows,
weighted by powers of `z`, and no other lanes are. -/
theorem pipeline_computes_forms (f : KeccakState → KeccakState) (x : Wire → Word) (n : Counts) :
    ∀ lanes : Lanes, vectorElem lanes =
        sumOfForms ((pipeline.run n).val.1.lanes x) ((pipeline.run n).val.2.1.scalars x) ↔
      lanes = (pipeline.run n).val.2.2.lanes (evaluate (Gate.eval f) x) := by
  have hsame : SameInputs x (evaluate (Gate.eval f) x) := sameInputs_evaluate
  have hvalue := (pipeline_yields hsame n driven_evaluate).1
  intro lanes
  rw [← hvalue]
  constructor
  · intro h
    exact vectorElem_injective h
  · intro h
    rw [h]

end Works.BiniusMayo
