import Works.BiniusMayo.Encoding
import Works.BiniusMayo.Quadratic
import Works.Lib.Keccak

/-! # The reference verifier

A MAYO-2 verifier on bytes, with the elements of GF(16) as bytes below 16.  It walks the key with
running counters and skips scalars that are zero; what it evaluates is the public map
(`evalPublicMap_eq`). -/

namespace Works.BiniusMayo.Oracle

open Lib

/-- The expanded public key. -/
structure ExpandedPk where
  p1 : List Row
  p2 : List Row
  p3 : List Row

/-- Multiplication in GF(16): a carryless product, reduced modulo `x⁴ + x + 1`. -/
def mulGf16 (a b : UInt8) : UInt8 :=
  let a := a &&& 0x0F
  let b := b &&& 0x0F
  let p := ((a &&& 1) * b) ^^^ ((a &&& 2) * b) ^^^ ((a &&& 4) * b) ^^^ ((a &&& 8) * b)
  let top := p &&& 0xF0
  (p ^^^ (top >>> 4) ^^^ (top >>> 3)) &&& 0x0F

/-- `dst[ell] ^= mul_gf16(scalar, src[ell])`. -/
def mvecMulAdd (dst src : Row) (scalar : UInt8) : Row := fun ell =>
  dst ell ^^^ mulGf16 scalar (src ell)

/-- `for col in 0..K`: the entry `pJr` goes into row `j` of the table, times the scalars `r`. -/
def mulAddCols (s : Fin K → Fin N → UInt8) (pJr : Row) (j r : ℕ) (ps : List Row) : List Row :=
  loop 0 K (fun col ps =>
    let sColR := readAt (readAt s (fun _ => 0) col) 0 r
    if sColR ≠ 0 then ps.modify (j * K + col) (mvecMulAdd · pJr sColR) else ps) ps

/-- Row `j` of `P^(1)`, from the running counter on. -/
def evalP1Row (p : ExpandedPk) (s : Fin K → Fin N → UInt8) (j : ℕ) : List Row × ℕ → List Row × ℕ :=
  loop j V fun r st => (mulAddCols s (p.p1.getD st.2 fun _ => 0) j r st.1, st.2 + 1)

/-- Row `j` of `P^(2)`. -/
def evalP2Row (p : ExpandedPk) (s : Fin K → Fin N → UInt8) (j : ℕ) : List Row → List Row :=
  loop 0 O fun r ps => mulAddCols s (p.p2.getD (j * O + r) fun _ => 0) j (V + r) ps

/-- Row `j` of `P^(3)`, from the running counter on. -/
def evalP3Row (p : ExpandedPk) (s : Fin K → Fin N → UInt8) (j : ℕ) : List Row × ℕ → List Row × ℕ :=
  loop j O fun r st => (mulAddCols s (p.p3.getD st.2 fun _ => 0) (V + j) (V + r) st.1, st.2 + 1)

/-- The table of `PS`, with running counters into `P^(1)` and `P^(3)`. -/
def evalPs (p : ExpandedPk) (s : Fin K → Fin N → UInt8) : List Row :=
  let upper := loop 0 V (fun j st =>
    let st := evalP1Row p s j st
    (evalP2Row p s j st.1, st.2)) (List.replicate (N * K) fun _ => 0, 0)
  let lower := loop 0 O (evalP3Row p s) (upper.1, 0)
  lower.1

/-- The table of `SPS`. -/
def evalSps (s : Fin K → Fin N → UInt8) (ps : List Row) : List Row :=
  loop 0 K (fun row sps => loop 0 N (fun j sps =>
    let sRowJ := readAt (readAt s (fun _ => 0) row) 0 j
    if sRowJ = 0 then sps
    else loop 0 K (fun col sps =>
      sps.modify (row * K + col) (mvecMulAdd · (ps.getD (j * K + col) fun _ => 0) sRowJ)) sps) sps)
    (List.replicate (K * K) fun _ => 0)

/-- `a[i] = x`. -/
def writeAt (a : Row) (i : ℕ) (x : UInt8) : Row := fun k => if k.val = i then x else a k

/-- `f(z) = z^M + 8 + 2z² + 8z³`. -/
def fTailBytes : List UInt8 := [8, 0, 2, 8]

/-- `acc * z mod f(z)`. -/
def mulByZ (acc : Row) : Row :=
  let top := readAt acc 0 (M - 1)
  let acc := (List.range' 1 (M - 1)).reverse.foldl
    (fun acc ell => writeAt acc ell (readAt acc 0 (ell - 1))) acc
  let acc := writeAt acc 0 0
  loop 0 fTailBytes.length (fun tau acc =>
    let coeff := fTailBytes.getD tau 0
    if coeff ≠ 0 then writeAt acc tau (readAt acc 0 tau ^^^ mulGf16 top coeff) else acc) acc

/-- The values of all pairs of blocks, folded together. -/
def evalWhip (sps : List Row) : Row :=
  (List.range K).reverse.foldl (fun acc i => loop i K (fun j acc =>
    let acc := mulByZ acc
    let ij := sps.getD (i * K + j) fun _ => 0
    let acc : Row := fun ell => acc ell ^^^ ij ell
    if i ≠ j then
      let ji := sps.getD (j * K + i) fun _ => 0
      fun ell => acc ell ^^^ ji ell
    else acc) acc) fun _ => 0

/-- Evaluate the public map. -/
def evalPublicMap (p : ExpandedPk) (s : Fin K → Fin N → UInt8) : Row :=
  evalWhip (evalSps s (evalPs p s))

/-! ### Keys and signatures -/

/-- The first `n` nibbles of packed bytes. -/
def unpackNibbles (packed : List UInt8) (n : ℕ) : List UInt8 :=
  (packed.take (n / 2)).flatMap (fun b : UInt8 => [b &&& 0x0F, b >>> 4]) ++
    if n % 2 = 1 then [packed.getD (n / 2) 0 &&& 0x0F] else []

/-- Vectors of `M` nibbles from packed bytes. -/
def unpackMVecArray (packed : List UInt8) (nEntries : ℕ) : List Row :=
  (List.range nEntries).map fun i ell => nibbleOf (packed.getD (i * mVecBytes + ell / 2) 0) ell

section Ciphers

variable (aes : Block → Block → Block) (f : KeccakState → KeccakState)

/-- AES-128 in counter mode, from the counter 0. -/
def aes128CtrKeystream (pkSeed : Block) (outputLen : ℕ) : List UInt8 :=
  let nFull := outputLen / 16
  let tail := outputLen % 16
  (List.range nFull).flatMap (fun i => List.ofFn (aes pkSeed (counterBlock (UInt32.ofNat i)))) ++
    if tail > 0 then (List.ofFn (aes pkSeed (counterBlock (UInt32.ofNat nFull)))).take tail else []

/-- Expand a compact key. -/
def expandPk (cpk : Cpk) : ExpandedPk :=
  let keystream := aes128CtrKeystream aes cpk.seed (p1Bytes + p2Bytes)
  ⟨unpackMVecArray (keystream.take p1Bytes) p1Entries,
    unpackMVecArray ((keystream.drop p1Bytes).take p2Bytes) p2Entries,
    unpackMVecArray cpk.p3Packed p3Entries⟩

/-- Verify a signature. -/
def verify (pk : Cpk) (msg : List UInt8) (sig : Sig) : Bool :=
  let expanded := expandPk aes pk
  let digest := shake256 f msg 32
  let t := unpackNibbles (shake256 f (digest ++ sig.salt) mVecBytes) M
  let sFlat := unpackNibbles sig.sBytes (K * N)
  let s : Fin K → Fin N → UInt8 := fun col r => sFlat.getD (col * N + r) 0
  let y := evalPublicMap expanded s
  decide (y = fun ell : Fin M => t.getD ell 0)

end Ciphers

/-! ### Bytes and elements -/

/-- Elements as bytes. -/
def toRow (a : Lanes) : Row := fun ell => (a ell).toU8

/-- A key as bytes. -/
def ExpandedPk.ofLanes (P : KeyLanes) : ExpandedPk :=
  ⟨P.p1.map toRow, P.p2.map toRow, P.p3.map toRow⟩

theorem toRow_injective : Function.Injective toRow := by
  intro a b h
  funext ell
  exact Gf16.toU8_injective (congrFun h ell)

theorem toU8_add (a b : Gf16) : (a + b).toU8 = a.toU8 ^^^ b.toU8 := by
  obtain ⟨a0, a1, a2, a3⟩ := a
  obtain ⟨b0, b1, b2, b3⟩ := b
  revert a0 a1 a2 a3 b0 b1 b2 b3
  decide +kernel

theorem mulGf16_toU8 (a b : Gf16) : mulGf16 a.toU8 b.toU8 = (a * b).toU8 := by
  obtain ⟨a0, a1, a2, a3⟩ := a
  obtain ⟨b0, b1, b2, b3⟩ := b
  revert a0 a1 a2 a3 b0 b1 b2 b3
  decide +kernel

theorem toRow_add (a b : Lanes) : toRow (a + b) = fun ell => toRow a ell ^^^ toRow b ell := by
  funext ell
  exact toU8_add (a ell) (b ell)

theorem mvecMulAdd_toRow (a b : Lanes) (c : Gf16) :
    mvecMulAdd (toRow a) (toRow b) c.toU8 = toRow (a + c • b) := by
  rw [toRow_add]
  funext ell
  exact congrArg (toRow a ell ^^^ ·) (mulGf16_toU8 c (b ell))

theorem getD_map_toRow (rows : List Lanes) (i : ℕ) :
    (rows.map toRow).getD i (fun _ => 0) = toRow (rows.getD i 0) := by
  rw [List.getD_eq_getElem?_getD, List.getD_eq_getElem?_getD, List.getElem?_map]
  cases rows[i]? <;> rfl

/-! ### Tables -/

/-- The table holds the lanes `g`. -/
def RowsAre (n : ℕ) (table : List Row) (g : ℕ → Lanes) : Prop :=
  table.length = n ∧ ∀ q < n, table.getD q (fun _ => 0) = toRow (g q)

theorem rowsAre_replicate (n : ℕ) : RowsAre n (List.replicate n fun _ => 0) 0 := by
  refine ⟨List.length_replicate, fun q hq => ?_⟩
  rw [List.getD_eq_getElem?_getD, List.getElem?_replicate, if_pos hq]
  rfl

/-- A product goes into its place and into no other. -/
theorem RowsAre.modify {n place : ℕ} {table : List Row} {g : ℕ → Lanes} (h : RowsAre n table g)
    (p : Lanes) (c : Gf16) :
    RowsAre n (table.modify place (mvecMulAdd · (toRow p) c.toU8))
      (g + Pi.single place (c • p)) := by
  refine ⟨by rw [List.length_modify, h.1], fun q hq => ?_⟩
  have hrow := h.2 q hq
  rw [List.getD_eq_getElem?_getD, List.getElem?_eq_getElem (by rw [h.1]; exact hq),
    Option.getD_some] at hrow
  rw [List.getD_eq_getElem?_getD, List.getElem?_modify,
    List.getElem?_eq_getElem (by rw [h.1]; exact hq), Pi.add_apply, Pi.single_apply, hrow]
  by_cases heq : place = q
  · simp [heq, mvecMulAdd_toRow]
  · simp [heq, Ne.symm heq]

/-- Skipping a zero scalar is adding nothing. -/
theorem RowsAre.add_nothing {n place : ℕ} {table : List Row} {g : ℕ → Lanes}
    (h : RowsAre n table g) (p : Lanes) {c : Gf16} (hc : c.toU8 = 0) :
    RowsAre n table (g + Pi.single place (c • p)) := by
  have hzero : c = 0 := Gf16.toU8_injective (hc.trans rfl)
  rw [hzero, zero_smul, Pi.single_zero, add_zero]
  exact h

section Key

variable (P : KeyLanes) (s : Fin K → Fin N → Gf16)

/-- The scalars as bytes. -/
def toBytes : Fin K → Fin N → UInt8 := fun col r => (s col r).toU8

theorem readAt_toBytes (col r : ℕ) :
    readAt (readAt (toBytes s) (fun _ => 0) col) 0 r = (scalarAt s col r).toU8 := by
  unfold scalarAt readAt
  by_cases hcol : col < K
  · rw [dif_pos hcol, dif_pos hcol]
    by_cases hr : r < N
    · rw [dif_pos hr, dif_pos hr]
      rfl
    · rw [dif_neg hr, dif_neg hr]
      rfl
  · rw [dif_neg hcol, dif_neg hcol]
    by_cases hr : r < N
    · rw [dif_pos hr, dif_pos hr]
      rfl
    · rw [dif_neg hr, dif_neg hr]
      rfl

/-- What an entry of the key adds to the table, for all blocks of the signature. -/
def colsTerm (j r : ℕ) : ℕ → Lanes :=
  ∑ col ∈ Finset.Ico 0 K, Pi.single (j * K + col) (scalarAt s col r • P.entry j r)

variable {s} in
theorem RowsAre.mulAddCols {n : ℕ} {ps : List Row} {g : ℕ → Lanes} (h : RowsAre n ps g)
    {row : Row} {j r : ℕ} (hrow : row = toRow (P.entry j r)) :
    RowsAre n (mulAddCols (toBytes s) row j r ps) (g + colsTerm P s j r) := by
  subst hrow
  refine loop_adds (R := fun _ => RowsAre n) _ (Nat.zero_le _) (fun col ps g _ _ h => ?_) h
  rw [readAt_toBytes]
  by_cases hc : (scalarAt s col r).toU8 = 0
  · simp only [hc]
    exact h.add_nothing _ hc
  · simp only [ne_eq, hc]
    exact h.modify _ _

/-- The order of the reference is another order of the same sums. -/
theorem psTable_eq_cols : ∑ j ∈ Finset.Ico 0 V, (∑ r ∈ Finset.Ico j V, colsTerm P s j r +
      ∑ r ∈ Finset.Ico 0 O, colsTerm P s j (V + r)) +
        ∑ j ∈ Finset.Ico 0 O, ∑ r ∈ Finset.Ico j O, colsTerm P s (V + j) (V + r) =
      psTable P s := by
  have hright : ∀ j, ∑ r ∈ Finset.Ico 0 O, colsTerm P s j (V + r) =
      ∑ r ∈ Finset.Ico V N, colsTerm P s j r := fun j =>
    Finset.sum_Ico_add (fun r => colsTerm P s j r) 0 O V
  have hlower : ∑ j ∈ Finset.Ico 0 O, ∑ r ∈ Finset.Ico j O, colsTerm P s (V + j) (V + r) =
      ∑ j ∈ Finset.Ico V N, ∑ r ∈ Finset.Ico j N, colsTerm P s j r := by
    refine (Finset.sum_congr rfl fun j _ => ?_).trans
      (Finset.sum_Ico_add (fun j => ∑ r ∈ Finset.Ico j N, colsTerm P s j r) 0 O V)
    rw [Finset.sum_Ico_add (fun r => colsTerm P s (V + j) r) j O V, Nat.add_comm j V,
      show O + V = N from rfl]
  rw [hlower, Finset.sum_add_distrib, add_assoc, Finset.sum_congr rfl fun j _ => hright j,
    sum_blocks, psTable]
  simp only [colsTerm, Finset.range_eq_Ico]

/-- The table holds the lanes `g`, and the counter stands at an index. -/
def RowsAt (n : ℕ) (i : ℕ) (st : List Row × ℕ) (g : ℕ → Lanes) : Prop :=
  RowsAre n st.1 g ∧ st.2 = i

/-- A row of an upper-triangular block: the counter runs through the row's indices. -/
theorem RowsAt.triRow {n size j J : ℕ} (c : ℕ → ℕ) {rows : List Row} (hj : j < size)
    (hrow : ∀ r, j ≤ r → r < size →
      rows.getD (triIdx size j r) (fun _ => 0) = toRow (P.entry J (c r)))
    {st : List Row × ℕ} {g : ℕ → Lanes} (h : RowsAt n (triIdx size j j) st g) :
    RowsAt n (triIdx size (j + 1) (j + 1))
      (loop j size (fun r st => (mulAddCols (toBytes s) (rows.getD st.2 fun _ => 0) J (c r) st.1,
        st.2 + 1)) st) (g + ∑ r ∈ Finset.Ico j size, colsTerm P s J (c r)) := by
  rw [← triIdx_row_end hj]
  refine loop_adds (R := fun r => RowsAt n (triIdx size j r)) _ hj.le
    (fun r st g hjr hr h => ⟨h.1.mulAddCols P ?_, by rw [h.2, triIdx_succ hjr]⟩) h
  rw [h.2]
  exact hrow r hjr hr

theorem RowsAt.p1Row {n j : ℕ} (hj : j < V) {st : List Row × ℕ} {g : ℕ → Lanes}
    (h : RowsAt n (triIdx V j j) st g) : RowsAt n (triIdx V (j + 1) (j + 1))
      (evalP1Row (.ofLanes P) (toBytes s) j st) (g + ∑ r ∈ Finset.Ico j V, colsTerm P s j r) := by
  refine h.triRow P s (fun r => r) hj fun r _ hr => ?_
  rw [KeyLanes.entry, if_pos hr]
  exact getD_map_toRow P.p1 _

theorem RowsAre.p2Row {n j : ℕ} (hj : j < V) {ps : List Row} {g : ℕ → Lanes}
    (h : RowsAre n ps g) : RowsAre n (evalP2Row (.ofLanes P) (toBytes s) j ps)
      (g + ∑ r ∈ Finset.Ico 0 O, colsTerm P s j (V + r)) := by
  unfold evalP2Row
  refine loop_adds (R := fun _ => RowsAre n) (fun r => colsTerm P s j (V + r)) (Nat.zero_le _)
    (fun r ps g _ hr h => h.mulAddCols P ?_) h
  rw [KeyLanes.entry, if_neg (by omega), if_pos hj, Nat.add_sub_cancel_left]
  exact getD_map_toRow P.p2 _

theorem RowsAt.p3Row {n j : ℕ} (hj : j < O) {st : List Row × ℕ} {g : ℕ → Lanes}
    (h : RowsAt n (triIdx O j j) st g) : RowsAt n (triIdx O (j + 1) (j + 1))
      (evalP3Row (.ofLanes P) (toBytes s) j st)
      (g + ∑ r ∈ Finset.Ico j O, colsTerm P s (V + j) (V + r)) := by
  refine h.triRow P s (fun r => V + r) hj fun r _ _ => ?_
  rw [KeyLanes.entry, if_neg (by omega), if_neg (by omega), Nat.add_sub_cancel_left,
    Nat.add_sub_cancel_left]
  exact getD_map_toRow P.p3 _

theorem triIdx_zero (n : ℕ) : triIdx n 0 0 = 0 := by simp [triIdx]

/-- **The reference fills the table of `PS`**: its running counters are the index maps. -/
theorem evalPs_rows : RowsAre (N * K) (evalPs (.ofLanes P) (toBytes s)) (psTable P s) := by
  have hupper := loop_adds (R := fun j => RowsAt (N * K) (triIdx V j j)) _ (Nat.zero_le V)
    (f := fun j st => (evalP2Row (.ofLanes P) (toBytes s) j
      (evalP1Row (.ofLanes P) (toBytes s) j st).1, (evalP1Row (.ofLanes P) (toBytes s) j st).2))
    (fun j st g _ hj h => by
      have hrow := h.p1Row P s hj
      have hboth := hrow.1.p2Row P s hj
      rw [add_assoc] at hboth
      exact ⟨hboth, hrow.2⟩)
    (show RowsAt (N * K) (triIdx V 0 0) (List.replicate (N * K) fun _ => 0, 0) 0 from
      ⟨rowsAre_replicate (N * K), (triIdx_zero V).symm⟩)
  have hlower := loop_adds (R := fun j => RowsAt (N * K) (triIdx O j j)) _ (Nat.zero_le O)
    (fun j st g _ hj h => h.p3Row P s hj)
    (show RowsAt (N * K) (triIdx O 0 0) (_, 0) _ from ⟨hupper.1, (triIdx_zero O).symm⟩)
  rw [zero_add, psTable_eq_cols] at hlower
  exact hlower.1

/-- What a scalar of the signature adds to the table of `SPS`. -/
def spsCols (ps : ℕ → Lanes) (row j : ℕ) : ℕ → Lanes :=
  ∑ col ∈ Finset.Ico 0 K, Pi.single (row * K + col) (scalarAt s row j • ps (j * K + col))

theorem spsTable_eq_cols (ps : ℕ → Lanes) :
    spsTable s ps = ∑ row ∈ Finset.Ico 0 K, ∑ j ∈ Finset.Ico 0 N, spsCols s ps row j := by
  simp only [spsTable, spsCols, Finset.range_eq_Ico]
  exact Finset.sum_congr rfl fun row _ => Finset.sum_comm

/-- Nothing comes in with a scalar that is zero. -/
theorem spsCols_of_zero {ps : ℕ → Lanes} {row j : ℕ} (h : (scalarAt s row j).toU8 = 0) :
    spsCols s ps row j = 0 := by
  have hzero : scalarAt s row j = 0 := Gf16.toU8_injective (h.trans rfl)
  refine Finset.sum_eq_zero fun col _ => ?_
  rw [hzero, zero_smul, Pi.single_zero]

/-- **The reference fills the table of `SPS`.** -/
theorem evalSps_rows {ps : List Row} {g : ℕ → Lanes} (hps : RowsAre (N * K) ps g) :
    RowsAre (K * K) (evalSps (toBytes s) ps) (spsTable s g) := by
  rw [spsTable_eq_cols, ← zero_add (∑ row ∈ Finset.Ico 0 K, _)]
  unfold evalSps
  refine loop_adds (R := fun _ => RowsAre (K * K)) _ (Nat.zero_le K)
    (fun row sps t _ _ h => ?_) (rowsAre_replicate (K * K))
  refine loop_adds (R := fun _ => RowsAre (K * K)) _ (Nat.zero_le N) (fun j sps t _ hj h => ?_) h
  simp only [readAt_toBytes]
  by_cases hc : (scalarAt s row j).toU8 = 0
  · rw [if_pos hc, spsCols_of_zero s hc, add_zero]
    exact h
  · rw [if_neg hc]
    refine loop_adds (R := fun _ => RowsAre (K * K)) _ (Nat.zero_le K)
      (fun col sps t _ hcol h => ?_) h
    rw [hps.2 _ (by simp only [N, K] at *; omega)]
    exact h.modify _ _

end Key

/-! ### Folding -/

/-- The lanes below `n` move up by one. -/
theorem foldl_shift : ∀ (n : ℕ) (acc : Row), n < M →
    (List.range' 1 n).reverse.foldl (fun acc ell => writeAt acc ell (readAt acc 0 (ell - 1))) acc =
      fun k => if k.val = 0 ∨ n < k.val then acc k else readAt acc 0 (k.val - 1)
  | 0, acc, _ => by
      funext k
      exact (if_pos (by omega)).symm
  | n + 1, acc, hn => by
      rw [List.range'_1_concat, List.reverse_append, List.reverse_singleton, List.singleton_append,
        List.foldl_cons, foldl_shift n _ (by omega)]
      funext k
      simp only [writeAt, readAt]
      have hk := k.isLt
      by_cases h0 : k.val = 0
      · rw [if_pos (.inl h0), if_neg (by omega), if_pos (.inl h0)]
      by_cases hlast : k.val = 1 + n
      · rw [if_pos (.inr (by omega)), if_pos hlast, if_neg (by omega), dif_pos (by omega),
          dif_pos (by omega)]
        congr 2
        omega
      by_cases hgt : n < k.val
      · rw [if_pos (.inr hgt), if_neg hlast, if_pos (.inr (by omega))]
      · rw [if_neg (by omega), if_neg (by omega), dif_pos (by omega), if_neg (by omega),
          dif_pos (by omega)]

/-- What falls off comes back where `f(z)` has coefficients. -/
theorem loop_fTailBytes (top : UInt8) (acc : Row) (k : Fin M) :
    loop 0 fTailBytes.length (fun tau acc =>
      let coeff := fTailBytes.getD tau 0
      if coeff ≠ 0 then writeAt acc tau (readAt acc 0 tau ^^^ mulGf16 top coeff) else acc) acc k =
      acc k ^^^ mulGf16 top (fTail k).toU8 := by
  have hzero : mulGf16 top (0 : Gf16).toU8 = 0 := by
    rw [show (0 : Gf16).toU8 = 0 from rfl]
    simp [mulGf16]
  have hrun : loop 0 fTailBytes.length (fun tau acc =>
      let coeff := fTailBytes.getD tau 0
      if coeff ≠ 0 then writeAt acc tau (readAt acc 0 tau ^^^ mulGf16 top coeff) else acc) acc =
      writeAt (writeAt (writeAt acc 0 (acc 0 ^^^ mulGf16 top 8)) 2 (acc 2 ^^^ mulGf16 top 2)) 3
        (acc 3 ^^^ mulGf16 top 8) := rfl
  rw [hrun]
  unfold writeAt fTail
  by_cases h3 : k.val = 3
  · rw [if_pos h3, if_pos (.inr h3), show k = 3 from Fin.ext h3]
    rfl
  rw [if_neg h3]
  by_cases h2 : k.val = 2
  · rw [if_pos h2, if_neg (by omega), if_pos h2, show k = 2 from Fin.ext h2]
    rfl
  rw [if_neg h2]
  by_cases h0 : k.val = 0
  · rw [if_pos h0, if_pos (.inl h0), show k = 0 from Fin.ext h0]
    rfl
  · rw [if_neg h0, if_neg (by omega), if_neg h2, hzero, UInt8.xor_zero]

/-- **The reference multiplies by `z`.** -/
theorem mulByZ_toRow (a : Lanes) : mulByZ (toRow a) = toRow (timesZ a) := by
  funext k
  unfold mulByZ
  rw [foldl_shift (M - 1) _ (by decide), loop_fTailBytes]
  refine Eq.trans ?_ (toU8_add _ _).symm
  have htop : readAt (toRow a) 0 (M - 1) = (a ⟨M - 1, by decide⟩).toU8 := rfl
  rw [htop, mulGf16_toU8]
  congr 1
  unfold writeAt
  have hk := k.isLt
  by_cases h0 : k.val = 0
  · rw [if_pos h0, dif_pos h0]
    rfl
  · rw [if_neg h0, dif_neg h0]
    simp only [readAt]
    rw [if_neg (by omega), dif_pos (by omega)]
    rfl

theorem whipStep_toRow (sps : ℕ → ℕ → Lanes) (i j : ℕ) (acc : Lanes) :
    toRow (whipStep sps i j acc) =
      if i ≠ j then fun ell => (mulByZ (toRow acc) ell ^^^ toRow (sps i j) ell) ^^^
        toRow (sps j i) ell
      else fun ell => mulByZ (toRow acc) ell ^^^ toRow (sps i j) ell := by
  rw [mulByZ_toRow]
  unfold whipStep
  by_cases h : i ≠ j
  · simp only [if_pos h, toRow_add]
  · simp only [if_neg h, toRow_add]

/-- **The reference folds the values together.** -/
theorem evalWhip_rows {sps : List Row} {g : ℕ → Lanes} (h : RowsAre (K * K) sps g) :
    evalWhip sps = toRow (whip fun row col => g (row * K + col)) := by
  have hrev : (List.range K).reverse = (List.range' 0 (K - 0)).map (K - 1 - ·) := by decide
  rw [evalWhip, hrev, List.foldl_map]
  refine loop_sim (R := fun _ (row : Row) acc => row = toRow acc) (Nat.zero_le K)
    (fun iInv row acc _ hi hrow => ?_) rfl
  refine loop_sim (R := fun _ (row : Row) acc => row = toRow acc)
    (by simp only [K] at *; omega) (fun j row acc _ hj hrow => ?_) hrow
  have hij : (K - 1 - iInv) * K + j < K * K := by simp only [K] at *; omega
  have hji : j * K + (K - 1 - iInv) < K * K := by simp only [K] at *; omega
  rw [whipStep_toRow, hrow]
  simp only [h.2 _ hij, h.2 _ hji]

/-- **What the reference evaluates is the public map.** -/
theorem evalPublicMap_eq (P : KeyLanes) (s : Fin K → Fin N → Gf16) :
    evalPublicMap (.ofLanes P) (toBytes s) = toRow (publicMap P s) := by
  rw [evalPublicMap, evalWhip_rows (evalSps_rows s (evalPs_rows P s))]
  exact congrArg toRow (whip_congr fun row col hrow hcol => spsTable_apply P s hrow hcol)

end Works.BiniusMayo.Oracle
