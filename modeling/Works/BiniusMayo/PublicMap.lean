import Works.BiniusMayo.Params
import Works.Lib.Gf16
import Works.Lib.Loops

/-! # The public map of MAYO-2

The map on vectors over GF(16): with the key as an upper-triangular matrix `P` of vectors of `M`
equations, block `col` of the signature gives `PS j col = ∑ r ≥ j, s col r • P j r`, two blocks
give `SPS row col = ∑ j, s row j • PS j col`, and the sixteen values are folded together as
polynomials modulo `f(z) = z^M + 8z³ + 2z² + 8`. -/

namespace Works.BiniusMayo

open Lib

/-- A vector of `M` elements. -/
abbrev Lanes := Fin M → Gf16

/-- Linear index of the entry `(i, j)` of an upper-triangular matrix of size `n`, row by row. -/
def triIdx (n i j : ℕ) : ℕ := i * (2 * n - i + 1) / 2 + (j - i)

/-- Linear index into `P^(1)`. -/
def idxP1 (i j : ℕ) : ℕ := triIdx V i j

/-- Linear index into `P^(2)`. -/
def idxP2 (i j : ℕ) : ℕ := i * O + j

/-- Linear index into `P^(3)`. -/
def idxP3 (i j : ℕ) : ℕ := triIdx O i j

/-- The three blocks of a key. -/
structure KeyLanes where
  p1 : List Lanes
  p2 : List Lanes
  p3 : List Lanes

/-- The entry of the matrix in row `j` and column `r ≥ j`. -/
def KeyLanes.entry (P : KeyLanes) (j r : ℕ) : Lanes :=
  if r < V then P.p1.getD (idxP1 j r) 0
  else if j < V then P.p2.getD (idxP2 j (r - V)) 0
  else P.p3.getD (idxP3 (j - V) (r - V)) 0

/-- An array read at an index that its loops keep in range. -/
def readAt {α : Type} {n : ℕ} (a : Fin n → α) (d : α) (i : ℕ) : α := if h : i < n then a ⟨i, h⟩ else d

/-- Scalar `r` of block `col`. -/
def scalarAt (s : Fin K → Fin N → Gf16) (col r : ℕ) : Gf16 := readAt (readAt s (fun _ => 0) col) 0 r

variable (P : KeyLanes) (s : Fin K → Fin N → Gf16)

/-- `PS j col`. -/
def psValue (j col : ℕ) : Lanes := ∑ r ∈ Finset.Ico j N, scalarAt s col r • P.entry j r

/-- `SPS row col`. -/
def spsValue (row col : ℕ) : Lanes :=
  ∑ j ∈ Finset.range N, scalarAt s row j • psValue P s j col

/-- The tail of `f(z)`: `8 + 2z² + 8z³`. -/
def fTail : Lanes := fun ℓ =>
  if ℓ.val = 0 ∨ ℓ.val = 3 then ⟨false, false, false, true⟩
  else if ℓ.val = 2 then ⟨false, true, false, false⟩
  else 0

/-- Multiplication by `z` modulo `f(z)`. -/
def timesZ (a : Lanes) : Lanes := fun ℓ =>
  (if h : ℓ.val = 0 then 0 else a ⟨ℓ.val - 1, by omega⟩) + a ⟨M - 1, by decide⟩ * fTail ℓ

/-- One step of the folding: the value of the blocks `i` and `j` comes in. -/
def whipStep (sps : ℕ → ℕ → Lanes) (i j : ℕ) (acc : Lanes) : Lanes :=
  let acc := timesZ acc + sps i j
  if i ≠ j then acc + sps j i else acc

/-- The values of all pairs of blocks, folded together. -/
def whip (sps : ℕ → ℕ → Lanes) : Lanes :=
  loop 0 K (fun iInv acc =>
    let i := K - 1 - iInv
    loop i K (fun j acc => whipStep sps i j acc) acc) 0

/-- The public map of the key at the signature. -/
def publicMap : Lanes := whip (spsValue P s)

/-- The folding reads the values of the blocks. -/
theorem whip_congr {g h : ℕ → ℕ → Lanes}
    (hgh : ∀ row col, row < K → col < K → g row col = h row col) : whip g = whip h := by
  refine loop_sim (R := fun _ a b => a = b) (Nat.zero_le K) (fun iInv a b _ hi hab => ?_) rfl
  refine loop_sim (R := fun _ a b => a = b) (by simp only [K] at *; omega)
    (fun j a b _ hj hab => ?_) hab
  have hi : K - 1 - iInv < K := by simp only [K] at *; omega
  rw [hab, whipStep, whipStep, hgh _ _ hi hj, hgh _ _ hj hi]

/-! ### Tables -/

/-- The table of `PS`, filled entry by entry: place `j * K + col` collects `PS j col`. -/
def psTable : ℕ → Lanes :=
  ∑ j ∈ Finset.range N, ∑ r ∈ Finset.Ico j N, ∑ col ∈ Finset.range K,
    Pi.single (j * K + col) (scalarAt s col r • P.entry j r)

/-- The table of `SPS` over a table of `PS`. -/
def spsTable (ps : ℕ → Lanes) : ℕ → Lanes :=
  ∑ row ∈ Finset.range K, ∑ col ∈ Finset.range K, ∑ j ∈ Finset.range N,
    Pi.single (row * K + col) (scalarAt s row j • ps (j * K + col))

theorem place_inj {j j' col col' : ℕ} (h : col < K) (h' : col' < K) :
    j * K + col = j' * K + col' ↔ j = j' ∧ col = col' := by
  simp only [K] at *
  omega

/-- Only the entries of its own place come together in a place of a table. -/
theorem sum_single_apply {m : ℕ} (c : ℕ → ℕ → Lanes) {j col : ℕ} (hj : j < m) (hcol : col < K) :
    (∑ j ∈ Finset.range m, ∑ col ∈ Finset.range K,
      (Pi.single (j * K + col) (c j col) : ℕ → Lanes)) (j * K + col) = c j col := by
  simp only [Finset.sum_apply, Pi.single_apply]
  rw [Finset.sum_eq_single j, Finset.sum_eq_single col]
  · simp
  · intro col' hcol' hne
    rw [if_neg]
    rw [place_inj hcol (Finset.mem_range.mp hcol')]
    exact fun h => hne h.2.symm
  · exact fun h => absurd (Finset.mem_range.mpr hcol) h
  · intro j' _ hne
    refine Finset.sum_eq_zero fun col' hcol' => if_neg ?_
    rw [place_inj hcol (Finset.mem_range.mp hcol')]
    exact fun h => hne h.1.symm
  · exact fun h => absurd (Finset.mem_range.mpr hj) h

theorem sum_single {ι : Type} (t : Finset ι) (q : ℕ) (c : ι → Lanes) :
    ∑ i ∈ t, (Pi.single q (c i) : ℕ → Lanes) = Pi.single q (∑ i ∈ t, c i) :=
  (map_sum (AddMonoidHom.single (fun _ : ℕ => Lanes) q) c t).symm

theorem psTable_apply {j col : ℕ} (hj : j < N) (hcol : col < K) :
    psTable P s (j * K + col) = psValue P s j col := by
  have htable : psTable P s = ∑ j ∈ Finset.range N, ∑ col ∈ Finset.range K,
      Pi.single (j * K + col) (psValue P s j col) := by
    refine Finset.sum_congr rfl fun j _ => ?_
    rw [Finset.sum_comm]
    exact Finset.sum_congr rfl fun col _ => sum_single _ _ _
  rw [htable, sum_single_apply _ hj hcol]

theorem spsTable_apply {row col : ℕ} (hrow : row < K) (hcol : col < K) :
    spsTable s (psTable P s) (row * K + col) = spsValue P s row col := by
  have htable : spsTable s (psTable P s) = ∑ row ∈ Finset.range K, ∑ col ∈ Finset.range K,
      Pi.single (row * K + col) (spsValue P s row col) := by
    refine Finset.sum_congr rfl fun row _ => Finset.sum_congr rfl fun col hcol => ?_
    rw [sum_single]
    congr 1
    refine Finset.sum_congr rfl fun j hj => ?_
    rw [psTable_apply P s (Finset.mem_range.mp hj) (Finset.mem_range.mp hcol)]
  rw [htable, sum_single_apply _ hrow hcol]

/-- The entries of an upper-triangular matrix, block by block. -/
theorem sum_blocks {G : Type} [AddCommMonoid G] (c : ℕ → ℕ → G) :
    ∑ j ∈ Finset.Ico 0 V, ∑ r ∈ Finset.Ico j V, c j r +
        (∑ j ∈ Finset.Ico 0 V, ∑ r ∈ Finset.Ico V N, c j r +
          ∑ j ∈ Finset.Ico V N, ∑ r ∈ Finset.Ico j N, c j r) =
      ∑ j ∈ Finset.range N, ∑ r ∈ Finset.Ico j N, c j r := by
  have hrow : ∀ j ∈ Finset.Ico 0 V, ∑ r ∈ Finset.Ico j V, c j r + ∑ r ∈ Finset.Ico V N, c j r =
      ∑ r ∈ Finset.Ico j N, c j r := by
    intro j hj
    exact Finset.sum_Ico_consecutive _ (Finset.mem_Ico.mp hj).2.le (by decide)
  rw [← add_assoc, ← Finset.sum_add_distrib, Finset.sum_congr rfl hrow, Finset.range_eq_Ico]
  exact Finset.sum_Ico_consecutive _ (Nat.zero_le _) (by decide)

end Works.BiniusMayo
