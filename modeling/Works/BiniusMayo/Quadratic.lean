import Works.BiniusMayo.Gf16.Mul
import Works.BiniusMayo.PublicMap

/-! # The quadratic form in the circuit

The wires of the expanded key and of the signature, and the two passes over them: the first fills
the table of `PS`, the second that of `SPS`.  Each pass adds products into the places of its table
in the order of its loops; what the places hold in the end are the sums of the public map. -/

namespace Works.BiniusMayo

open Lib Lib.Circuit

/-- The wires of the expanded public key, block by block. -/
structure ExpandedPkWires where
  p1 : List BitslicedGf16Mvec
  p2 : List BitslicedGf16Mvec
  p3 : List BitslicedGf16Mvec

/-- `(0..n).map(|_| new_witness).collect()`. -/
def newWitnesses (n : ℕ) : CircuitBuilder (List BitslicedGf16Mvec) :=
  (List.range n).mapM fun _ => BitslicedGf16Mvec.newWitness

namespace ExpandedPkWires

def newWitness : CircuitBuilder ExpandedPkWires := do
  let p1 ← newWitnesses p1Entries
  let p2 ← newWitnesses p2Entries
  let p3 ← newWitnesses p3Entries
  pure ⟨p1, p2, p3⟩

/-- Write lanes to the wires of a block. -/
def populateBlock (w : WitnessFiller) (wires : List BitslicedGf16Mvec)
    (lanes : List (Fin M → UInt8)) : WitnessFiller :=
  (wires.zip lanes).foldl (fun w entry => entry.1.populate w entry.2) w

/-- Write the lanes of all entries. -/
def populate (pk : ExpandedPkWires) (w : WitnessFiller) (p1Lanes p2Lanes p3Lanes :
    List (Fin M → UInt8)) : WitnessFiller :=
  populateBlock (populateBlock (populateBlock w pk.p1 p1Lanes) pk.p2 p2Lanes) pk.p3 p3Lanes

/-- The key that an assignment gives to the wires. -/
def lanes (v : Wire → Word) (pk : ExpandedPkWires) : KeyLanes :=
  ⟨pk.p1.map (·.lanes v), pk.p2.map (·.lanes v), pk.p3.map (·.lanes v)⟩

end ExpandedPkWires

/-- The wires of the signature's scalars, and the vectors they are spread to. -/
structure SigBroadcasts where
  nibbleWires : Fin K → Fin N → Wire
  broadcasts : Fin K → Fin N → BitslicedGf16Mvec

namespace SigBroadcasts

def newWitness : CircuitBuilder SigBroadcasts := do
  let nibbleWires ← fromFn K fun _col => fromFn N fun _r => addWitness
  let broadcasts ← fromFn K fun col => fromFn N fun r => broadcastScalar (nibbleWires col r)
  pure ⟨nibbleWires, broadcasts⟩

/-- Write the scalars to their wires. -/
def populate (sb : SigBroadcasts) (w : WitnessFiller) (s : Fin K → Fin N → UInt8) :
    WitnessFiller :=
  (List.finRange K).foldl (fun w col => (List.finRange N).foldl (fun w r =>
    w.set (sb.nibbleWires col r) (asWord (s col r))) w) w

/-- The scalars that an assignment gives to the wires. -/
def scalars (v : Wire → Word) (sb : SigBroadcasts) : Fin K → Fin N → Gf16 :=
  fun col r => lowNibble (v (sb.nibbleWires col r))

/-- `broadcasts[col][r]`. -/
def broadcastAt (sb : SigBroadcasts) (col r : ℕ) : BitslicedGf16Mvec :=
  readAt (readAt sb.broadcasts (fun _ => default) col) default r

end SigBroadcasts

/-- The zero vector, one constant for all planes. -/
def zeroMvec : CircuitBuilder BitslicedGf16Mvec := do
  let z ← addConstant 0
  pure ⟨fun _ => z⟩

/-- `mul_into_acc` on a place of a table. -/
def mulIntoPlace (scalar vec : BitslicedGf16Mvec) (place : ℕ) (table : List BitslicedGf16Mvec) :
    CircuitBuilder (List BitslicedGf16Mvec) := do
  let acc ← mulIntoAcc scalar vec (table.getD place default)
  pure (table.set place acc)

/-- `PS[j*K + col] = Σ_{r ≥ j} P[j][r] · s[col][r]`. -/
def computePs (pk : ExpandedPkWires) (sb : SigBroadcasts) :
    CircuitBuilder (List BitslicedGf16Mvec) := do
  let z ← zeroMvec
  loopM 0 K (fun col ps => do
    let ps ← loopM 0 V (fun j => loopM j V fun r =>
      mulIntoPlace (sb.broadcastAt col r) (pk.p1.getD (idxP1 j r) default) (j * K + col)) ps
    let ps ← loopM 0 V (fun j => loopM V N fun r =>
      mulIntoPlace (sb.broadcastAt col r) (pk.p2.getD (idxP2 j (r - V)) default) (j * K + col)) ps
    loopM V N (fun j => loopM j N fun r =>
      mulIntoPlace (sb.broadcastAt col r) (pk.p3.getD (idxP3 (j - V) (r - V)) default)
        (j * K + col)) ps)
    (List.replicate (N * K) z)

/-- `SPS[row*K + col] = Σ_j s[row][j] · PS[j*K + col]`. -/
def computeSps (sb : SigBroadcasts) (ps : List BitslicedGf16Mvec) :
    CircuitBuilder (List BitslicedGf16Mvec) := do
  let z ← zeroMvec
  loopM 0 K (fun row => loopM 0 K fun col => loopM 0 N fun j =>
    mulIntoPlace (sb.broadcastAt row j) (ps.getD (j * K + col) default) (row * K + col))
    (List.replicate (K * K) z)

/-! ### Index maps -/

/-- A row of an upper-triangular matrix ends where the next one starts. -/
theorem triIdx_row_end {n j : ℕ} (h : j < n) : triIdx n j n = triIdx n (j + 1) (j + 1) := by
  obtain ⟨k, rfl⟩ : ∃ k, n = j + 1 + k := ⟨n - (j + 1), by omega⟩
  have h1 : 2 * (j + 1 + k) - j + 1 = j + 2 * k + 3 := by omega
  have h2 : 2 * (j + 1 + k) - (j + 1) + 1 = j + 2 * k + 2 := by omega
  have h3 : (j + 1) * (j + 2 * k + 2) = j * (j + 2 * k + 3) + 2 * (k + 1) := by ring
  rw [triIdx, triIdx, h1, h2, h3, Nat.add_mul_div_left _ _ (by omega)]
  omega

theorem triIdx_succ {n i j : ℕ} (h : i ≤ j) : triIdx n i (j + 1) = triIdx n i j + 1 := by
  rw [triIdx, triIdx]
  omega

/-- The index maps stay inside the blocks. -/
theorem triIdx_lt {n i j : ℕ} (hij : i ≤ j) (hj : j < n) : triIdx n i j < n * (n + 1) / 2 := by
  have hmono : ∀ k, i ≤ k → k < n → triIdx n i j < triIdx n k n := by
    intro k hik hk
    induction k, hik using Nat.le_induction with
    | base =>
        rw [triIdx, triIdx]
        omega
    | succ k _ ih =>
        refine (ih (by omega)).trans_le ?_
        rw [triIdx_row_end (by omega)]
        simp only [triIdx]
        omega
  have hlast := hmono (n - 1) (by omega) (by omega)
  have hend : triIdx n n n = n * (n + 1) / 2 := by
    rw [triIdx, Nat.sub_self, show 2 * n - n + 1 = n + 1 by omega, Nat.add_zero]
  rwa [triIdx_row_end (by omega), show n - 1 + 1 = n by omega, hend] at hlast

theorem idxP1_lt {i j : ℕ} (hij : i ≤ j) (hj : j < V) : idxP1 i j < p1Entries := triIdx_lt hij hj

theorem idxP2_lt {i j : ℕ} (hi : i < V) (hj : j < O) : idxP2 i j < p2Entries := by
  simp only [idxP2, p2Entries, V, N, O] at *
  omega

theorem idxP3_lt {i j : ℕ} (hij : i ≤ j) (hj : j < O) : idxP3 i j < p3Entries := triIdx_lt hij hj

/-! ### What the passes compute -/

variable {f : KeccakState → KeccakState} {v : Wire → Word}

theorem SigBroadcasts.newWitness_yields : Yields f v SigBroadcasts.newWitness fun sb =>
    (∀ col r, (sb.nibbleWires col r).IsInput) ∧
      ∀ col r, (sb.broadcasts col r).lanes v = fun _ => sb.scalars v col r :=
  Computes.bind (fromFn_computes fun _ => fromFn_computes fun _ => addWitness_spec)
    fun _ hnibble => Computes.bind
      (fromFn_computes fun _ => fromFn_computes fun _ => broadcastScalar_yields _)
      fun _ hbroad => Computes.pure ⟨hnibble, hbroad⟩

/-- The table of wires holds the lanes `g`. -/
def TableIs (v : Wire → Word) (n : ℕ) (table : List BitslicedGf16Mvec) (g : ℕ → Lanes) : Prop :=
  table.length = n ∧ ∀ q < n, (table.getD q default).lanes v = g q

/-- The vectors of the signature hold its scalars. -/
def Broadcast (v : Wire → Word) (sb : SigBroadcasts) : Prop :=
  ∀ col r, (sb.broadcasts col r).lanes v = fun _ => sb.scalars v col r

theorem zeroMvec_yields : Yields f v zeroMvec fun z => z.lanes v = 0 := by
  refine addConstant_bind fun z hz => Computes.pure ?_
  refine BitslicedGf16Mvec.lanes_eq fun ℓ b => ?_
  rw [hz, Pi.zero_apply]
  refine BitVec.getLsbD_zero.trans ?_
  fin_cases b <;> rfl

theorem tableIs_replicate {n : ℕ} {z : BitslicedGf16Mvec} (hz : z.lanes v = 0) :
    TableIs v n (List.replicate n z) 0 := by
  refine ⟨List.length_replicate, fun q hq => ?_⟩
  rw [List.getD_eq_getElem?_getD, List.getElem?_replicate, if_pos hq]
  exact hz

theorem Broadcast.at {sb : SigBroadcasts} (h : Broadcast v sb) {col r : ℕ} (hcol : col < K)
    (hr : r < N) : (sb.broadcastAt col r).lanes v = fun _ => scalarAt (sb.scalars v) col r := by
  simp only [SigBroadcasts.broadcastAt, scalarAt, readAt, dif_pos hcol, dif_pos hr]
  exact h _ _

/-- A product goes into its place and into no other. -/
theorem mulIntoPlace_yields {scalar vec : BitslicedGf16Mvec} {c : Gf16} {place n : ℕ}
    {table : List BitslicedGf16Mvec} {g : ℕ → Lanes} (hc : scalar.lanes v = fun _ => c)
    (hplace : place < n) (h : TableIs v n table g) :
    Yields f v (mulIntoPlace scalar vec place table) fun table' =>
      TableIs v n table' (g + Pi.single place (c • vec.lanes v)) := by
  refine Computes.bind (mulIntoAcc_yields scalar vec _) fun acc hacc => Computes.pure ?_
  refine ⟨by rw [List.length_set, h.1], fun q hq => ?_⟩
  rw [List.getD_eq_getElem?_getD, List.getElem?_set, Pi.add_apply, Pi.single_apply]
  by_cases heq : q = place
  · subst heq
    rw [if_pos rfl, if_pos (by rw [h.1]; exact hq), if_pos rfl, Option.getD_some, hacc, h.2 q hq, hc]
    rfl
  · rw [if_neg (Ne.symm heq), if_neg heq, add_zero, ← List.getD_eq_getElem?_getD]
    exact h.2 q hq

/-- A block of wires holds the lanes of a block of a key, entry by entry. -/
theorem getD_lanes {entries : List BitslicedGf16Mvec} {i n : ℕ} (hn : entries.length = n)
    (hi : i < n) : (entries.map (·.lanes v)).getD i 0 = (entries.getD i default).lanes v := by
  rw [List.getD_eq_getElem?_getD, List.getD_eq_getElem?_getD, List.getElem?_map,
    List.getElem?_eq_getElem (by omega)]
  rfl

/-- All entries of the key have wires. -/
structure ExpandedPkWires.Sized (pk : ExpandedPkWires) : Prop where
  p1 : pk.p1.length = p1Entries
  p2 : pk.p2.length = p2Entries
  p3 : pk.p3.length = p3Entries

/-- The entries of the key, where its first loop reads them. -/
theorem ExpandedPkWires.Sized.entry_p1 {pk : ExpandedPkWires} (h : pk.Sized) {j r : ℕ}
    (hj : j ≤ r) (hr : r < V) :
    (pk.p1.getD (idxP1 j r) default).lanes v = (pk.lanes v).entry j r := by
  rw [KeyLanes.entry, if_pos hr]
  exact (getD_lanes h.p1 (idxP1_lt hj hr)).symm

theorem ExpandedPkWires.Sized.entry_p2 {pk : ExpandedPkWires} (h : pk.Sized) {j r : ℕ}
    (hj : j < V) (hr : V ≤ r) (hrN : r < N) :
    (pk.p2.getD (idxP2 j (r - V)) default).lanes v = (pk.lanes v).entry j r := by
  rw [KeyLanes.entry, if_neg (by omega), if_pos hj]
  exact (getD_lanes h.p2 (idxP2_lt hj (by simp only [V, N, O] at *; omega))).symm

theorem ExpandedPkWires.Sized.entry_p3 {pk : ExpandedPkWires} (h : pk.Sized) {j r : ℕ}
    (hj : V ≤ j) (hr : j ≤ r) (hrN : r < N) :
    (pk.p3.getD (idxP3 (j - V) (r - V)) default).lanes v = (pk.lanes v).entry j r := by
  rw [KeyLanes.entry, if_neg (by omega), if_neg (by omega)]
  exact (getD_lanes h.p3 (idxP3_lt (by omega) (by simp only [V, N, O] at *; omega))).symm

/-- A loop that adds to a table adds the sum. -/
theorem loopM_table {n lo hi : ℕ}
    {body : ℕ → List BitslicedGf16Mvec → CircuitBuilder (List BitslicedGf16Mvec)}
    (c : ℕ → ℕ → Lanes) (hle : lo ≤ hi)
    (hbody : ∀ i table g, lo ≤ i → i < hi → TableIs v n table g →
      Yields f v (body i table) fun table' => TableIs v n table' (g + c i))
    {table : List BitslicedGf16Mvec} {g : ℕ → Lanes} (h : TableIs v n table g) :
    Yields f v (loopM lo hi body table) fun table' =>
      TableIs v n table' (g + ∑ i ∈ Finset.Ico lo hi, c i) :=
  loopM_adds (R := fun _ => TableIs v n) c hle hbody h

/-- What an entry of the key adds to the table of `PS`. -/
def psTerm (P : KeyLanes) (s : Fin K → Fin N → Gf16) (col j r : ℕ) : ℕ → Lanes :=
  Pi.single (j * K + col) (scalarAt s col r • P.entry j r)

theorem psTable_eq (P : KeyLanes) (s : Fin K → Fin N → Gf16) :
    psTable P s = ∑ col ∈ Finset.Ico 0 K, ∑ j ∈ Finset.range N, ∑ r ∈ Finset.Ico j N,
      psTerm P s col j r := by
  rw [Finset.sum_comm, psTable]
  refine Finset.sum_congr rfl fun j _ => ?_
  rw [Finset.sum_comm, Finset.range_eq_Ico]
  rfl

/-- **The first pass fills the table of `PS`.** -/
theorem computePs_yields {pk : ExpandedPkWires} {sb : SigBroadcasts} (hpk : pk.Sized)
    (hsb : Broadcast v sb) : Yields f v (computePs pk sb) fun ps =>
      TableIs v (N * K) ps (psTable (pk.lanes v) (sb.scalars v)) := by
  refine Computes.bind zeroMvec_yields fun z hz => ?_
  rw [psTable_eq, ← zero_add (∑ col ∈ Finset.Ico 0 K, _)]
  refine loopM_table _ (Nat.zero_le _) (fun col ps g _ hcol hps => ?_) (tableIs_replicate hz)
  have hplace : ∀ j < N, j * K + col < N * K := by
    intro j hj
    simp only [N, K] at *
    omega
  rw [← sum_blocks, ← add_assoc, ← add_assoc]
  refine Computes.bind (loopM_table _ (Nat.zero_le _) (fun j ps g _ hj hps =>
    loopM_table (psTerm (pk.lanes v) (sb.scalars v) col j) hj.le (fun r ps g hjr hr hps => ?_) hps)
      hps) fun ps₁ h₁ => ?_
  · rw [psTerm, ← hpk.entry_p1 hjr hr]
    exact mulIntoPlace_yields (hsb.at hcol (hr.trans (by decide))) (hplace j (hj.trans (by decide)))
      hps
  refine Computes.bind (loopM_table _ (Nat.zero_le _) (fun j ps g _ hj hps =>
    loopM_table (psTerm (pk.lanes v) (sb.scalars v) col j) (by decide) (fun r ps g hVr hr hps => ?_)
      hps) h₁) fun ps₂ h₂ => ?_
  · rw [psTerm, ← hpk.entry_p2 hj hVr hr]
    exact mulIntoPlace_yields (hsb.at hcol hr) (hplace j (hj.trans (by decide))) hps
  refine loopM_table _ (by decide) (fun j ps g hVj hj hps =>
    loopM_table (psTerm (pk.lanes v) (sb.scalars v) col j) hj.le (fun r ps g hjr hr hps => ?_) hps)
      h₂
  rw [psTerm, ← hpk.entry_p3 hVj hjr hr]
  exact mulIntoPlace_yields (hsb.at hcol hr) (hplace j hj) hps

/-- **The second pass fills the table of `SPS`.** -/
theorem computeSps_yields {sb : SigBroadcasts} {ps : List BitslicedGf16Mvec} {g : ℕ → Lanes}
    (hsb : Broadcast v sb) (hps : TableIs v (N * K) ps g) :
    Yields f v (computeSps sb ps) fun sps =>
      TableIs v (K * K) sps (spsTable (sb.scalars v) g) := by
  refine Computes.bind zeroMvec_yields fun z hz => ?_
  rw [← zero_add (spsTable _ _), spsTable, Finset.range_eq_Ico, Finset.range_eq_Ico]
  refine loopM_table _ (Nat.zero_le _) (fun row sps t _ hrow h => ?_) (tableIs_replicate hz)
  refine loopM_table _ (Nat.zero_le _) (fun col sps t _ hcol h => ?_) h
  refine loopM_table _ (Nat.zero_le _) (fun j sps t _ hj h => ?_) h
  rw [← hps.2 (j * K + col) (by simp only [N, K] at *; omega)]
  exact mulIntoPlace_yields (hsb.at hrow hj) (by simp only [K] at *; omega) h

end Works.BiniusMayo
