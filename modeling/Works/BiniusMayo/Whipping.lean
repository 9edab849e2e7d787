import Works.BiniusMayo.Quadratic

/-! # Folding the values of all pairs of blocks in the circuit

The accumulator is multiplied by `z` on its planes: every plane is shifted by one, and the lane
that falls off comes back in the lanes 0, 2 and 3, multiplied by constants of GF(16) that are
linear on its bits. -/

namespace Works.BiniusMayo

open Lib Lib.Circuit

/-- `ledger * z mod f(z)`. -/
def ledgerTimesZ (ledger : BitslicedGf16Mvec) : CircuitBuilder BitslicedGf16Mvec := do
  -- The lane that falls off, one bit from each plane.
  let t0 ← shr (ledger.bits 0) 63
  let t1 ← shr (ledger.bits 1) 63
  let t2 ← shr (ledger.bits 2) 63
  let t3 ← shr (ledger.bits 3) 63
  let s0 ← shl (ledger.bits 0) 1
  let s1 ← shl (ledger.bits 1) 1
  let s2 ← shl (ledger.bits 2) 1
  let s3 ← shl (ledger.bits 3) 1
  -- `top * 8`
  let m8_0 := t1
  let m8_1 ← bxor t1 t2
  let m8_2 ← bxor t2 t3
  let m8_3 ← bxor t0 t3
  -- `top * 2`
  let m2_0 := t3
  let m2_1 ← bxor t0 t3
  let m2_2 := t1
  let m2_3 := t2
  let f0Lane3 ← shl m8_0 3
  let f0Lane2 ← shl m2_0 2
  let new0 ← bxorMulti [s0, m8_0, f0Lane2, f0Lane3]
  let f1Lane3 ← shl m8_1 3
  let f1Lane2 ← shl m2_1 2
  let new1 ← bxorMulti [s1, m8_1, f1Lane2, f1Lane3]
  let f2Lane3 ← shl m8_2 3
  let f2Lane2 ← shl m2_2 2
  let new2 ← bxorMulti [s2, m8_2, f2Lane2, f2Lane3]
  let f3Lane3 ← shl m8_3 3
  let f3Lane2 ← shl m2_3 2
  let new3 ← bxorMulti [s3, m8_3, f3Lane2, f3Lane3]
  pure ⟨![new0, new1, new2, new3]⟩

/-- One step of the schedule: the values of the blocks `i` and `j` come in. -/
def rhsStep (sps : List BitslicedGf16Mvec) (i j : ℕ) (ledger : BitslicedGf16Mvec) :
    CircuitBuilder BitslicedGf16Mvec := do
  let ledger ← ledgerTimesZ ledger
  let ledger ← ledger.add (sps.getD (i * K + j) default)
  if i ≠ j then ledger.add (sps.getD (j * K + i) default) else pure ledger

/-- Combine the `K * K` values of `SPS`. -/
def computeRhs (sps : List BitslicedGf16Mvec) : CircuitBuilder BitslicedGf16Mvec := do
  let ledger ← zeroMvec
  loopM 0 K (fun iInv =>
    let i := K - 1 - iInv
    loopM i K fun j => rhsStep sps i j) ledger

variable {f : KeccakState → KeccakState} {v : Wire → Word}

/-- The bits of `top * 8`. -/
def times8 (t : Gf16) : Fin 4 → Bool := ![t.b1, t.b1 ^^ t.b2, t.b2 ^^ t.b3, t.b0 ^^ t.b3]

/-- The bits of `top * 2`. -/
def times2 (t : Gf16) : Fin 4 → Bool := ![t.b3, t.b0 ^^ t.b3, t.b1, t.b2]

/-- A bit in the lowest place of a word. -/
def bitWord (c : Bool) : Word := bif c then 1 else 0

theorem getLsbD_bitWord (c : Bool) (i : ℕ) : (bitWord c).getLsbD i = (decide (i = 0) && c) := by
  cases c
  · simp [bitWord]
  · simp [bitWord, show (1 : Word) = 1#64 from rfl, BitVec.getLsbD_one]

theorem shiftRight_63 (w : Word) : w >>> 63 = bitWord (w.getLsbD 63) := by
  apply BitVec.eq_of_getLsbD_eq
  intro i hi
  rw [BitVec.getLsbD_ushiftRight, getLsbD_bitWord]
  by_cases h0 : i = 0
  · simp [h0]
  · simp [h0, BitVec.getLsbD_of_ge w (63 + i) (by omega)]

theorem bitWord_xor (c d : Bool) : bitWord c ^^^ bitWord d = bitWord (c ^^ d) := by
  cases c <;> cases d <;> rfl

/-- Multiplying by the tail of `f(z)` is linear on the bits. -/
theorem coeff_mul_fTail (t : Gf16) (ℓ : Fin M) (b : Fin 4) : (t * fTail ℓ).coeff b =
    ((decide (ℓ.val = 0 ∨ ℓ.val = 3) && times8 t b) ^^ (decide (ℓ.val = 2) && times2 t b)) := by
  have h8 : ∀ t : Gf16, (t * ⟨false, false, false, true⟩).coeff b = times8 t b := by
    rintro ⟨t0, t1, t2, t3⟩
    revert t0 t1 t2 t3 b
    decide
  have h2 : ∀ t : Gf16, (t * ⟨false, true, false, false⟩).coeff b = times2 t b := by
    rintro ⟨t0, t1, t2, t3⟩
    revert t0 t1 t2 t3 b
    decide
  unfold fTail
  by_cases h03 : ℓ.val = 0 ∨ ℓ.val = 3
  · rw [if_pos h03, h8, decide_eq_true h03, decide_eq_false (by omega)]
    simp
  · rw [if_neg h03, decide_eq_false h03]
    by_cases hℓ : ℓ.val = 2
    · rw [if_pos hℓ, h2, decide_eq_true hℓ]
      simp
    · rw [if_neg hℓ, mul_zero, Gf16.coeff_zero, decide_eq_false hℓ]
      rfl

/-- A plane after the step, from the bits of the plane and of the two multiples of the lane that
falls off. -/
theorem getLsbD_newPlane (p : Word) (c8 c2 : Bool) (ℓ : Fin M) :
    ([p <<< 1, bitWord c8, bitWord c2 <<< 2, bitWord c8 <<< 3].foldl (· ^^^ ·) 0).getLsbD ℓ =
      ((decide (ℓ.val ≠ 0) && p.getLsbD (ℓ.val - 1)) ^^
        ((decide (ℓ.val = 0 ∨ ℓ.val = 3) && c8) ^^ (decide (ℓ.val = 2) && c2))) := by
  simp only [List.foldl_cons, List.foldl_nil, BitVec.getLsbD_xor, BitVec.getLsbD_shiftLeft,
    getLsbD_bitWord]
  fin_cases ℓ <;> simp

/-- The lane before, or nothing. -/
theorem coeff_timesZ (a : Lanes) (ℓ : Fin M) (b : Fin 4) (p : Word)
    (hp : ∀ ℓ : Fin M, (a ℓ).coeff b = p.getLsbD ℓ) : (timesZ a ℓ).coeff b =
      ((decide (ℓ.val ≠ 0) && p.getLsbD (ℓ.val - 1)) ^^ (a ⟨M - 1, by decide⟩ * fTail ℓ).coeff b) := by
  rw [timesZ, Gf16.coeff_add]
  by_cases h : ℓ.val = 0
  · rw [dif_pos h, Gf16.coeff_zero]
    simp [h]
  · rw [dif_neg h, hp]
    simp [h]

theorem ledgerTimesZ_yields (ledger : BitslicedGf16Mvec) :
    Yields f v (ledgerTimesZ ledger) fun a => a.lanes v = timesZ (ledger.lanes v) := by
  refine shr_bind fun t0 ht0 => shr_bind fun t1 ht1 => shr_bind fun t2 ht2 => shr_bind fun t3 ht3 =>
    shl_bind fun s0 hs0 => shl_bind fun s1 hs1 => shl_bind fun s2 hs2 => shl_bind fun s3 hs3 =>
    bxor_bind fun m81 h81 => bxor_bind fun m82 h82 => bxor_bind fun m83 h83 =>
    bxor_bind fun m21 h21 => ?_
  refine shl_bind fun f03 h03 => shl_bind fun f02 h02 => bxorMulti_bind fun n0 hn0 =>
    shl_bind fun f13 h13 => shl_bind fun f12 h12 => bxorMulti_bind fun n1 hn1 =>
    shl_bind fun f23 h23 => shl_bind fun f22 h22 => bxorMulti_bind fun n2 hn2 =>
    shl_bind fun f33 h33 => shl_bind fun f32 h32 => bxorMulti_bind fun n3 hn3 =>
    Computes.pure ?_
  obtain ⟨top, htop⟩ : ∃ top, ledger.lanes v ⟨M - 1, by decide⟩ = top := ⟨_, rfl⟩
  have hbit : ∀ b : Fin 4, (v (ledger.bits b)).getLsbD 63 = top.coeff b := by
    intro b
    rw [← htop]
    exact (ledger.coeff_lanes ⟨M - 1, by decide⟩ b).symm
  rw [shiftRight_63, hbit] at ht0 ht1 ht2 ht3
  rw [ht1, ht2, bitWord_xor] at h81
  rw [ht2, ht3, bitWord_xor] at h82
  rw [ht0, ht3, bitWord_xor] at h83 h21
  refine BitslicedGf16Mvec.lanes_eq fun ℓ b => ?_
  rw [coeff_timesZ _ ℓ b (v (ledger.bits b)) fun ℓ => ledger.coeff_lanes ℓ b, coeff_mul_fTail,
    htop, ← getLsbD_newPlane]
  congr 1
  fin_cases b
  · exact hn0.trans (by simp [hs0, h02, h03, ht1, ht3, times8, times2, Gf16.coeff])
  · exact hn1.trans (by simp [hs1, h12, h13, h81, h21, times8, times2, Gf16.coeff])
  · exact hn2.trans (by simp [hs2, h22, h23, h82, ht1, times8, times2, Gf16.coeff])
  · exact hn3.trans (by simp [hs3, h32, h33, h83, ht2, times8, times2, Gf16.coeff])

theorem rhsStep_yields {sps : List BitslicedGf16Mvec} {g : ℕ → Lanes}
    (hsps : TableIs v (K * K) sps g) {i j : ℕ} (hi : i < K) (hj : j < K)
    {ledger : BitslicedGf16Mvec} : Yields f v (rhsStep sps i j ledger) fun a =>
      a.lanes v = whipStep (fun row col => g (row * K + col)) i j (ledger.lanes v) := by
  refine Computes.bind (ledgerTimesZ_yields ledger) fun a ha =>
    Computes.bind (BitslicedGf16Mvec.add_yields a _) fun b hb => ?_
  have hij : i * K + j < K * K := by simp only [K] at *; omega
  have hji : j * K + i < K * K := by simp only [K] at *; omega
  rw [ha, hsps.2 _ hij] at hb
  unfold whipStep
  by_cases hne : i ≠ j
  · rw [if_pos hne]
    simp only [if_pos hne]
    rw [← hb, ← hsps.2 _ hji]
    exact BitslicedGf16Mvec.add_yields b _
  · rw [if_neg hne]
    simp only [if_neg hne]
    exact Computes.pure hb

/-- **The circuit folds as the public map does.** -/
theorem computeRhs_yields {sps : List BitslicedGf16Mvec} {g : ℕ → Lanes}
    (hsps : TableIs v (K * K) sps g) : Yields f v (computeRhs sps) fun y =>
      y.lanes v = whip fun row col => g (row * K + col) := by
  refine Computes.bind zeroMvec_yields fun ledger h0 => ?_
  refine loopM_computes (R := fun _ (a : BitslicedGf16Mvec) t => a.lanes v = t) (Nat.zero_le _)
    (fun iInv a t _ hi h => ?_) h0
  refine loopM_computes (R := fun _ (a : BitslicedGf16Mvec) t => a.lanes v = t) (Nat.sub_le_of_le_add (by simp only [K]; omega))
    (fun j a t _ hj h => ?_) h
  rw [← h]
  exact rhsStep_yields hsps (by simp only [K]; omega) hj

end Works.BiniusMayo
