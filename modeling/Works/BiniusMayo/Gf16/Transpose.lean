import Works.BiniusMayo.Gf16.Mvec

/-! # From packed nibbles to planes and back

In the packed layout nibble `k` of word `w` is lane `16 * w + k`; in the bit-sliced layout bit `ℓ`
of plane `b` is bit `b` of lane `ℓ`.  The circuit moves the bits by shifts and masks in four
stages each way. -/

namespace Works.BiniusMayo

open Lib Lib.Circuit

/-- Bits `0, 4, …, 60` go to the low 16 bits; the others must be zero. -/
def compressStride4ToLow16 (x : Wire) : CircuitBuilder Wire := do
  let m1 ← addConstant 0x0303030303030303
  let s1 ← shr x 3
  let t1 ← bxor x s1
  let r1 ← band t1 m1
  let m2 ← addConstant 0x000F000F000F000F
  let s2 ← shr r1 6
  let t2 ← bxor r1 s2
  let r2 ← band t2 m2
  let m3 ← addConstant 0x000000FF000000FF
  let s3 ← shr r2 12
  let t3 ← bxor r2 s3
  let r3 ← band t3 m3
  let m4 ← addConstant 0x000000000000FFFF
  let s4 ← shr r3 24
  let t4 ← bxor r3 s4
  band t4 m4

/-- Four words of packed nibbles as four planes. -/
def packedToBitsliced (packed : Fin 4 → Wire) : CircuitBuilder BitslicedGf16Mvec := do
  let strideMask ← addConstant 0x1111111111111111
  let bits ← fromFn 4 fun bitIdx => do
    let chunks ← fromFn 4 fun w => do
      let shifted ← shrUnless0 (packed w) bitIdx
      let extracted ← band shifted strideMask
      let compressed ← compressStride4ToLow16 extracted
      shlUnless0 compressed (16 * w)
    bxorMulti (List.ofFn chunks)
  pure ⟨bits⟩

/-- The low 16 bits go to bits `0, 4, …, 60`. -/
def expandLow16ToStride4 (x : Wire) : CircuitBuilder Wire := do
  let m1 ← addConstant 0x000000FF000000FF
  let s1 ← shl x 24
  let t1 ← bxor x s1
  let r1 ← band t1 m1
  let m2 ← addConstant 0x000F000F000F000F
  let s2 ← shl r1 12
  let t2 ← bxor r1 s2
  let r2 ← band t2 m2
  let m3 ← addConstant 0x0303030303030303
  let s3 ← shl r2 6
  let t3 ← bxor r2 s3
  let r3 ← band t3 m3
  let m4 ← addConstant 0x1111111111111111
  let s4 ← shl r3 3
  let t4 ← bxor r3 s4
  band t4 m4

/-- Four planes as four words of packed nibbles. -/
def bitslicedToPacked (bv : BitslicedGf16Mvec) : CircuitBuilder (Fin 4 → Wire) := do
  let mask16 ← addConstant 0x000000000000FFFF
  fromFn 4 fun w => do
    let bitContribs ← fromFn 4 fun bitIdx => do
      let down ← shrUnless0 (bv.bits bitIdx) (16 * w)
      let chunk ← band down mask16
      let expanded ← expandLow16ToStride4 chunk
      shlUnless0 expanded bitIdx
    bxorMulti (List.ofFn bitContribs)

/-! ### The four stages -/

/-- What `compressStride4ToLow16` computes. -/
def compressed (x : Word) : Word :=
  let r1 := (x ^^^ (x >>> 3)) &&& 0x0303030303030303
  let r2 := (r1 ^^^ (r1 >>> 6)) &&& 0x000F000F000F000F
  let r3 := (r2 ^^^ (r2 >>> 12)) &&& 0x000000FF000000FF
  (r3 ^^^ (r3 >>> 24)) &&& 0x000000000000FFFF

/-- What `expandLow16ToStride4` computes. -/
def expanded (x : Word) : Word :=
  let r1 := (x ^^^ (x <<< 24)) &&& 0x000000FF000000FF
  let r2 := (r1 ^^^ (r1 <<< 12)) &&& 0x000F000F000F000F
  let r3 := (r2 ^^^ (r2 <<< 6)) &&& 0x0303030303030303
  (r3 ^^^ (r3 <<< 3)) &&& 0x1111111111111111

theorem getLsbD_compressed (y : Word) {i : ℕ} (hi : i < 64) :
    (compressed (y &&& 0x1111111111111111)).getLsbD i =
      (decide (i < 16) && y.getLsbD (4 * i)) := by
  have h : ∀ i : Fin 64, (compressed (y &&& 0x1111111111111111)).getLsbD i =
      (decide (i.val < 16) && y.getLsbD (4 * i)) := by
    intro i
    simp only [compressed, BitVec.getLsbD_and]
    fin_cases i <;> simp
  exact h ⟨i, hi⟩

theorem getLsbD_expanded (y : Word) {i : ℕ} (hi : i < 64) :
    (expanded (y &&& 0x000000000000FFFF)).getLsbD i =
      (decide (i % 4 = 0) && y.getLsbD (i / 4)) := by
  have h : ∀ i : Fin 64, (expanded (y &&& 0x000000000000FFFF)).getLsbD i =
      (decide (i.val % 4 = 0) && y.getLsbD (i / 4)) := by
    intro i
    simp only [expanded, BitVec.getLsbD_and]
    fin_cases i <;> simp
  exact h ⟨i, hi⟩

variable {f : KeccakState → KeccakState} {v : Wire → Word}

theorem compressStride4ToLow16_yields (x : Wire) :
    Yields f v (compressStride4ToLow16 x) fun w => v w = compressed (v x) := by
  refine addConstant_bind fun m1 hm1 => shr_bind fun s1 hs1 => bxor_bind fun t1 ht1 =>
    band_bind fun r1 hr1 => addConstant_bind fun m2 hm2 => shr_bind fun s2 hs2 =>
    bxor_bind fun t2 ht2 => band_bind fun r2 hr2 => addConstant_bind fun m3 hm3 =>
    shr_bind fun s3 hs3 => bxor_bind fun t3 ht3 => band_bind fun r3 hr3 =>
    addConstant_bind fun m4 hm4 => shr_bind fun s4 hs4 => bxor_bind fun t4 ht4 => ?_
  refine Computes.mono (band_yields t4 m4) fun w hw => ?_
  simp only [hw, ht4, hs4, hm4, hr3, ht3, hs3, hm3, hr2, ht2, hs2, hm2, hr1, ht1, hs1, hm1,
    compressed]

theorem expandLow16ToStride4_yields (x : Wire) :
    Yields f v (expandLow16ToStride4 x) fun w => v w = expanded (v x) := by
  refine addConstant_bind fun m1 hm1 => shl_bind fun s1 hs1 => bxor_bind fun t1 ht1 =>
    band_bind fun r1 hr1 => addConstant_bind fun m2 hm2 => shl_bind fun s2 hs2 =>
    bxor_bind fun t2 ht2 => band_bind fun r2 hr2 => addConstant_bind fun m3 hm3 =>
    shl_bind fun s3 hs3 => bxor_bind fun t3 ht3 => band_bind fun r3 hr3 =>
    addConstant_bind fun m4 hm4 => shl_bind fun s4 hs4 => bxor_bind fun t4 ht4 => ?_
  refine Computes.mono (band_yields t4 m4) fun w hw => ?_
  simp only [hw, ht4, hs4, hm4, hr3, ht3, hs3, hm3, hr2, ht2, hs2, hm2, hr1, ht1, hs1, hm1,
    expanded]

/-- Where only one of four words has a bit, their sum has it. -/
theorem getLsbD_foldl_xor (c : Fin 4 → Word) {j : ℕ} (w : Fin 4)
    (h : ∀ w', w' ≠ w → (c w').getLsbD j = false) :
    ((List.ofFn c).foldl (· ^^^ ·) 0).getLsbD j = (c w).getLsbD j := by
  have hzero : (0 : Word).getLsbD j = false := BitVec.getLsbD_zero
  simp only [List.ofFn_succ, List.ofFn_zero, List.foldl_cons, List.foldl_nil, BitVec.getLsbD_xor,
    hzero]
  fin_cases w <;> simp_all

/-! ### The two transposes -/

/-- **Nibble `k` of word `w` becomes lane `16 * w + k`.** -/
theorem packedToBitsliced_yields (packed : Fin 4 → Wire) :
    Yields f v (packedToBitsliced packed) fun a => ∀ (w : Fin 4) (k : Fin 16) (b : Fin 4),
      (a.lanes v (laneIx w k)).coeff b = (v (packed w)).getLsbD (4 * k + b) := by
  refine addConstant_bind fun strideMask hmask => ?_
  refine Computes.bind (fromFn_computes (Q := fun b plane => ∀ (w : Fin 4) (k : Fin 16),
    (v plane).getLsbD (laneIx w k) = (v (packed w)).getLsbD (4 * k + b)) fun bitIdx => ?_)
    fun bits hbits => Computes.pure fun w k b => ?_
  · refine Computes.bind (fromFn_computes (Q := fun w chunk => v chunk =
      compressed ((v (packed w) >>> bitIdx.val) &&& 0x1111111111111111) <<< (16 * w.val))
      fun w => ?_) fun chunks hchunks => ?_
    · refine Computes.bind (shrUnless0_yields _ _) fun shifted hsh => band_bind fun ex hex =>
        Computes.bind (compressStride4ToLow16_yields ex) fun c hc => ?_
      refine Computes.mono (shlUnless0_yields c _) fun chunk h => ?_
      rw [h, hc, hex, hsh, hmask]
    · refine Computes.mono (bxorMulti_yields _) fun plane hplane => ?_
      intro w k
      have hbit : ∀ w' : Fin 4, (v (chunks w')).getLsbD (laneIx w k) =
          (decide (w' = w) && (v (packed w')).getLsbD (4 * k + bitIdx)) := by
        intro w'
        have hlt := (laneIx w k).isLt
        rw [hchunks w', BitVec.getLsbD_shiftLeft, getLsbD_compressed _ (by simp only [M] at hlt; omega),
          BitVec.getLsbD_ushiftRight]
        rcases Nat.lt_trichotomy w'.val w.val with h | h | h
        · have hfar : ¬ (laneIx w k).val - 16 * w' < 16 := by simp only [laneIx]; omega
          simp [hfar, Fin.ext_iff, h.ne]
        · have hw : w' = w := Fin.ext h
          subst hw
          have hoff : (laneIx w' k).val - 16 * w' = k := by simp only [laneIx]; omega
          have h1 : (laneIx w' k).val < 64 := hlt
          have h2 : ¬ (laneIx w' k).val < 16 * w'.val := by simp only [laneIx]; omega
          rw [hoff, Nat.add_comm bitIdx.val]
          simp [h1, h2]
        · have hbefore : (laneIx w k).val < 16 * w'.val := by simp only [laneIx]; omega
          simp [hbefore, Fin.ext_iff, h.ne']
      rw [hplane, List.map_ofFn]
      refine (getLsbD_foldl_xor (v ∘ chunks) w fun w' hw' => ?_).trans ?_
      · rw [Function.comp, hbit, decide_eq_false hw', Bool.false_and]
      · rw [Function.comp, hbit, decide_eq_true rfl, Bool.true_and]
  · rw [BitslicedGf16Mvec.coeff_lanes, hbits b w k]

/-- **Lane `16 * w + k` becomes nibble `k` of word `w`.** -/
theorem bitslicedToPacked_yields (bv : BitslicedGf16Mvec) :
    Yields f v (bitslicedToPacked bv) fun words => ∀ (w : Fin 4) (k : Fin 16) (b : Fin 4),
      (v (words w)).getLsbD (4 * k + b) = (bv.lanes v (laneIx w k)).coeff b := by
  refine addConstant_bind fun mask16 hmask => ?_
  refine fromFn_computes (Q := fun w word => ∀ (k : Fin 16) (b : Fin 4),
    (v word).getLsbD (4 * k + b) = (bv.lanes v (laneIx w k)).coeff b) fun w => ?_
  refine Computes.bind (fromFn_computes (Q := fun b contrib => v contrib =
    expanded ((v (bv.bits b) >>> (16 * w.val)) &&& 0x000000000000FFFF) <<< b.val)
    fun bitIdx => ?_) fun contribs hcontribs => ?_
  · refine Computes.bind (shrUnless0_yields _ _) fun down hdown => band_bind fun chunk hchunk =>
      Computes.bind (expandLow16ToStride4_yields chunk) fun e he => ?_
    refine Computes.mono (shlUnless0_yields e _) fun contrib h => ?_
    rw [h, he, hchunk, hdown, hmask]
  · refine Computes.mono (bxorMulti_yields _) fun word hword => ?_
    intro k b
    have hbit : ∀ b' : Fin 4, (v (contribs b')).getLsbD (4 * k + b) =
        (decide (b' = b) && (v (bv.bits b')).getLsbD (laneIx w k)) := by
      intro b'
      rw [hcontribs b', BitVec.getLsbD_shiftLeft, getLsbD_expanded _ (by omega),
        BitVec.getLsbD_ushiftRight]
      rcases Nat.lt_trichotomy b'.val b.val with h | h | h
      · have hmod : ¬ (4 * k.val + b.val - b'.val) % 4 = 0 := by omega
        simp [hmod, Fin.ext_iff, h.ne]
      · have hb : b' = b := Fin.ext h
        subst hb
        have hoff : 4 * k.val + b'.val - b'.val = 4 * k := by omega
        have h1 : 4 * k.val + b'.val < 64 := by omega
        have h2 : ¬ 4 * k.val + b'.val < b'.val := by omega
        rw [hoff, Nat.mul_div_cancel_left _ (by omega)]
        simp [h1, laneIx]
      · have hmod : 4 * k.val + b.val < b'.val ∨ ¬ (4 * k.val + b.val - b'.val) % 4 = 0 := by omega
        cases hmod with
        | inl hlt => simp [hlt, Fin.ext_iff, h.ne']
        | inr hmod => simp [hmod, Fin.ext_iff, h.ne']
    rw [hword, List.map_ofFn, BitslicedGf16Mvec.coeff_lanes]
    refine (getLsbD_foldl_xor (v ∘ contribs) b fun b' hb' => ?_).trans ?_
    · rw [Function.comp, hbit, decide_eq_false hb', Bool.false_and]
    · rw [Function.comp, hbit, decide_eq_true rfl, Bool.true_and]

end Works.BiniusMayo
