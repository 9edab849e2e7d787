import Works.BiniusMayo.Gf16.Mul
import Works.Lib.Words

/-! # Keys and signatures as bytes

Elements of GF(16) come two to a byte, the one with the lower index in the low four bits.  What
reads them off a byte is said once here, for bytes, for words and for the lanes of planes. -/

namespace Works.BiniusMayo

open Lib

/-- A vector of `M` nibbles, one to a byte. -/
abbrev Row := Fin M → UInt8

/-- A block of the cipher. -/
abbrev Block := Fin 16 → UInt8

/-- A compact public key. -/
abbrev Cpk := List.Vector UInt8 cpkBytes

/-- A signature. -/
abbrev Sig := List.Vector UInt8 sigBytes

/-- `&cpk[..PK_SEED_BYTES]`. -/
def Cpk.seed (cpk : Cpk) : Block := fun k => cpk.toList.getD k 0

/-- `&cpk[PK_SEED_BYTES..CPK_BYTES]`. -/
def Cpk.p3Packed (cpk : Cpk) : List UInt8 := cpk.toList.drop pkSeedBytes

/-- `&sig[..S_BYTES]`. -/
def Sig.sBytes (sig : Sig) : List UInt8 := sig.toList.take BiniusMayo.sBytes

/-- `&sig[S_BYTES..SIG_BYTES]`. -/
def Sig.salt (sig : Sig) : List UInt8 := sig.toList.drop BiniusMayo.sBytes

/-- An input block of the counter mode: a big-endian counter behind twelve zeros. -/
def counterBlock (counter : UInt32) : Block := fun k =>
  if k.val < 12 then 0 else (beBytes 4 counter.toNat).getD (k.val - 12) 0

/-- The nibble at an even place is the low half of its byte, that at an odd place the high half. -/
def nibbleOf (byte : UInt8) (k : ℕ) : UInt8 := if k % 2 = 0 then byte &&& 0x0F else byte >>> 4

/-! ### Nibbles as elements -/

/-- The element in a half of a byte. -/
def nibbleElem (byte : UInt8) (k : ℕ) : Gf16 :=
  Gf16.ofCoeff fun b => byte.toBitVec.getLsbD (4 * (k % 2) + b)

theorem getLsbD_and_15 (byte : UInt8) (j : ℕ) :
    (byte &&& 0x0F).toBitVec.getLsbD j = (byte.toBitVec.getLsbD j && decide (j < 4)) := by
  rw [UInt8.toBitVec_and, BitVec.getLsbD_and]
  congr 1
  by_cases h : j < 8
  · interval_cases j <;> rfl
  · rw [BitVec.getLsbD_of_ge _ _ (by omega), decide_eq_false (by omega)]

/-- Bytes with the bits of an element are the element's byte. -/
theorem eq_toU8 {byte : UInt8} {a : Gf16} (hlow : ∀ b : Fin 4, byte.toBitVec.getLsbD b = a.coeff b)
    (hhigh : ∀ j, 4 ≤ j → byte.toBitVec.getLsbD j = false) : byte = a.toU8 := by
  apply UInt8.toBitVec_inj.mp
  apply BitVec.eq_of_getLsbD_eq
  intro j _
  by_cases h : j < 4
  · rw [hlow ⟨j, h⟩, getLsbD_toU8 a ⟨j, h⟩]
  · rw [hhigh j (by omega), getLsbD_toU8_of_le a (by omega)]

theorem nibbleOf_eq (byte : UInt8) (k : ℕ) : nibbleOf byte k = (nibbleElem byte k).toU8 := by
  unfold nibbleOf
  cases Nat.mod_two_eq_zero_or_one k with
  | inl h =>
      rw [if_pos h]
      refine eq_toU8 (fun b => ?_) fun j hj => ?_
      · rw [getLsbD_and_15, nibbleElem, Gf16.coeff_ofCoeff, h]
        simp
      · rw [getLsbD_and_15, decide_eq_false (by omega), Bool.and_false]
  | inr h =>
      rw [if_neg (by omega)]
      have hshift : (byte >>> 4).toBitVec = byte.toBitVec >>> 4 := by
        rw [UInt8.toBitVec_shiftRight]
        rfl
      refine eq_toU8 (fun b => ?_) fun j hj => ?_
      · rw [hshift, BitVec.getLsbD_ushiftRight, nibbleElem, Gf16.coeff_ofCoeff, h]
      · rw [hshift, BitVec.getLsbD_ushiftRight, BitVec.getLsbD_of_ge _ _ (by omega)]

theorem asByte_and_15 (w : Word) : asByte w &&& 0x0F = (lowNibble w).toU8 := by
  have hbit : ∀ j, j < 8 → (asByte w).toBitVec.getLsbD j = w.getLsbD j := by
    intro j hj
    rw [asByte, UInt8.toBitVec_ofBitVec, BitVec.getLsbD_setWidth, decide_eq_true hj, Bool.true_and]
  refine eq_toU8 (fun b => ?_) fun j hj => ?_
  · rw [getLsbD_and_15, hbit b (by omega), lowNibble, Gf16.coeff_ofCoeff]
    simp
  · rw [getLsbD_and_15, decide_eq_false (by omega), Bool.and_false]

/-- A byte behind the others that come before it in a string. -/
theorem getD_flatMap_nibbles (bs : List UInt8) (k : ℕ) :
    (bs.flatMap fun b : UInt8 => [b &&& 0x0F, b >>> 4]).getD k 0 = nibbleOf (bs.getD (k / 2) 0) k := by
  induction bs generalizing k with
  | nil =>
      unfold nibbleOf
      simp
  | cons b bs ih =>
      match k with
      | 0 => rfl
      | 1 => rfl
      | k + 2 =>
          have hdiv : (k + 2) / 2 = k / 2 + 1 := by omega
          have hmod : (k + 2) % 2 = k % 2 := by omega
          rw [hdiv, List.flatMap_cons, List.getD_cons_succ, nibbleOf, hmod]
          exact ih k

/-! ### Nibbles of words -/

/-- The bits of a byte of a word. -/
theorem getLsbD_wordBytes (w : Word) {j i : ℕ} (hj : j < 8) (hi : i < 8) :
    ((wordBytes w).getD j 0).toBitVec.getLsbD i = w.getLsbD (8 * j + i) := by
  have hlen : j < (leBytes 8 w.toNat).length := by rw [length_leBytes]; exact hj
  have hbyte : (UInt8.ofNat (w.toNat / 256 ^ j)).toBitVec.getLsbD i =
      (w.toNat / 2 ^ (8 * j)).testBit i := by
    rw [show 256 ^ j = 2 ^ (8 * j) by rw [Nat.pow_mul], BitVec.getLsbD,
      UInt8.toNat_toBitVec, UInt8.toNat_ofNat', Nat.testBit_mod_two_pow, decide_eq_true hi,
      Bool.true_and]
  rw [wordBytes, List.getD_eq_getElem?_getD, List.getElem?_eq_getElem hlen, Option.getD_some,
    getElem_leBytes, hbyte, Nat.testBit_div_two_pow, Nat.add_comm]
  rfl

/-- The bits of a word of a string, in its bytes. -/
theorem getLsbD_wordAt {bs : List UInt8} {w j i : ℕ} (hlen : 8 * (w + 1) ≤ bs.length) (hj : j < 8)
    (hi : i < 8) :
    (wordAt bs w).getLsbD (8 * j + i) = (bs.getD (8 * w + j) 0).toBitVec.getLsbD i := by
  have hbytes : wordBytes (wordAt bs w) = (bs.drop (8 * w)).take 8 :=
    wordBytes_wordOf (by rw [List.length_take, List.length_drop]; omega)
  rw [← getLsbD_wordBytes _ hj hi, hbytes, List.getD_eq_getElem?_getD, List.getElem?_take,
    if_pos hj, List.getElem?_drop, ← List.getD_eq_getElem?_getD]

/-- The nibbles of a word of a string, in the string's bytes. -/
theorem getLsbD_wordAt_nibble {bs : List UInt8} (w : Fin 4) (k : Fin 16) (b : Fin 4)
    (hlen : 8 * (w.val + 1) ≤ bs.length) : (wordAt bs w).getLsbD (4 * k + b) =
      (nibbleElem (bs.getD ((laneIx w k).val / 2) 0) (laneIx w k)).coeff b := by
  have hbit : 4 * k.val + b.val = 8 * (k.val / 2) + (4 * (k.val % 2) + b.val) := by omega
  have hlane : (laneIx w k).val / 2 = 8 * w.val + k.val / 2 := by simp only [laneIx]; omega
  have hhalf : (laneIx w k).val % 2 = k.val % 2 := by simp only [laneIx]; omega
  rw [hbit, getLsbD_wordAt hlen (by omega) (by omega), nibbleElem, Gf16.coeff_ofCoeff, hlane, hhalf]

end Works.BiniusMayo
