import Works.BiniusMayo.Gates

/-! # The SHAKE-256 gadget

SHAKE-256 of a message of whole words that fits a block with its padding: the circuit lays out
the padded block itself and calls the Keccak permutation once. -/

namespace Works.BiniusMayo

open Lib Lib.Circuit

/-- SHAKE-256 domain separator byte. -/
def shakeDomainSep : Word := 0x1F

/-- `0x80` in the last byte of a word. -/
def lastByteHigh : Word := (0x80 : Word) <<< 56

/-- The first 32 bytes of SHAKE-256 of the words `input`, fewer than 16 of them. -/
def shake256SingleBlockTo32 (input : List Wire) : CircuitBuilder (Fin 4 → Wire) := do
  let zero ← addConstant 0
  let dom ← addConstant shakeDomainSep
  let last ← addConstant lastByteHigh
  -- `block`, followed by the words of the capacity.
  let state : Fin 25 → Wire := fun i =>
    if i.val = 16 then last else if i.val = input.length then dom else input.getD i zero
  let state ← keccakF1600 state
  pure fun i => state (i.castLE (by decide))

/-- SHAKE-256 of 56 bytes. -/
def shake25656To32 (in56 : Fin 7 → Wire) : CircuitBuilder (Fin 4 → Wire) :=
  shake256SingleBlockTo32 (List.ofFn in56)

variable {f : KeccakState → KeccakState} {v : Wire → Word}

/-- The padding behind 56 bytes, in words. -/
theorem keccakPad_56 :
    keccakPad 0x1F 56 = wordsBytes (shakeDomainSep :: List.replicate 8 0 ++ [lastByteHigh]) := by
  decide +kernel

/-- **The hand-built block is the padded message.** -/
theorem shake25656To32_yields (in56 : Fin 7 → Wire) :
    Yields f v (shake25656To32 in56) fun digest => ∀ i,
      v (digest i) = wordAt (shake256 f (wordsBytes (List.ofFn fun i => v (in56 i))) 32) i := by
  refine addConstant_bind fun zero hzero => addConstant_bind fun dom hdom =>
    addConstant_bind fun last hlast => Computes.bind (keccakF1600_yields _) fun state hstate =>
    Computes.pure fun i => ?_
  have hlen : (wordsBytes (List.ofFn fun i => v (in56 i))).length = 56 := by simp
  have hpad : wordsBytes (List.ofFn fun i => v (in56 i)) ++
      keccakPad 0x1F (wordsBytes (List.ofFn fun i => v (in56 i))).length =
        wordsBytes ((List.ofFn fun i => v (in56 i)) ++
          (shakeDomainSep :: List.replicate 8 0 ++ [lastByteHigh])) := by
    rw [hlen, keccakPad_56, ← wordsBytes_append]
  rw [shake256, show (32 : ℕ) = 8 * 4 from rfl, sponge_block (by omega) (by omega)
    (by rw [hpad, length_wordsBytes]; simp [keccakRate]), hpad, wordAt_wordsBytes (by simp),
    List.getElem_ofFn, hstate]
  congr 1
  funext k
  rw [← hzero, ← hdom, ← hlast]
  by_cases hk : k.val < 17
  · rw [wordAt_wordsBytes (by simpa using hk)]
    rcases Nat.lt_trichotomy k.val 7 with h | h | h
    · rw [List.getElem_append_left (by simpa using h), List.getElem_ofFn, if_neg (by omega),
        if_neg (by simp; omega), List.getD_eq_getElem?_getD, List.getElem?_ofFn, dif_pos h]
      rfl
    · rw [List.getElem_append_right (by simp [h]), if_neg (by omega), if_pos (by simp [h])]
      simp [h]
    · have hnone : (List.ofFn in56)[k.val]? = none := List.getElem?_eq_none (by simp; omega)
      rw [List.getElem_append_right (by simp; omega), List.getD_eq_getElem?_getD, hnone,
        if_neg (show k.val ≠ (List.ofFn in56).length by simp; omega)]
      by_cases h16 : k.val = 16
      · rw [if_pos h16]
        simp [h16]
      · rw [if_neg h16, List.getElem_append_left (by simp; omega),
          List.getElem_cons, dif_neg (by simp; omega), List.getElem_replicate]
        rfl
  · rw [wordAt_of_le (by rw [length_wordsBytes]; simp; omega), if_neg (by omega),
      if_neg (by simp; omega), List.getD_eq_getElem?_getD,
      List.getElem?_eq_none (by simp; omega)]
    exact hzero

end Works.BiniusMayo
