import Works.BiniusMayo.Oracle

/-! # Commitments and key expansion outside the circuit

The two commitments, the expansion of a compact key entry by entry, and the public words that the
verifier rebuilds.  The expansion encrypts the blocks of each entry as it goes; what comes out is
the reference's cut of one key stream (`expandPkToLanes_eq`). -/

namespace Works.BiniusMayo

open Lib

/-- Length of a domain-separation tag, a word. -/
def domainTagLen : ℕ := 8

/-- The tag before the preimage of `c`. -/
def domainTagC : List UInt8 := [0x01, 0, 0, 0, 0, 0, 0, 0]

/-- The tag before the preimage of `pk_id`. -/
def domainTagPk : List UInt8 := [0x02, 0, 0, 0, 0, 0, 0, 0]

def domainTagCWord : Word := wordOf domainTagC

def domainTagPkWord : Word := wordOf domainTagPk

/-- The bytes of an entry in the canonical packing. -/
def packedBytes (lanes : Row) : List UInt8 := wordsBytes (List.ofFn (packLanes lanes))

section Commitments

variable (f : KeccakState → KeccakState)

/-- `SHAKE-256(input, 32)`. -/
def shake25632 (input : List UInt8) : List UInt8 := shake256 f input 32

def computeCFromDigest (m : List UInt8) : List UInt8 := Lib.keccak256 f (domainTagC ++ m)

def computeC (payload : List UInt8) : List UInt8 := computeCFromDigest f (shake25632 f payload)

/-- The fingerprint of an expanded key, its entries packed one after the other. -/
def pkIdFromLanes (p1 p2 p3 : List Row) : List UInt8 :=
  Lib.keccak256 f (domainTagPk ++ (p1 ++ p2 ++ p3).flatMap packedBytes)

end Commitments

section Expansion

variable (aes : Block → Block → Block)

/-- The half of an entry that an encrypted block gives, and the next counter. -/
def fillHalf (seed : Block) (half : ℕ) (st : Row × UInt32) : Row × UInt32 :=
  let blk := aes seed (counterBlock st.2)
  let off := half * 32
  (fun ell => if off ≤ ell.val ∧ ell.val < off + 32 then
      nibbleOf (readAt blk 0 ((ell.val - off) / 2)) (ell.val - off)
    else st.1 ell, st.2 + 1)

/-- An entry of two blocks, and the next counter. -/
def fillEntry (seed : Block) (counter : UInt32) : Row × UInt32 :=
  loop 0 (mVecBytes / 16) (fillHalf aes seed) (fun _ => 0, counter)

/-- `n` entries, and the next counter. -/
def fillEntries (seed : Block) (n : ℕ) (counter : UInt32) : List Row × UInt32 :=
  loop 0 n (fun _ st =>
    let e := fillEntry aes seed st.2
    (st.1 ++ [e.1], e.2)) ([], counter)

/-- Vectors of `M` nibbles from packed bytes. -/
def unpackMVecArray (packed : List UInt8) (nEntries : ℕ) : List Row :=
  (List.range nEntries).map fun i ell => nibbleOf (packed.getD (i * (M / 2) + ell / 2) 0) ell

/-- Expand a compact key into the entries of its three blocks. -/
def expandPkToLanes (cpk : Cpk) : List Row × List Row × List Row :=
  let p1 := fillEntries aes cpk.seed p1Entries 0
  let p2 := fillEntries aes cpk.seed p2Entries p1.2
  let p3 := unpackMVecArray cpk.p3Packed p3Entries
  (p1.1, p2.1, p3)

def computePkId (f : KeccakState → KeccakState) (cpk : Cpk) : List UInt8 :=
  let lanes := expandPkToLanes aes cpk
  pkIdFromLanes f lanes.1 lanes.2.1 lanes.2.2

end Expansion

/-! ### The two expansions -/

section Expansion

variable (aes : Block → Block → Block) (seed : Block)

/-- A byte of the key stream. -/
def streamByte (k : ℕ) : UInt8 := readAt (aes seed (counterBlock (UInt32.ofNat (k / 16)))) 0 (k % 16)

/-- An entry of the expanded key, from its place in the key stream. -/
def streamEntry (i : ℕ) : Row := fun ell => nibbleOf (streamByte aes seed (i * mVecBytes + ell / 2)) ell

theorem getD_ofFn {n : ℕ} (a : Fin n → UInt8) (k : ℕ) : (List.ofFn a).getD k 0 = readAt a 0 k := by
  rw [List.getD_eq_getElem?_getD, List.getElem?_ofFn, readAt]
  by_cases h : k < n
  · rw [dif_pos h, dif_pos h]
    rfl
  · rw [dif_neg h, dif_neg h]
    rfl

theorem getD_blocks (n k : ℕ) (hk : k < 16 * n) :
    ((List.range n).flatMap fun i =>
      List.ofFn (aes seed (counterBlock (UInt32.ofNat i)))).getD k 0 = streamByte aes seed k := by
  induction n with
  | zero => omega
  | succ n ih =>
      have hlen : ((List.range n).flatMap fun i =>
          List.ofFn (aes seed (counterBlock (UInt32.ofNat i)))).length = 16 * n := by
        rw [List.length_flatMap]
        simp [Nat.mul_comm]
      rw [List.range_succ, List.flatMap_append, List.getD_eq_getElem?_getD]
      by_cases hlast : k < 16 * n
      · rw [List.getElem?_append_left (by rw [hlen]; exact hlast), ← List.getD_eq_getElem?_getD,
          ih hlast]
      · have hdiv : k / 16 = n := by omega
        have hmod : k - 16 * n = k % 16 := by omega
        rw [List.getElem?_append_right (by rw [hlen]; omega), hlen, ← List.getD_eq_getElem?_getD,
          List.flatMap_singleton, getD_ofFn, hmod, streamByte, hdiv]

theorem keystream_eq : Oracle.aes128CtrKeystream aes seed (p1Bytes + p2Bytes) =
    (List.range (2 * (p1Entries + p2Entries))).flatMap fun i =>
      List.ofFn (aes seed (counterBlock (UInt32.ofNat i))) := by
  rw [Oracle.aes128CtrKeystream]
  exact List.append_nil _

/-- Entries cut from a part of the key stream. -/
theorem unpack_stream {packed : List UInt8} {n i₀ : ℕ}
    (h : ∀ k < n * mVecBytes, packed.getD k 0 = streamByte aes seed (i₀ * mVecBytes + k)) :
    Oracle.unpackMVecArray packed n =
      (List.range n).map fun i => streamEntry aes seed (i₀ + i) := by
  refine List.map_congr_left fun i hi => funext fun ell => ?_
  have hi := List.mem_range.mp hi
  have hell := ell.isLt
  have hplace : i * mVecBytes + ell.val / 2 < n * mVecBytes := by
    simp only [mVecBytes, M] at *
    omega
  rw [h _ hplace, streamEntry, Nat.add_mul, Nat.add_assoc]

/-- The reference's entries are the entries of the key stream. -/
theorem expandPk_eq (cpk : Cpk) : Oracle.expandPk aes cpk =
    ⟨(List.range p1Entries).map fun i => streamEntry aes cpk.seed (0 + i),
      (List.range p2Entries).map fun i => streamEntry aes cpk.seed (p1Entries + i),
      Oracle.unpackMVecArray cpk.p3Packed p3Entries⟩ := by
  rw [Oracle.expandPk, keystream_eq]
  simp only [Oracle.ExpandedPk.mk.injEq, and_true]
  constructor
  · refine unpack_stream aes cpk.seed fun k hk => ?_
    simp only [p1Entries, p2Entries, p1Bytes, mVecBytes, M, V, N, O] at *
    rw [List.getD_eq_getElem?_getD, List.getElem?_take_of_lt (by omega),
      ← List.getD_eq_getElem?_getD, getD_blocks _ _ _ _ (by omega), Nat.zero_mul, Nat.zero_add]
  · refine unpack_stream aes cpk.seed fun k hk => ?_
    simp only [p1Entries, p2Entries, p1Bytes, p2Bytes, mVecBytes, M, V, N, O] at *
    rw [List.getD_eq_getElem?_getD, List.getElem?_take_of_lt (by omega), List.getElem?_drop,
      ← List.getD_eq_getElem?_getD, getD_blocks _ _ _ _ (by omega)]

theorem fillEntry_eq (i : ℕ) : fillEntry aes seed (UInt32.ofNat (2 * i)) =
    (streamEntry aes seed i, UInt32.ofNat (2 * (i + 1))) := by
  have hnext : UInt32.ofNat (2 * i) + 1 = UInt32.ofNat (2 * i + 1) := by
    rw [UInt32.ofNat_add]
    rfl
  have hlast : UInt32.ofNat (2 * i + 1) + 1 = UInt32.ofNat (2 * (i + 1)) := by
    rw [Nat.mul_succ, ← Nat.add_assoc (2 * i) 1 1, UInt32.ofNat_add (2 * i + 1)]
    rfl
  have hrun : fillEntry aes seed (UInt32.ofNat (2 * i)) =
      fillHalf aes seed 1 (fillHalf aes seed 0 (fun _ => 0, UInt32.ofNat (2 * i))) := rfl
  rw [hrun]
  simp only [fillHalf, hnext, hlast, Prod.mk.injEq, and_true]
  funext ell
  have hell := ell.isLt
  simp only [M] at hell
  have hplace : i * mVecBytes + ell.val / 2 = 32 * i + ell / 2 := by
    simp only [mVecBytes, M]
    omega
  rw [streamEntry, streamByte, hplace]
  by_cases hfirst : ell.val < 32
  · rw [if_neg (by omega), if_pos (by omega), Nat.zero_mul, Nat.sub_zero,
      show (32 * i + ell.val / 2) / 16 = 2 * i by omega,
      show (32 * i + ell.val / 2) % 16 = ell / 2 by omega]
  · rw [if_pos (by omega), show (32 * i + ell.val / 2) / 16 = 2 * i + 1 by omega,
      show (32 * i + ell.val / 2) % 16 = (ell - 1 * 32) / 2 by omega, nibbleOf, nibbleOf,
      show (ell.val - 1 * 32) % 2 = ell % 2 by omega]

theorem fillEntries_eq (n i : ℕ) : fillEntries aes seed n (UInt32.ofNat (2 * i)) =
    ((List.range n).map fun k => streamEntry aes seed (i + k), UInt32.ofNat (2 * (i + n))) := by
  induction n with
  | zero => rfl
  | succ n ih =>
      rw [fillEntries, loop_snoc (Nat.zero_le n)]
      rw [fillEntries] at ih
      rw [ih]
      simp only [fillEntry_eq, List.range_succ, List.map_append, List.map_singleton]
      rfl

/-- **Entry by entry the blocks are those of one key stream.** -/
theorem expandPkToLanes_eq (cpk : Cpk) : expandPkToLanes aes cpk =
    ((Oracle.expandPk aes cpk).p1, (Oracle.expandPk aes cpk).p2, (Oracle.expandPk aes cpk).p3) := by
  have h1 : fillEntries aes cpk.seed p1Entries 0 =
      ((List.range p1Entries).map fun k => streamEntry aes cpk.seed (0 + k),
        UInt32.ofNat (2 * p1Entries)) := by
    have h := fillEntries_eq aes cpk.seed p1Entries 0
    rwa [Nat.zero_add p1Entries] at h
  rw [expandPk_eq, expandPkToLanes]
  simp only [h1, fillEntries_eq]
  rfl

end Expansion

/-! ### Public words -/

/-- A layout of the public words that the verifier refuses. -/
structure LayoutError where
  offsetInout : ℕ
  offsetWitness : ℕ
  constantsLen : ℕ
  detail : String

/-- The layout of the public words: constants, then the inputs of the circuit. -/
structure Verifier where
  constants : List Word
  offsetInout : ℕ
  offsetWitness : ℕ
  slots_fit : offsetInout + 8 ≤ offsetWitness
  constants_fit : constants.length ≤ offsetInout

namespace Verifier

/-- The checks of `compile` on the layout that the circuit compiler chose. -/
def compile (constants : List Word) (offsetInout offsetWitness : ℕ) :
    Except LayoutError Verifier :=
  if hslots : offsetWitness < offsetInout + 8 then
    .error ⟨offsetInout, offsetWitness, constants.length,
      "offset_witness must be >= offset_inout + 8 for c/pk_id slots"⟩
  else if hconst : constants.length > offsetInout then
    .error ⟨offsetInout, offsetWitness, constants.length,
      "constants must fit in the [0, offset_inout) prefix"⟩
  else .ok ⟨constants, offsetInout, offsetWitness, by omega, by omega⟩

/-- The public words for the commitments of a bundle. -/
def publicWords (ver : Verifier) (c pkId : List UInt8) : List Word :=
  let words := List.replicate ver.offsetWitness 0
  let words := loop 0 ver.constants.length (fun i words => words.set i (ver.constants.getD i 0)) words
  let words := loop 0 4 (fun i words => words.set (ver.offsetInout + i) (wordAt c i)) words
  loop 0 4 (fun i words => words.set (ver.offsetInout + 4 + i) (wordAt pkId i)) words

/-- What a loop of writes leaves in a place. -/
theorem loop_set (words : List Word) (off : ℕ) (g : ℕ → Word) (k n : ℕ) :
    (loop 0 n (fun i words => words.set (off + i) (g i)) words).length = words.length ∧
      (loop 0 n (fun i words => words.set (off + i) (g i)) words)[k]? =
        if off ≤ k ∧ k < off + n ∧ k < words.length then some (g (k - off)) else words[k]? := by
  induction n with
  | zero =>
      rw [loop_self, if_neg (by omega)]
      exact ⟨rfl, rfl⟩
  | succ n ih =>
      obtain ⟨hlen, hget⟩ := ih
      rw [loop_snoc (Nat.zero_le n)]
      refine ⟨by rw [List.length_set, hlen], ?_⟩
      rw [List.getElem?_set, hget, hlen]
      by_cases hk : off + n = k
      · rw [if_pos hk]
        by_cases hin : k < words.length
        · rw [if_pos (by omega), if_pos (by omega), ← hk, Nat.add_sub_cancel_left]
        · rw [if_neg (by omega), if_neg (by omega), List.getElem?_eq_none (by omega)]
      · rw [if_neg hk]
        exact if_congr (by omega) rfl rfl

/-- **The commitments stand where the circuit has its inputs.** -/
theorem publicWords_inout (ver : Verifier) (c pkId : List UInt8) :
    ((ver.publicWords c pkId).drop ver.offsetInout).take 8 =
      List.ofFn (fun i : Fin 4 => wordAt c i) ++ List.ofFn (fun i : Fin 4 => wordAt pkId i) := by
  have hfit := ver.slots_fit
  have hlen : (loop 0 ver.constants.length (fun i words =>
      words.set i (ver.constants.getD i 0)) (List.replicate ver.offsetWitness 0)).length =
      ver.offsetWitness := by
    have := (loop_set (List.replicate ver.offsetWitness 0) 0 (fun i => ver.constants.getD i 0) 0
      ver.constants.length).1
    simpa using this
  apply List.ext_getElem?
  intro k
  rw [List.getElem?_take, List.getElem?_drop, publicWords, (loop_set _ _ _ _ _).2,
    (loop_set _ _ _ _ _).2, (loop_set _ _ _ 0 _).1, hlen, List.getElem?_append, List.length_ofFn,
    List.getElem?_ofFn, List.getElem?_ofFn]
  by_cases hfirst : k < 4
  · rw [if_pos (by omega), if_neg (by omega), if_pos (by omega), if_pos hfirst, dif_pos hfirst,
      Nat.add_sub_cancel_left]
  · by_cases hlast : k < 8
    · rw [if_pos hlast, if_pos (by omega), if_neg hfirst, dif_pos (by omega),
        show ver.offsetInout + k - (ver.offsetInout + 4) = k - 4 by omega]
    · rw [if_neg hlast, if_neg hfirst, dif_neg (by omega)]

end Verifier

end Works.BiniusMayo
