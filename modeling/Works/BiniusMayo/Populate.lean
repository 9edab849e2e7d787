import Works.BiniusMayo.Verify

/-! # The prover's witness

What the prover writes to the inputs of the circuit, and that the reference verifier, the circuit
and the verifier's public words agree on it (`prove_agrees`). -/

namespace Works.BiniusMayo

open Lib Lib.Circuit

namespace Mayo2Verify

/-- The scalars of a signature. -/
def sigNibbles (sig : Sig) : Fin K → Fin N → UInt8 := fun col r =>
  let k := col * N + r
  let byte := sig.sBytes.getD (k / 2) 0
  if k % 2 = 0 then byte &&& 0x0F else (byte >>> 4) &&& 0x0F

/-- Populate the witness from raw inputs. -/
def populate (f : KeccakState → KeccakState) (mv : Mayo2Verify) (w : WitnessFiller)
    (m : List UInt8) (p1Lanes p2Lanes p3Lanes : List Row) (sig : Sig) : WitnessFiller :=
  let w := writeLeWords w (List.ofFn mv.msgWires) m
  let w := mv.pkWires.populate w p1Lanes p2Lanes p3Lanes
  let w := mv.sig.populate w (sigNibbles sig)
  let w := writeLeWords w (List.ofFn mv.saltWires) sig.salt
  let w := writeLeWords w (List.ofFn mv.c) (computeCFromDigest f m)
  writeLeWords w (List.ofFn mv.pkId) (pkIdFromLanes f p1Lanes p2Lanes p3Lanes)

/-- The witness that `prove_with_rng` fills for a signed message. -/
def proverWitness (aes : Block → Block → Block) (f : KeccakState → KeccakState)
    (mv : Mayo2Verify) (cpk : Cpk) (payload : List UInt8) (sig : Sig) : WitnessFiller :=
  let m := shake25632 f payload
  let lanes := expandPkToLanes aes cpk
  mv.populate f .empty m lanes.1 lanes.2.1 lanes.2.2 sig

end Mayo2Verify

/-! ### Writes -/

/-- One write after the other. -/
def WitnessFiller.setAll (w : WitnessFiller) (entries : List (Wire × Word)) : WitnessFiller :=
  entries.foldl (fun w entry => w.set entry.1 entry.2) w

namespace WitnessFiller

theorem setAll_append (w : WitnessFiller) (es es' : List (Wire × Word)) :
    w.setAll (es ++ es') = (w.setAll es).setAll es' := List.foldl_append

theorem get_set_self (w : WitnessFiller) {wire : Wire} (h : wire.IsInput) (x : Word) :
    (w.set wire x).get wire = x := by
  cases wire with
  | inout i => simp [set, get]
  | witness i => simp [set, get]
  | gate i op args => exact absurd h id

theorem get_set_of_ne (w : WitnessFiller) {wire wire' : Wire} (h : wire' ≠ wire) (x : Word) :
    (w.set wire x).get wire' = w.get wire' := by
  cases wire with
  | inout i =>
      cases wire' with
      | inout j =>
          have hne : j ≠ i := fun heq => h (congrArg _ heq)
          simp [set, get, hne]
      | witness j => rfl
      | gate j op args => rfl
  | witness i =>
      cases wire' with
      | inout j => rfl
      | witness j =>
          have hne : j ≠ i := fun heq => h (congrArg _ heq)
          simp [set, get, hne]
      | gate j op args => rfl
  | gate i op args => rfl

theorem get_setAll_of_notMem {es : List (Wire × Word)} {wire : Wire}
    (h : wire ∉ es.map Prod.fst) (w : WitnessFiller) : (w.setAll es).get wire = w.get wire := by
  induction es generalizing w with
  | nil => rfl
  | cons e es ih =>
      rw [List.map_cons, List.mem_cons, not_or] at h
      exact (ih h.2 (w.set e.1 e.2)).trans (w.get_set_of_ne h.1 e.2)

/-- What is written to an input stays there, if no input is written twice. -/
theorem get_setAll {es : List (Wire × Word)} (hnodup : (es.map Prod.fst).Nodup) {wire : Wire}
    {x : Word} (hmem : (wire, x) ∈ es) (hin : wire.IsInput) (w : WitnessFiller) :
    (w.setAll es).get wire = x := by
  induction es generalizing w with
  | nil => exact nomatch hmem
  | cons e es ih =>
      rw [List.map_cons, List.nodup_cons] at hnodup
      cases List.mem_cons.mp hmem with
      | inl heq =>
          subst heq
          exact (get_setAll_of_notMem hnodup.1 _).trans (w.get_set_self hin x)
      | inr hrest => exact ih hnodup.2 hrest (w.set e.1 e.2)

end WitnessFiller

/-- What `write_le_words` writes. -/
def wordEntries (wires : List Wire) (bytes : List UInt8) : List (Wire × Word) :=
  wires.zip (List.ofFn fun i : Fin wires.length => wordAt bytes i)

/-- What `populate` of a vector writes. -/
def planeEntries (a : BitslicedGf16Mvec) (lanes : Row) : List (Wire × Word) :=
  (List.finRange 4).map fun b => (a.bits b, lanesToBitsliced lanes b)

/-- What `populate` of a block of the key writes. -/
def blockEntries (wires : List BitslicedGf16Mvec) (lanes : List Row) : List (Wire × Word) :=
  (wires.zip lanes).flatMap fun entry => planeEntries entry.1 entry.2

/-- What `populate` of the signature writes. -/
def sigEntries (sig : SigBroadcasts) (s : Fin K → Fin N → UInt8) : List (Wire × Word) :=
  (List.finRange K).flatMap fun col =>
    (List.finRange N).map fun r => (sig.nibbleWires col r, asWord (s col r))

theorem mvecPopulate_eq (a : BitslicedGf16Mvec) (w : WitnessFiller) (lanes : Row) :
    a.populate w lanes = w.setAll (planeEntries a lanes) := by
  rw [BitslicedGf16Mvec.populate, WitnessFiller.setAll, planeEntries, List.foldl_map]

theorem populateBlock_eq (w : WitnessFiller) (wires : List BitslicedGf16Mvec) (lanes : List Row) :
    ExpandedPkWires.populateBlock w wires lanes = w.setAll (blockEntries wires lanes) := by
  unfold ExpandedPkWires.populateBlock blockEntries
  induction wires.zip lanes generalizing w with
  | nil => rfl
  | cons e es ih =>
      rw [List.foldl_cons, ih, List.flatMap_cons, WitnessFiller.setAll_append, mvecPopulate_eq]

theorem sigPopulate_eq (sig : SigBroadcasts) (w : WitnessFiller) (s : Fin K → Fin N → UInt8) :
    sig.populate w s = w.setAll (sigEntries sig s) := by
  unfold SigBroadcasts.populate sigEntries
  induction List.finRange K generalizing w with
  | nil => rfl
  | cons col cols ih =>
      rw [List.foldl_cons, ih, List.flatMap_cons, WitnessFiller.setAll_append]
      congr 1

theorem map_fst_wordEntries (wires : List Wire) (bytes : List UInt8) :
    (wordEntries wires bytes).map Prod.fst = wires := by
  rw [wordEntries, List.map_fst_zip (by simp)]

theorem map_fst_blockEntries {wires : List BitslicedGf16Mvec} {lanes : List Row}
    (h : wires.length = lanes.length) :
    (blockEntries wires lanes).map Prod.fst = wires.flatMap fun a => List.ofFn a.bits := by
  induction wires generalizing lanes with
  | nil => rfl
  | cons a wires ih =>
      cases lanes with
      | nil => simp at h
      | cons row lanes =>
          rw [blockEntries, List.zip_cons_cons, List.flatMap_cons, List.map_append,
            List.flatMap_cons]
          have hfirst : (planeEntries a row).map Prod.fst = List.ofFn a.bits := by
            rw [planeEntries, List.map_map, List.ofFn_eq_map]
            rfl
          rw [hfirst, ← ih (by simpa using h)]
          rfl

theorem map_fst_sigEntries (sig : SigBroadcasts) (s : Fin K → Fin N → UInt8) :
    (sigEntries sig s).map Prod.fst = sig.nibbles := by
  have hcol : ∀ col, (((List.finRange N).map fun r =>
      (sig.nibbleWires col r, asWord (s col r))).map Prod.fst) = List.ofFn (sig.nibbleWires col) := by
    intro col
    rw [List.map_map, List.ofFn_eq_map]
    rfl
  rw [sigEntries, List.map_flatMap, SigBroadcasts.nibbles, List.ofFn_eq_map, List.flatMap_def]
  simp only [hcol]

theorem mem_wordEntries {n : ℕ} (wires : Fin n → Wire) (bytes : List UInt8) (i : Fin n) :
    (wires i, wordAt bytes i) ∈ wordEntries (List.ofFn wires) bytes := by
  have hlen : i.val < (wordEntries (List.ofFn wires) bytes).length := by
    simp [wordEntries]
  have hget : (wordEntries (List.ofFn wires) bytes)[i.val] = (wires i, wordAt bytes i) := by
    simp [wordEntries]
  exact hget ▸ List.getElem_mem hlen

/-! ### What the inputs hold -/

namespace Mayo2Verify

/-- All writes of `populate`. -/
def entries (f : KeccakState → KeccakState) (mv : Mayo2Verify) (m : List UInt8)
    (p1Lanes p2Lanes p3Lanes : List Row) (sig : Sig) : List (Wire × Word) :=
  wordEntries (List.ofFn mv.msgWires) m ++ (blockEntries mv.pkWires.p1 p1Lanes ++
    (blockEntries mv.pkWires.p2 p2Lanes ++ (blockEntries mv.pkWires.p3 p3Lanes ++
      (sigEntries mv.sig (sigNibbles sig) ++ (wordEntries (List.ofFn mv.saltWires) sig.salt ++
        (wordEntries (List.ofFn mv.c) (computeCFromDigest f m) ++
          wordEntries (List.ofFn mv.pkId) (pkIdFromLanes f p1Lanes p2Lanes p3Lanes)))))))

theorem populate_eq (f : KeccakState → KeccakState) (mv : Mayo2Verify) (w : WitnessFiller)
    (m : List UInt8) (p1Lanes p2Lanes p3Lanes : List Row) (sig : Sig) :
    mv.populate f w m p1Lanes p2Lanes p3Lanes sig =
      w.setAll (mv.entries f m p1Lanes p2Lanes p3Lanes sig) := by
  simp only [entries, WitnessFiller.setAll_append, ← populateBlock_eq, ← sigPopulate_eq]
  rfl

theorem allocate_sized (n : Counts) : (new.run n).val.pkWires.Sized := by
  rw [new_val]
  exact (allocate_yields (f := id) (v := evaluate (Gate.eval id) fun _ => 0) n driven_evaluate).1.1

section Populated

variable {f : KeccakState → KeccakState} {mv : Mayo2Verify} {m : List UInt8}
  {key : Oracle.ExpandedPk} {sig : Sig} {n n' : Counts}

/-- The inputs hold what was written to them. -/
theorem get_populate (hfresh : Fresh mv.inputs n n') (h1 : mv.pkWires.p1.length = key.p1.length)
    (h2 : mv.pkWires.p2.length = key.p2.length) (h3 : mv.pkWires.p3.length = key.p3.length)
    {wire : Wire} {x : Word} (hmem : (wire, x) ∈ mv.entries f m key.p1 key.p2 key.p3 sig)
    (w : WitnessFiller) :
    (mv.populate f w m key.p1 key.p2 key.p3 sig).get wire = x := by
  have hfst : (mv.entries f m key.p1 key.p2 key.p3 sig).map Prod.fst =
      (List.ofFn mv.msgWires ++ (mv.pkWires.planes ++ (mv.sig.nibbles ++ List.ofFn mv.saltWires))) ++
        (List.ofFn mv.c ++ List.ofFn mv.pkId) := by
    simp only [entries, List.map_append, map_fst_wordEntries, map_fst_blockEntries h1,
      map_fst_blockEntries h2, map_fst_blockEntries h3, map_fst_sigEntries,
      ExpandedPkWires.planes, List.flatMap_append, List.append_assoc]
  have hperm : ((mv.entries f m key.p1 key.p2 key.p3 sig).map Prod.fst).Perm mv.inputs := by
    rw [hfst, inputs, ← List.append_assoc (List.ofFn mv.c)]
    exact List.perm_append_comm
  rw [populate_eq]
  refine WitnessFiller.get_setAll (hperm.nodup_iff.mpr hfresh.nodup) hmem (hfresh.isInput ?_) w
  exact hperm.mem_iff.mp (List.mem_map.mpr ⟨_, hmem, rfl⟩)

/-- The assignment that the prover's writes give. -/
theorem bytesOn_eq {k : ℕ} {x : Wire → Word} {wires : Fin k → Wire} {bytes : List UInt8}
    (hlen : bytes.length = 8 * k) (h : ∀ i, x (wires i) = wordAt bytes i) :
    bytesOn x wires = bytes := by
  rw [bytesOn, funext h]
  exact wordsBytes_ofFn_wordAt hlen

theorem mem_blockEntries {wires : List BitslicedGf16Mvec} {lanes : List Row} {i : ℕ}
    (hi : i < wires.length) (hi' : i < lanes.length) (b : Fin 4) :
    (wires[i].bits b, lanesToBitsliced lanes[i] b) ∈ blockEntries wires lanes := by
  refine List.mem_flatMap.mpr ⟨(wires[i], lanes[i]), ?_,
    List.mem_map.mpr ⟨b, List.mem_finRange b, rfl⟩⟩
  rw [← List.getElem_zip (h := by simp; omega)]
  exact List.getElem_mem _

/-- The lanes of a block read back. -/
theorem rows_eq {x : Wire → Word} {wires : List BitslicedGf16Mvec} {elems : List Lanes}
    (hlen : wires.length = elems.length)
    (h : ∀ e ∈ blockEntries wires (elems.map Oracle.toRow), x e.1 = e.2) :
    wires.map (fun a => bitslicedToLanes fun b => x (a.bits b)) = elems.map Oracle.toRow := by
  apply List.ext_getElem (by simpa using hlen)
  intro i hi hi'
  have hw : i < wires.length := by simpa using hi
  rw [List.getElem_map]
  have hplanes : (fun b => x (wires[i].bits b)) =
      lanesToBitsliced (elems.map Oracle.toRow)[i] := funext fun b =>
    h _ (mem_blockEntries hw hi' b)
  rw [hplanes]
  funext ℓ
  rw [bitslicedToLanes_apply, List.getElem_map]
  exact congrArg (fun g : Lanes => (g ℓ).toU8) (lanesOf_lanesToBitsliced elems[i])

theorem asByte_asWord (b : UInt8) : asByte (asWord b) = b := by
  apply UInt8.toBitVec_inj.mp
  rw [asByte, asWord, UInt8.toBitVec_ofBitVec, BitVec.setWidth_setWidth_of_le _ (by omega),
    BitVec.setWidth_eq]

/-- The scalars of a signature are its nibbles. -/
theorem sigNibbles_eq (sig : Sig) (col : Fin K) (r : Fin N) : sigNibbles sig col r &&& 0x0F =
    nibbleOf (sig.sBytes.getD ((col * N + r) / 2) 0) (col * N + r) := by
  have hshift : ∀ b : UInt8, (b >>> 4) &&& (0x0F : UInt8) = b >>> 4 := by
    intro b
    have := nibbleOf_eq b 1
    rw [nibbleOf, if_neg (by decide)] at this
    rw [this, toU8_and_15]
  unfold sigNibbles nibbleOf
  by_cases h : (col.val * N + r.val) % 2 = 0
  · simp only [if_pos h, UInt8.and_assoc, UInt8.and_self]
  · simp only [if_neg h, hshift]

end Populated

/-! ### Agreement -/

section Agreement

variable (aes : Block → Block → Block) (f : KeccakState → KeccakState) (cpk : Cpk)
  (payload : List UInt8) (sig : Sig)

/-- The elements of an expanded key. -/
theorem expandPk_ofLanes : ∃ P : KeyLanes, Oracle.expandPk aes cpk = .ofLanes P ∧
    P.p1.length = p1Entries ∧ P.p2.length = p2Entries ∧ P.p3.length = p3Entries := by
  have hunpack : ∀ (packed : List UInt8) (n : ℕ), ∃ elems : List Lanes,
      Oracle.unpackMVecArray packed n = elems.map Oracle.toRow ∧ elems.length = n := by
    intro packed n
    refine ⟨(List.range n).map fun i ell => nibbleElem (packed.getD (i * mVecBytes + ell / 2) 0) ell,
      ?_, by simp⟩
    rw [List.map_map]
    exact List.map_congr_left fun i _ => funext fun ell => nibbleOf_eq _ _
  obtain ⟨p1, h1, hlen1⟩ := hunpack
    ((Oracle.aes128CtrKeystream aes cpk.seed (p1Bytes + p2Bytes)).take p1Bytes) p1Entries
  obtain ⟨p2, h2, hlen2⟩ := hunpack
    (((Oracle.aes128CtrKeystream aes cpk.seed (p1Bytes + p2Bytes)).drop p1Bytes).take p2Bytes)
    p2Entries
  obtain ⟨p3, h3, hlen3⟩ := hunpack cpk.p3Packed p3Entries
  refine ⟨⟨p1, p2, p3⟩, ?_, hlen1, hlen2, hlen3⟩
  rw [Oracle.expandPk, h1, h2, h3]
  rfl

/-- What the circuit reads from the prover's witness. -/
structure Reads (x : Wire → Word) (mv : Mayo2Verify) : Prop where
  c : bytesOn x mv.c = computeC f payload
  pkId : bytesOn x mv.pkId = computePkId aes f cpk
  msg : bytesOn x mv.msgWires = shake25632 f payload
  key : mv.keyRows x = Oracle.expandPk aes cpk
  low : ∀ col r, mv.lowNibbles x col r =
    nibbleOf (sig.sBytes.getD ((col * N + r) / 2) 0) (col * N + r)
  salt : bytesOn x mv.saltWires = sig.salt

theorem proverWitness_eq (mv : Mayo2Verify) : proverWitness aes f mv cpk payload sig =
    mv.populate f .empty (shake25632 f payload) (Oracle.expandPk aes cpk).p1
      (Oracle.expandPk aes cpk).p2 (Oracle.expandPk aes cpk).p3 sig := by
  rw [proverWitness, expandPkToLanes_eq]

theorem proverWitness_reads (n : Counts) : Reads aes f cpk payload sig
    (proverWitness aes f (new.run n).val cpk payload sig).get (new.run n).val := by
  obtain ⟨n', hfresh⟩ := new_inputs n
  have hsized := allocate_sized n
  generalize (new.run n).val = mv at *
  obtain ⟨P, hP, h1, h2, h3⟩ := expandPk_ofLanes aes cpk
  have hget : ∀ wire x, (wire, x) ∈ mv.entries f (shake25632 f payload)
      (Oracle.expandPk aes cpk).p1 (Oracle.expandPk aes cpk).p2 (Oracle.expandPk aes cpk).p3 sig →
      (proverWitness aes f mv cpk payload sig).get wire = x := by
    intro wire x hmem
    have hlen1 : mv.pkWires.p1.length = (Oracle.expandPk aes cpk).p1.length := by
      rw [hsized.p1, hP, ← h1]
      exact (List.length_map _).symm
    have hlen2 : mv.pkWires.p2.length = (Oracle.expandPk aes cpk).p2.length := by
      rw [hsized.p2, hP, ← h2]
      exact (List.length_map _).symm
    have hlen3 : mv.pkWires.p3.length = (Oracle.expandPk aes cpk).p3.length := by
      rw [hsized.p3, hP, ← h3]
      exact (List.length_map _).symm
    rw [proverWitness_eq]
    exact get_populate hfresh hlen1 hlen2 hlen3 hmem .empty
  generalize (proverWitness aes f mv cpk payload sig).get = x at *
  simp only [entries, List.mem_append] at hget
  constructor
  · exact bytesOn_eq (length_keccak256 _) fun i =>
      hget _ _ (.inr (.inr (.inr (.inr (.inr (.inr (.inl (mem_wordEntries _ _ i))))))))
  · have hpk : computePkId aes f cpk = pkIdFromLanes f (Oracle.expandPk aes cpk).p1
        (Oracle.expandPk aes cpk).p2 (Oracle.expandPk aes cpk).p3 := by
      rw [computePkId, expandPkToLanes_eq]
    rw [hpk]
    exact bytesOn_eq (length_keccak256 _) fun i =>
      hget _ _ (.inr (.inr (.inr (.inr (.inr (.inr (.inr (mem_wordEntries _ _ i))))))))
  · exact bytesOn_eq (length_shake256 _ _) fun i => hget _ _ (.inl (mem_wordEntries _ _ i))
  · rw [hP] at hget ⊢
    rw [keyRows]
    have hrows1 := (@rows_eq x mv.pkWires.p1 (P.p1))
      (by rw [hsized.p1, h1]) fun e he => hget e.1 e.2 (.inr (.inl he))
    have hrows2 := (@rows_eq x mv.pkWires.p2 (P.p2))
      (by rw [hsized.p2, h2]) fun e he => hget e.1 e.2 (.inr (.inr (.inl he)))
    have hrows3 := (@rows_eq x mv.pkWires.p3 (P.p3))
      (by rw [hsized.p3, h3]) fun e he => hget e.1 e.2 (.inr (.inr (.inr (.inl he))))
    simp only [hrows1, hrows2, hrows3]
    rfl
  · intro col r
    rw [lowNibbles, hget _ (asWord (sigNibbles sig col r)) (.inr (.inr (.inr (.inr (.inl ?_))))),
      asByte_asWord, sigNibbles_eq]
    exact List.mem_flatMap.mpr ⟨col, List.mem_finRange col,
      List.mem_map.mpr ⟨r, List.mem_finRange r, rfl⟩⟩
  · have hlen : sig.salt.length = 8 * 3 := by
      rw [Sig.salt, List.length_drop, List.Vector.toList_length]
      rfl
    exact bytesOn_eq hlen fun i =>
      hget _ _ (.inr (.inr (.inr (.inr (.inr (.inl (mem_wordEntries _ _ i)))))))

/-- The reference's verdict, from the equation of the circuit. -/
theorem oracle_verify_iff {x : Wire → Word} {mv : Mayo2Verify}
    (h : Reads aes f cpk payload sig x mv) :
    mv.Holds x f ↔ Oracle.verify aes f cpk payload sig = true := by
  have hmap : mv.Holds x f ↔ Oracle.evalPublicMap (mv.keyRows x) (mv.lowNibbles x) =
      fun ell : Fin M => (Oracle.unpackNibbles
        (shake256 f (bytesOn x mv.msgWires ++ bytesOn x mv.saltWires) 32) M).getD ell 0 := by
    constructor
    · exact fun hholds => hholds.map
    · intro hmap
      constructor
      · rw [h.c, h.msg]
        rfl
      · rw [h.pkId, h.key, computePkId, expandPkToLanes_eq]
      · exact hmap
  have hlow : mv.lowNibbles x = fun (col : Fin K) (r : Fin N) =>
      (Oracle.unpackNibbles sig.sBytes (K * N)).getD (col * N + r) 0 := by
    funext col r
    have hlen : sig.sBytes.length = K * N / 2 := by
      rw [Sig.sBytes, List.length_take, List.Vector.toList_length]
      rfl
    rw [h.low, Oracle.unpackNibbles, if_neg (by decide), List.append_nil,
      List.take_of_length_le hlen.le, getD_flatMap_nibbles]
  rw [hmap, h.key, hlow, h.msg, h.salt, Oracle.verify, decide_eq_true_eq]
  rfl

/-- **Prover, verifier and reference agree.** -/
theorem prove_agrees (n : Counts) (ver : Verifier) :
    (Satisfies (Gate.eval f)
        (evaluate (Gate.eval f) (proverWitness aes f (new.run n).val cpk payload sig).get)
        (new.run n).constraints ↔
      Oracle.verify aes f cpk payload sig = true) ∧
    (List.ofFn fun i => (proverWitness aes f (new.run n).val cpk payload sig).get
        ((new.run n).val.c i)) ++
      (List.ofFn fun i => (proverWitness aes f (new.run n).val cpk payload sig).get
        ((new.run n).val.pkId i)) =
      ((ver.publicWords (computeC f payload) (computePkId aes f cpk)).drop ver.offsetInout).take 8 := by
  have hreads := proverWitness_reads aes f cpk payload sig n
  constructor
  · rw [satisfies_evaluate_iff fun v hx hd => asserted_iff hx hd]
    exact oracle_verify_iff aes f cpk payload sig hreads
  · have hwords : ∀ (x : Wire → Word) (wires : Fin 4 → Wire),
        (List.ofFn fun i : Fin 4 => wordAt (bytesOn x wires) i) =
          List.ofFn fun i => x (wires i) := by
      intro x wires
      congr 1
      funext i
      rw [bytesOn, wordAt_wordsBytes (by simp), List.getElem_ofFn]
    rw [ver.publicWords_inout, ← hreads.c, ← hreads.pkId, hwords, hwords]

end Agreement

end Mayo2Verify

end Works.BiniusMayo
