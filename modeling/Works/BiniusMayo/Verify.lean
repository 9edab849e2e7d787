import Works.BiniusMayo.Api
import Works.BiniusMayo.Gf16.Transpose
import Works.BiniusMayo.Shake256
import Works.BiniusMayo.Whipping
import Works.Lib.Inputs

/-! # The verifier circuit

The circuit takes the two commitments as public inputs and the message digest, the expanded key
and the signature as private ones.  Its constraints say that the commitments are those of the
message and the key and that the reference verifier's equation holds (`new_exact`). -/

namespace Works.BiniusMayo

open Lib Lib.Circuit

/-- The input wires of the circuit. -/
structure Mayo2Verify where
  c : Fin 4 → Wire
  pkId : Fin 4 → Wire
  msgWires : Fin 4 → Wire
  pkWires : ExpandedPkWires
  sig : SigBroadcasts
  saltWires : Fin 3 → Wire

/-- All planes of the key. -/
def ExpandedPkWires.planes (pk : ExpandedPkWires) : List Wire :=
  (pk.p1 ++ pk.p2 ++ pk.p3).flatMap fun a => List.ofFn a.bits

/-- All words of the signature. -/
def SigBroadcasts.nibbles (sig : SigBroadcasts) : List Wire :=
  (List.ofFn fun col => List.ofFn (sig.nibbleWires col)).flatten

namespace Mayo2Verify

/-- Assert the words of a digest. -/
def assertDigest (name : String) (hat wires : Fin 4 → Wire) : CircuitBuilder Unit := do
  let _ ← fromFn 4 fun i => assertEq s!"{name}[{i}]" (hat i) (wires i)
  pure ()

/-- `keccak256(DOMAIN_C ‖ m) == c`. -/
def hashMessage (c msgWires : Fin 4 → Wire) : CircuitBuilder Unit := do
  let tag ← addConstant domainTagCWord
  let cHat ← keccak256 (tag :: List.ofFn msgWires) (domainTagLen + 32)
  assertDigest "c" cHat c

/-- `keccak256(DOMAIN_PK ‖ canonical_packed(P)) == pk_id`. -/
def hashPk (pkId : Fin 4 → Wire) (pk : ExpandedPkWires) : CircuitBuilder Unit := do
  let tag ← addConstant domainTagPkWord
  let packed ← (pk.p1 ++ pk.p2 ++ pk.p3).foldlM (fun packed mvec => do
    let words ← bitslicedToPacked mvec
    pure (packed ++ List.ofFn words)) [tag]
  let pkIdHat ← keccak256 packed (domainTagLen + expandedPkBytes)
  assertDigest "pk_id" pkIdHat pkId

/-- The public map of the key at the signature is `SHAKE-256(m ‖ salt, 32)`. -/
def checkMap (msgWires : Fin 4 → Wire) (saltWires : Fin 3 → Wire) (pk : ExpandedPkWires)
    (sig : SigBroadcasts) : CircuitBuilder Unit := do
  let in56 : Fin 7 → Wire := ![msgWires 0, msgWires 1, msgWires 2, msgWires 3,
    saltWires 0, saltWires 1, saltWires 2]
  let tPacked ← shake25656To32 in56
  let t ← packedToBitsliced tPacked
  let ps ← computePs pk sig
  let sps ← computeSps sig ps
  let y ← computeRhs sps
  y.assertEq t

/-- The wires of the inputs. -/
def allocate : CircuitBuilder Mayo2Verify := do
  let c ← fromFn 4 fun _ => addInout
  let pkId ← fromFn 4 fun _ => addInout
  let msgWires ← fromFn 4 fun _ => addWitness
  let pkWires ← ExpandedPkWires.newWitness
  let sig ← SigBroadcasts.newWitness
  let saltWires ← fromFn 3 fun _ => addWitness
  pure ⟨c, pkId, msgWires, pkWires, sig, saltWires⟩

/-- Build the circuit. -/
def new : CircuitBuilder Mayo2Verify := do
  let mv ← allocate
  hashMessage mv.c mv.msgWires
  hashPk mv.pkId mv.pkWires
  checkMap mv.msgWires mv.saltWires mv.pkWires mv.sig
  pure mv

/-! ### What an assignment gives to the inputs -/

section Inputs

variable (x : Wire → Word) (mv : Mayo2Verify)

/-- The bytes on wires. -/
def bytesOn {n : ℕ} (wires : Fin n → Wire) : List UInt8 := wordsBytes (List.ofFn fun i => x (wires i))

/-- The lanes that the planes of the key encode. -/
def keyRows : Oracle.ExpandedPk :=
  let rows (entries : List BitslicedGf16Mvec) : List Row :=
    entries.map fun a => bitslicedToLanes fun b => x (a.bits b)
  ⟨rows mv.pkWires.p1, rows mv.pkWires.p2, rows mv.pkWires.p3⟩

/-- The low nibbles of the signature words. -/
def lowNibbles : Fin K → Fin N → UInt8 := fun col r => asByte (x (mv.sig.nibbleWires col r)) &&& 0x0F

/-- What the circuit says of its inputs, in terms of the code outside the circuit. -/
structure Holds (f : KeccakState → KeccakState) : Prop where
  c : bytesOn x mv.c = Lib.keccak256 f (domainTagC ++ bytesOn x mv.msgWires)
  pkId : bytesOn x mv.pkId =
    pkIdFromLanes f (mv.keyRows x).p1 (mv.keyRows x).p2 (mv.keyRows x).p3
  map : Oracle.evalPublicMap (mv.keyRows x) (mv.lowNibbles x) = fun ell : Fin M =>
    (Oracle.unpackNibbles (shake256 f (bytesOn x mv.msgWires ++ bytesOn x mv.saltWires) 32) M).getD
      ell 0

end Inputs

/-! ### What the parts assert -/

variable {f : KeccakState → KeccakState} {v : Wire → Word}

theorem assertDigest_emits (name : String) {hat wires : Fin 4 → Wire} {digest : List UInt8}
    (hlen : digest.length = 32) (hhat : ∀ i, v (hat i) = wordAt digest i) :
    Emits f v (assertDigest name hat wires) (fun _ => bytesOn v wires = digest) fun _ => True := by
  refine Spec.mono (Spec.bind (fromFn_spec fun i => assertEq_spec _ (hat i) (wires i))
    fun _ _ => Computes.pure (Q := fun _ => True) trivial) fun _ _ => ⟨trivial, ?_⟩
  rw [and_true]
  constructor
  · intro h
    have hwords : (fun i => v (wires i)) = fun i : Fin 4 => wordAt digest i := by
      funext i
      rw [← h i, hhat i]
    rw [bytesOn, hwords]
    exact wordsBytes_ofFn_wordAt hlen
  · intro h i
    rw [hhat i, ← h, bytesOn, wordAt_wordsBytes (by simp), List.getElem_ofFn]

theorem hashMessage_emits (c msgWires : Fin 4 → Wire) :
    Emits f v (hashMessage c msgWires)
      (fun _ => bytesOn v c = Lib.keccak256 f (domainTagC ++ bytesOn v msgWires))
      fun _ => True := by
  refine addConstant_bind fun tag htag => Computes.bind (keccak256_yields _ _) fun cHat hc => ?_
  refine assertDigest_emits "c" (length_keccak256 _) fun i => ?_
  rw [hc, List.map_cons, wordsBytes_cons, htag, domainTagCWord, wordBytes_wordOf (by rfl),
    List.map_ofFn, List.take_of_length_le]
  · rfl
  · simp [domainTagC, domainTagLen]

/-- The words that the circuit packs an entry into are those outside the circuit. -/
theorem bitslicedToPacked_words (a : BitslicedGf16Mvec) :
    Yields f v (bitslicedToPacked a) fun words => (fun w => v (words w)) =
      packLanes (bitslicedToLanes fun b => v (a.bits b)) := by
  refine Computes.mono (bitslicedToPacked_yields a) fun words h => ?_
  have hlanes : bitslicedToLanes (fun b => v (a.bits b)) = fun i => (a.lanes v i).toU8 :=
    funext fun i => bitslicedToLanes_apply _ i
  funext w
  apply BitVec.eq_of_getLsbD_eq
  intro i hi
  have hsplit : i = 4 * (⟨i / 4, by omega⟩ : Fin 16).val + (⟨i % 4, by omega⟩ : Fin 4).val := by
    simp only
    omega
  rw [hsplit, h, hlanes, getLsbD_packLanes]

theorem hashPk_emits {pkId : Fin 4 → Wire} {pk : ExpandedPkWires} (hpk : pk.Sized) :
    Emits f v (hashPk pkId pk)
      (fun _ => bytesOn v pkId = Lib.keccak256 f (domainTagPk ++ (pk.p1 ++ pk.p2 ++ pk.p3).flatMap
        fun a => packedBytes (bitslicedToLanes fun b => v (a.bits b))))
      fun _ => True := by
  refine addConstant_bind fun tag htag => Computes.bind ((@foldlM_computes _ _ _ _ _ _ _
    fun done packed => wordsBytes (packed.map v) = domainTagPk ++ done.flatMap
      fun a => packedBytes (bitslicedToLanes fun b => v (a.bits b)))
    (fun done packed a h => ?_) (pk.p1 ++ pk.p2 ++ pk.p3) [] [tag] ?_) fun packed hpacked => ?_
  · refine Computes.bind (bitslicedToPacked_words a) fun words hwords => Computes.pure ?_
    rw [List.map_append, wordsBytes_append, h, List.map_ofFn, List.flatMap_append,
      List.flatMap_singleton, ← List.append_assoc, packedBytes, ← hwords]
    rfl
  · rw [List.map_singleton, wordsBytes_cons, htag, domainTagPkWord, wordBytes_wordOf (by rfl)]
    rfl
  · rw [List.nil_append] at hpacked
    refine Computes.bind (keccak256_yields _ _) fun pkIdHat hpkId =>
      assertDigest_emits "pk_id" (length_keccak256 _) fun i => ?_
    have hlen : ((pk.p1 ++ pk.p2 ++ pk.p3).flatMap fun a =>
        packedBytes (bitslicedToLanes fun b => v (a.bits b))).length = expandedPkBytes := by
      rw [List.length_flatMap]
      simp only [packedBytes, length_wordsBytes, List.length_ofFn, List.map_const',
        List.sum_replicate, List.length_append, hpk.p1, hpk.p2, hpk.p3]
      rfl
    rw [hpkId, hpacked, List.take_of_length_le]
    rw [List.length_append, hlen]
    rfl

/-- The target as elements. -/
def targetLanes (digest : List UInt8) : Lanes := fun ell => nibbleElem (digest.getD (ell / 2) 0) ell

theorem packedToBitsliced_target {packed : Fin 4 → Wire} {digest : List UInt8}
    (hlen : digest.length = 32) (h : ∀ i, v (packed i) = wordAt digest i) :
    Yields f v (packedToBitsliced packed) fun t => t.lanes v = targetLanes digest := by
  refine Computes.mono (packedToBitsliced_yields packed) fun t ht => ?_
  funext ell
  have hell := ell.isLt
  simp only [M] at hell
  have hix : ell = laneIx ⟨ell / 16, by omega⟩ ⟨ell % 16, by omega⟩ :=
    Fin.ext (by simp only [laneIx]; omega)
  apply Gf16.ext_coeff
  intro b
  rw [hix, ht, h, getLsbD_wordAt_nibble _ _ _ (by rw [hlen]; dsimp only; omega)]
  rfl

theorem checkMap_emits (msgWires : Fin 4 → Wire) (saltWires : Fin 3 → Wire)
    {pk : ExpandedPkWires} {sig : SigBroadcasts} (hpk : pk.Sized) (hsig : Broadcast v sig) :
    Emits f v (checkMap msgWires saltWires pk sig)
      (fun _ => publicMap (pk.lanes v) (sig.scalars v) =
        targetLanes (shake256 f (bytesOn v msgWires ++ bytesOn v saltWires) 32))
      fun _ => True := by
  have hin : wordsBytes (List.ofFn fun i => v ((![msgWires 0, msgWires 1, msgWires 2, msgWires 3,
      saltWires 0, saltWires 1, saltWires 2] : Fin 7 → Wire) i)) =
      bytesOn v msgWires ++ bytesOn v saltWires := by
    rw [bytesOn, bytesOn, ← wordsBytes_append]
    rfl
  refine Computes.bind (shake25656To32_yields _) fun tPacked hpacked => ?_
  rw [hin] at hpacked
  refine Computes.bind (packedToBitsliced_target (length_shake256 _ _) hpacked) fun t ht => ?_
  refine Computes.bind (computePs_yields hpk hsig) fun ps hps => ?_
  refine Computes.bind (computeSps_yields hsig hps) fun sps hsps => ?_
  refine Computes.bind (computeRhs_yields hsps) fun y hy => ?_
  refine Spec.mono (BitslicedGf16Mvec.assertEq_emits y t) fun _ _ => ⟨trivial, ?_⟩
  rw [hy, ht, publicMap, whip_congr fun row col hrow hcol =>
    spsTable_apply (pk.lanes v) (sig.scalars v) hrow hcol]

/-! ### What the circuit asserts -/

/-- The bytes of the target are its nibbles. -/
theorem unpackNibbles_target {digest : List UInt8} (hlen : digest.length = 32) :
    (fun ell : Fin M => (Oracle.unpackNibbles digest M).getD ell 0) =
      Oracle.toRow (targetLanes digest) := by
  funext ell
  rw [Oracle.unpackNibbles, if_neg (by decide), List.append_nil,
    List.take_of_length_le (hlen.trans_le (by decide)), getD_flatMap_nibbles, nibbleOf_eq]
  rfl

theorem keyRows_eq (mv : Mayo2Verify) :
    mv.keyRows v = Oracle.ExpandedPk.ofLanes (mv.pkWires.lanes v) := by
  have hrows : ∀ entries : List BitslicedGf16Mvec,
      entries.map (fun a => bitslicedToLanes fun b => v (a.bits b)) =
        (entries.map (·.lanes v)).map Oracle.toRow := by
    intro entries
    rw [List.map_map]
    exact List.map_congr_left fun a _ => funext fun i => bitslicedToLanes_apply _ i
  simp only [keyRows, hrows]
  rfl

theorem lowNibbles_eq (mv : Mayo2Verify) : mv.lowNibbles v = Oracle.toBytes (mv.sig.scalars v) := by
  funext col r
  exact asByte_and_15 _

/-- The parts together. -/
theorem holds_iff (mv : Mayo2Verify) : mv.Holds v f ↔
    bytesOn v mv.c = Lib.keccak256 f (domainTagC ++ bytesOn v mv.msgWires) ∧
    bytesOn v mv.pkId = Lib.keccak256 f (domainTagPk ++
      (mv.pkWires.p1 ++ mv.pkWires.p2 ++ mv.pkWires.p3).flatMap
        fun a => packedBytes (bitslicedToLanes fun b => v (a.bits b))) ∧
    publicMap (mv.pkWires.lanes v) (mv.sig.scalars v) =
      targetLanes (shake256 f (bytesOn v mv.msgWires ++ bytesOn v mv.saltWires) 32) := by
  have hpk : pkIdFromLanes f (mv.keyRows v).p1 (mv.keyRows v).p2 (mv.keyRows v).p3 =
      Lib.keccak256 f (domainTagPk ++ (mv.pkWires.p1 ++ mv.pkWires.p2 ++ mv.pkWires.p3).flatMap
        fun a => packedBytes (bitslicedToLanes fun b => v (a.bits b))) := by
    rw [pkIdFromLanes, keyRows, ← List.map_append, ← List.map_append, List.flatMap_map]
  have hmap : Oracle.evalPublicMap (mv.keyRows v) (mv.lowNibbles v) = (fun ell : Fin M =>
      (Oracle.unpackNibbles (shake256 f (bytesOn v mv.msgWires ++ bytesOn v mv.saltWires) 32)
        M).getD ell 0) ↔ publicMap (mv.pkWires.lanes v) (mv.sig.scalars v) =
      targetLanes (shake256 f (bytesOn v mv.msgWires ++ bytesOn v mv.saltWires) 32) := by
    rw [keyRows_eq, lowNibbles_eq, Oracle.evalPublicMap_eq,
      unpackNibbles_target (length_shake256 _ _)]
    exact Oracle.toRow_injective.eq_iff
  rw [← hpk, ← hmap]
  exact ⟨fun h => ⟨h.c, h.pkId, h.map⟩, fun h => ⟨h.1, h.2.1, h.2.2⟩⟩

/-! ### The inputs -/

theorem flatten_ofFn_singleton {α : Type} {n : ℕ} (as : Fin n → α) :
    (List.ofFn fun i => [as i]).flatten = List.ofFn as := by
  rw [List.ofFn_eq_map, List.ofFn_eq_map, ← List.flatMap_def, ← List.map_eq_flatMap]

/-- The input wires, in the order of their allocation. -/
def inputs (mv : Mayo2Verify) : List Wire :=
  List.ofFn mv.c ++ (List.ofFn mv.pkId ++ (List.ofFn mv.msgWires ++ (mv.pkWires.planes ++
    (mv.sig.nibbles ++ List.ofFn mv.saltWires))))

/-- The input wires, without the words of the signature. -/
def others (mv : Mayo2Verify) : List Wire :=
  List.ofFn mv.c ++ (List.ofFn mv.pkId ++ (List.ofFn mv.msgWires ++ (mv.pkWires.planes ++
    List.ofFn mv.saltWires)))

theorem mem_inputs (mv : Mayo2Verify) {w : Wire} :
    w ∈ mv.inputs ↔ w ∈ mv.others ∨ w ∈ mv.sig.nibbles := by
  simp only [inputs, others, List.mem_append]
  tauto

theorem addWitnesses_allocates (n : ℕ) :
    Allocates (fromFn n fun _ => (addWitness : CircuitBuilder Wire)) fun as ws =>
      ws = List.ofFn as :=
  Allocates.mono (fromFn_allocates fun _ => addWitness_allocates) fun as ws hws => by
    rw [hws]
    exact flatten_ofFn_singleton as

theorem addInouts_allocates (n : ℕ) :
    Allocates (fromFn n fun _ => (addInout : CircuitBuilder Wire)) fun as ws =>
      ws = List.ofFn as :=
  Allocates.mono (fromFn_allocates fun _ => addInout_allocates) fun as ws hws => by
    rw [hws]
    exact flatten_ofFn_singleton as

theorem mvec_allocates : Allocates BitslicedGf16Mvec.newWitness fun a ws => ws = List.ofFn a.bits :=
  Allocates.bind (addWitnesses_allocates 4) fun bits ws hws => Allocates.pure (by
    rw [hws, List.append_nil])

theorem newWitnesses_allocates (n : ℕ) : Allocates (newWitnesses n) fun as ws =>
    ws = as.flatMap fun a => List.ofFn a.bits :=
  mapM_allocates (fun _ => mvec_allocates) _

theorem expandedPk_allocates : Allocates ExpandedPkWires.newWitness fun pk ws =>
    ws = pk.planes := by
  refine Allocates.bind (newWitnesses_allocates _) fun p1 ws h1 => ?_
  refine Allocates.bind (newWitnesses_allocates _) fun p2 ws' h2 => ?_
  refine Allocates.bind (newWitnesses_allocates _) fun p3 ws'' h3 => Allocates.pure ?_
  rw [h1, h2, h3, ExpandedPkWires.planes, List.flatMap_append, List.flatMap_append,
    List.append_nil, List.append_assoc]

theorem broadcastScalar_noInputs (w : Wire) : NoInputs (broadcastScalar w) := by
  refine NoInputs.bind (addGate_noInputs _ _) fun one => NoInputs.bind
    (fromFn_noInputs fun bitIdx => ?_) fun bits => Allocates.pure rfl
  refine NoInputs.bind ?_ fun shifted => NoInputs.bind (addGate_noInputs _ _) fun bit0 =>
    NoInputs.bind (addGate_noInputs _ _) fun atMsb => addGate_noInputs _ _
  unfold shrUnless0
  by_cases h : (bitIdx : ℕ) = 0
  · rw [if_pos h]
    exact Allocates.pure rfl
  · rw [if_neg h]
    exact addGate_noInputs _ _

theorem sigBroadcasts_allocates : Allocates SigBroadcasts.newWitness fun sig ws =>
    ws = sig.nibbles := by
  refine Allocates.bind (fromFn_allocates fun _ => addWitnesses_allocates N) fun nib ws h => ?_
  refine NoInputs.bind (fromFn_noInputs fun _ => fromFn_noInputs fun _ =>
    broadcastScalar_noInputs _) fun broadcasts => Allocates.pure ?_
  rw [h, List.append_nil]
  rfl

theorem allocate_allocates : Allocates allocate fun mv ws => ws = mv.inputs := by
  refine Allocates.bind (addInouts_allocates 4) fun c ws hc => ?_
  refine Allocates.bind (addInouts_allocates 4) fun pkId ws' hpkId => ?_
  refine Allocates.bind (addWitnesses_allocates 4) fun msg ws'' hmsg => ?_
  refine Allocates.bind expandedPk_allocates fun pk ws₃ hpk => ?_
  refine Allocates.bind sigBroadcasts_allocates fun sig ws₄ hsig => ?_
  refine Allocates.bind (addWitnesses_allocates 3) fun salt ws₅ hsalt => ?_
  refine Allocates.pure ?_
  rw [hc, hpkId, hmsg, hpk, hsig, hsalt, List.append_nil]
  rfl

theorem new_val (n : Counts) : (new.run n).val = (allocate.run n).val := by
  unfold new
  rw [bind_val, bind_val, bind_val, bind_val, pure_run]

/-- The inputs are distinct. -/
theorem new_inputs (n : Counts) : ∃ n', Fresh (new.run n).val.inputs n n' := by
  rw [new_val]
  exact ⟨_, allocate_allocates.fresh n⟩

theorem mem_nibbles (sig : SigBroadcasts) (col : Fin K) (r : Fin N) :
    sig.nibbleWires col r ∈ sig.nibbles :=
  List.mem_flatten.mpr ⟨_, List.mem_ofFn.mpr ⟨col, rfl⟩, List.mem_ofFn.mpr ⟨r, rfl⟩⟩

/-! ### What the circuit says -/

/-- Assignments with the same words on the inputs, up to the high bits of the signature words. -/
structure SameReads (mv : Mayo2Verify) (x y : Wire → Word) : Prop where
  c : ∀ i, y (mv.c i) = x (mv.c i)
  pkId : ∀ i, y (mv.pkId i) = x (mv.pkId i)
  msg : ∀ i, y (mv.msgWires i) = x (mv.msgWires i)
  pk : ∀ w ∈ mv.pkWires.planes, y w = x w
  low : ∀ col r, asByte (y (mv.sig.nibbleWires col r)) &&& 0x0F =
    asByte (x (mv.sig.nibbleWires col r)) &&& 0x0F
  salt : ∀ i, y (mv.saltWires i) = x (mv.saltWires i)

theorem sameReads_of_others {mv : Mayo2Verify} {x y : Wire → Word}
    (h : ∀ w ∈ mv.others, y w = x w)
    (low : ∀ col r, asByte (y (mv.sig.nibbleWires col r)) &&& 0x0F =
      asByte (x (mv.sig.nibbleWires col r)) &&& 0x0F) : mv.SameReads x y := by
  simp only [others, List.mem_append] at h
  constructor
  · exact fun i => h _ (.inl (List.mem_ofFn.mpr ⟨i, rfl⟩))
  · exact fun i => h _ (.inr (.inl (List.mem_ofFn.mpr ⟨i, rfl⟩)))
  · exact fun i => h _ (.inr (.inr (.inl (List.mem_ofFn.mpr ⟨i, rfl⟩))))
  · exact fun w hw => h _ (.inr (.inr (.inr (.inl hw))))
  · exact low
  · exact fun i => h _ (.inr (.inr (.inr (.inr (List.mem_ofFn.mpr ⟨i, rfl⟩)))))

theorem SameReads.keyRows {mv : Mayo2Verify} {x y : Wire → Word} (h : mv.SameReads x y) :
    mv.keyRows y = mv.keyRows x := by
  have hrows : ∀ entries : List BitslicedGf16Mvec,
      (∀ a ∈ entries, a ∈ mv.pkWires.p1 ++ mv.pkWires.p2 ++ mv.pkWires.p3) →
        entries.map (fun a => bitslicedToLanes fun b => y (a.bits b)) =
          entries.map fun a => bitslicedToLanes fun b => x (a.bits b) := by
    intro entries hin
    refine List.map_congr_left fun a ha => congrArg bitslicedToLanes (funext fun b => h.pk _ ?_)
    exact List.mem_flatMap.mpr ⟨a, hin a ha, List.mem_ofFn.mpr ⟨b, rfl⟩⟩
  simp only [Mayo2Verify.keyRows]
  rw [hrows _ fun a ha => by simp [ha], hrows _ fun a ha => by simp [ha],
    hrows _ fun a ha => by simp [ha]]

theorem SameReads.holds {mv : Mayo2Verify} {x y : Wire → Word} (h : mv.SameReads x y) :
    mv.Holds y f ↔ mv.Holds x f := by
  have hc : bytesOn y mv.c = bytesOn x mv.c := congrArg (wordsBytes ∘ List.ofFn) (funext h.c)
  have hpkId : bytesOn y mv.pkId = bytesOn x mv.pkId :=
    congrArg (wordsBytes ∘ List.ofFn) (funext h.pkId)
  have hmsg : bytesOn y mv.msgWires = bytesOn x mv.msgWires :=
    congrArg (wordsBytes ∘ List.ofFn) (funext h.msg)
  have hsalt : bytesOn y mv.saltWires = bytesOn x mv.saltWires :=
    congrArg (wordsBytes ∘ List.ofFn) (funext h.salt)
  have hlow : mv.lowNibbles y = mv.lowNibbles x := funext fun col => funext (h.low col)
  constructor
  · intro hy
    constructor
    · rw [← hc, ← hmsg, hy.c]
    · rw [← hpkId, ← h.keyRows, hy.pkId]
    · rw [← h.keyRows, ← hlow, hy.map, hmsg, hsalt]
  · intro hx
    constructor
    · rw [hc, hmsg, hx.c]
    · rw [hpkId, h.keyRows, hx.pkId]
    · rw [h.keyRows, hlow, hx.map, hmsg, hsalt]

/-- The signature words are none of the other inputs. -/
theorem nibble_ne {mv : Mayo2Verify} (hnodup : mv.inputs.Nodup) {w : Wire} (hw : w ∈ mv.others)
    (col : Fin K) (r : Fin N) : w ≠ mv.sig.nibbleWires col r := by
  rw [inputs, ← List.append_assoc, ← List.append_assoc, ← List.append_assoc] at hnodup
  obtain ⟨-, htail, hbefore⟩ := List.nodup_append.mp hnodup
  obtain ⟨-, -, hafter⟩ := List.nodup_append.mp htail
  have hnib := mem_nibbles mv.sig col r
  rw [others, ← List.append_assoc, ← List.append_assoc, ← List.append_assoc] at hw
  cases List.mem_append.mp hw with
  | inl hw => exact hbefore _ hw _ (List.mem_append_left _ hnib)
  | inr hw => exact (hafter _ hnib _ hw).symm

/-- Assignments that differ in the high bits of the signature words only. -/
theorem sameReads_of_low {mv : Mayo2Verify} {n n' : Counts} (hfresh : Fresh mv.inputs n n')
    {x y : Wire → Word} (h : ∀ w : Wire, w.IsInput → y w = x w ∨
      (∃ col r, w = mv.sig.nibbleWires col r) ∧ y w &&& 0x0F = x w &&& 0x0F) :
    mv.SameReads x y := by
  refine sameReads_of_others (fun w hw => ?_) fun col r => ?_
  · cases h w (hfresh.isInput (mv.mem_inputs.mpr (.inl hw))) with
    | inl heq => exact heq
    | inr hlow =>
        obtain ⟨⟨col, r, heq⟩, -⟩ := hlow
        exact absurd heq (nibble_ne hfresh.nodup hw col r)
  · have hmask : ∀ w : Word, asByte w &&& 0x0F = asByte (w &&& 0x0F) := by
      intro w
      apply UInt8.toBitVec_inj.mp
      simp only [asByte, UInt8.toBitVec_and, UInt8.toBitVec_ofBitVec, BitVec.setWidth_and]
      rfl
    have hin := hfresh.isInput (mv.mem_inputs.mpr (.inr (mem_nibbles mv.sig col r)))
    cases h _ hin with
    | inl heq => rw [heq]
    | inr hlow => rw [hmask, hmask, hlow.2]

theorem newWitnesses_yields (n : ℕ) : Yields f v (newWitnesses n) fun as => as.length = n :=
  Computes.mono (mapM_computes (Q := fun _ _ => True) (fun _ =>
    Computes.mono BitslicedGf16Mvec.newWitness_yields fun _ _ => trivial) _) fun as has => by
      rw [← has.length_eq, List.length_range]

theorem expandedPk_yields : Yields f v ExpandedPkWires.newWitness fun pk => pk.Sized :=
  Computes.bind (newWitnesses_yields _) fun _ h1 => Computes.bind (newWitnesses_yields _)
    fun _ h2 => Computes.bind (newWitnesses_yields _) fun _ h3 => Computes.pure ⟨h1, h2, h3⟩

theorem allocate_yields : Yields f v allocate fun mv => mv.pkWires.Sized ∧ Broadcast v mv.sig := by
  refine Computes.bind (Q := fun _ => True) (Computes.mono (fromFn_computes fun _ => addInout_spec)
    fun _ _ => trivial) fun c _ => ?_
  refine Computes.bind (Q := fun _ => True) (Computes.mono (fromFn_computes fun _ => addInout_spec)
    fun _ _ => trivial) fun pkId _ => ?_
  refine Computes.bind (Q := fun _ => True) (Computes.mono
    (fromFn_computes fun _ => addWitness_spec) fun _ _ => trivial) fun msg _ => ?_
  refine Computes.bind expandedPk_yields fun pk hpk => ?_
  refine Computes.bind SigBroadcasts.newWitness_yields fun sig hsig => ?_
  refine Computes.bind (Q := fun _ => True) (Computes.mono
    (fromFn_computes fun _ => addWitness_spec) fun _ _ => trivial) fun salt _ => ?_
  exact Computes.pure ⟨hpk, hsig.2⟩

theorem new_emits : Emits f v new (fun mv => mv.Holds v f) fun _ => True := by
  refine Computes.bind allocate_yields fun mv hmv => ?_
  refine Spec.mono (Spec.bind (hashMessage_emits _ _) fun _ _ => Spec.bind (hashPk_emits hmv.1)
    fun _ _ => Spec.bind (checkMap_emits _ _ hmv.1 hmv.2) fun _ _ =>
      Computes.pure (Q := fun mv' => mv' = mv) rfl) fun mv' heq => ⟨trivial, ?_⟩
  subst heq
  rw [holds_iff, and_true]

/-- What the assertions of the circuit say, from its inputs. -/
theorem asserted_iff {x : Wire → Word} {n : Counts} (hx : SameInputs x v)
    (hd : Driven (Gate.eval f) v (new.run n).constraints) :
    Asserted v (new.run n).constraints ↔ (new.run n).val.Holds x f := by
  obtain ⟨n', hfresh⟩ := new_inputs n
  rw [(new_emits n hd).2]
  exact (sameReads_of_low hfresh fun w hw => .inl (hx w hw)).holds

/-- **The circuit is exact.** -/
theorem new_exact (f : KeccakState → KeccakState) (x : Wire → Word) (n : Counts) :
    (Satisfiable (Gate.eval f) x (new.run n).constraints ↔ (new.run n).val.Holds x f) ∧
      ∀ y : Wire → Word, (∀ w : Wire, w.IsInput → y w = x w ∨
        (∃ col r, w = (new.run n).val.sig.nibbleWires col r) ∧ y w &&& 0x0F = x w &&& 0x0F) →
        (Satisfiable (Gate.eval f) y (new.run n).constraints ↔
          Satisfiable (Gate.eval f) x (new.run n).constraints) := by
  have hexact : ∀ x, Satisfiable (Gate.eval f) x (new.run n).constraints ↔
      (new.run n).val.Holds x f := fun x => satisfiable_iff fun v hx hd => asserted_iff hx hd
  refine ⟨hexact x, fun y h => ?_⟩
  obtain ⟨n', hfresh⟩ := new_inputs n
  rw [hexact, hexact]
  exact (sameReads_of_low hfresh h).holds

open Classical in
/-- Words with a bit above the nibble, where the signature is expected. -/
theorem new_exact_high_bits :
    Satisfiable (Gate.eval id) (fun w => if ∃ col r, w = (new.run ⟨0, 0, 0⟩).val.sig.nibbleWires col r
      then 0x10 else 0) (new.run ⟨0, 0, 0⟩).constraints ↔
    Satisfiable (Gate.eval id) (fun _ => 0) (new.run ⟨0, 0, 0⟩).constraints := by
  refine (new_exact id (fun _ => 0) ⟨0, 0, 0⟩).2 _ fun w _ => ?_
  by_cases h : ∃ col r, w = (new.run ⟨0, 0, 0⟩).val.sig.nibbleWires col r
  · exact .inr ⟨h, by simp only [if_pos h]; rfl⟩
  · exact .inl (if_neg h)

end Mayo2Verify

end Works.BiniusMayo
