import Works.Lib.BatchInverse
import Works.Lib.FixedArray
import Works.Sealring.Scan

/-! # The Grumpkin and the secp256k1 adapters

`adapters/grumpkin.rs` and `adapters/k256.rs`.  The curve libraries are parameters: types for the
points and the functions that the adapters call, with what the adapters rely on stated apart
(`Lawful`).  Both decapsulate a batch in chunks of 64 and gather the points of the valid keys of
a chunk, with their positions, at the front of a scratch array; what comes of the points is
scattered back to these positions. -/

namespace Works.Sealring

open Works.Lib Outcome

/-- A shared secret: thirty-two bytes. -/
abbrev SharedBytes := List.Vector UInt8 32

/-! ### Gathering and scattering -/

section Chunks

variable {P S : Type}

/-- The scratch of a chunk: the positions and the points of its valid keys come first. -/
structure Gathered (P : Type) where
  indices : Fin SCAN_CHUNK → ℕ
  points : Fin SCAN_CHUNK → P
  valid : ℕ

/-- A valid key goes behind those that were found. -/
def Gathered.push (s : Gathered P) (i : ℕ) (point : P) : Outcome Empty (Gathered P) := do
  let indices ← FixedArray.setAt s.indices s.valid i
  let points ← FixedArray.setAt s.points s.valid point
  pure ⟨indices, points, s.valid + 1⟩

/-- The first loop of a chunk, from position `i`: the slots are cleared, and the points of the
valid keys gathered. -/
def gather (shared : List UInt8 → Option P) :
    ℕ → List (List UInt8) → List (Option S) → Gathered P →
      Outcome Empty (List (Option S) × Gathered P)
  | i, epk :: epks, _ :: out, s => do
      let s ← match shared epk with
        | none => pure s
        | some point => s.push i point
      let (out, s) ← gather shared (i + 1) epks out s
      pure (none :: out, s)
  | _, _, out, s => pure (out, s)

/-- The last loop of a chunk: the secrets go to their positions. -/
def scatter : List (ℕ × S) → List (Option S) → Outcome Empty (List (Option S))
  | [], out => pure out
  | (i, secret) :: rest, out => do
      Outcome.require (i < out.length)
      scatter rest (out.set i (some secret))

/-- The loop over the chunks of the keys and of the slots. -/
def overChunks (chunk : List (List UInt8) → List (Option S) → Outcome Empty (List (Option S))) :
    List (List (List UInt8)) → List (List (Option S)) → Outcome Empty (List (Option S))
  | epks :: restEpks, out :: restOut => do
      let out ← chunk epks out
      let rest ← overChunks chunk restEpks restOut
      pure (out ++ rest)
  | _, restOut => pure restOut.flatten

/-- The valid keys from position `i` on: their positions and points. -/
def validKeys (shared : List UInt8 → Option P) : ℕ → List (List UInt8) → List (ℕ × P)
  | _, [] => []
  | i, epk :: epks => ((shared epk).map fun point => (i, point)).toList ++ validKeys shared (i + 1) epks

/-- The scratch begins with these positions and points. -/
structure Gathered.Holds (s : Gathered P) (ps : List (ℕ × P)) : Prop where
  indices : FixedArray.StartsWith s.indices (ps.map Prod.fst)
  points : FixedArray.StartsWith s.points (ps.map Prod.snd)
  valid : s.valid = ps.length

theorem Gathered.Holds.push {s : Gathered P} {ps : List (ℕ × P)} (h : s.Holds ps) (i : ℕ)
    (point : P) (hroom : ps.length < SCAN_CHUNK) :
    ∃ s', s.push i point = .ok s' ∧ s'.Holds (ps ++ [(i, point)]) := by
  have hvalid := h.valid
  obtain ⟨indices, e₁, hindices⟩ := h.indices.set (ε := Empty) s.valid i
    (by rw [List.length_map, hvalid]) (by omega)
  obtain ⟨points, e₂, hpoints⟩ := h.points.set (ε := Empty) s.valid point
    (by rw [List.length_map, hvalid]) (by omega)
  refine ⟨⟨indices, points, s.valid + 1⟩, ?_, ?_, ?_, ?_⟩
  · rw [Gathered.push, e₁, ok_bind, e₂, ok_bind]
    rfl
  · rw [List.map_append]
    exact hindices
  · rw [List.map_append]
    exact hpoints
  · rw [List.length_append, List.length_singleton, ← hvalid]

theorem gather_spec (shared : List UInt8 → Option P) (epks : List (List UInt8)) :
    ∀ (i : ℕ) (out : List (Option S)) (s : Gathered P) (ps : List (ℕ × P)),
      out.length = epks.length → s.Holds ps → ps.length + epks.length ≤ SCAN_CHUNK →
      ∃ s', gather shared i epks out s = .ok (List.replicate epks.length none, s') ∧
        s'.Holds (ps ++ validKeys shared i epks) := by
  induction epks with
  | nil =>
      intro i out s ps hout hs hroom
      rw [List.length_eq_zero_iff.mp hout]
      refine ⟨s, rfl, ?_⟩
      rw [validKeys, List.append_nil]
      exact hs
  | cons epk epks ih =>
      intro i out s ps hout hs hroom
      rw [List.length_cons] at hroom
      cases out with
      | nil => cases hout
      | cons slot out =>
          have hout := Nat.succ.inj hout
          rw [gather, validKeys]
          cases hshared : shared epk with
          | none =>
              obtain ⟨s', e, hs'⟩ := ih (i + 1) out s ps hout hs (by omega)
              refine ⟨s', ?_, hs'⟩
              dsimp only
              rw [pure_eq_ok, ok_bind, e]
              rfl
          | some point =>
              obtain ⟨s₁, e₁, hs₁⟩ := hs.push i point (by omega)
              obtain ⟨s', e, hs'⟩ := ih (i + 1) out s₁ (ps ++ [(i, point)]) hout hs₁
                (by rw [List.length_append, List.length_singleton]; omega)
              refine ⟨s', ?_, ?_⟩
              · dsimp only
                rw [e₁, ok_bind, e]
                rfl
              · rw [List.append_assoc] at hs'
                exact hs'

theorem mem_validKeys {shared : List UInt8 → Option P} {p : ℕ × P}
    (epks : List (List UInt8)) :
    ∀ i, p ∈ validKeys shared i epks → ∃ epk, shared epk = some p.2 := by
  induction epks with
  | nil =>
      intro i hp
      cases hp
  | cons epk epks ih =>
      intro i hp
      rw [validKeys, List.mem_append, Option.mem_toList] at hp
      cases hp with
      | inl hp =>
          obtain ⟨point, hpoint, heq⟩ := Option.map_eq_some_iff.mp hp
          rw [← heq]
          exact ⟨epk, hpoint⟩
      | inr hp => exact ih (i + 1) hp

/-- The secrets made of the valid keys end up in the slots of these. -/
theorem scatter_validKeys (shared : List UInt8 → Option P) (secret : P → S)
    (epks : List (List UInt8)) :
    ∀ before : List (Option S),
      scatter ((validKeys shared before.length epks).map fun p => (p.1, secret p.2))
        (before ++ List.replicate epks.length none) =
        .ok (before ++ epks.map fun epk => (shared epk).map secret) := by
  induction epks with
  | nil => intro before; rfl
  | cons epk epks ih =>
      intro before
      rw [validKeys, List.map_cons, List.length_cons, List.replicate_succ]
      cases hshared : shared epk with
      | none =>
          have hrest := ih (before ++ [none])
          rw [List.length_append, List.length_singleton, List.append_assoc,
            List.append_assoc] at hrest
          exact hrest
      | some point =>
          have hrest := ih (before ++ [some (secret point)])
          rw [List.length_append, List.length_singleton, List.append_assoc,
            List.append_assoc] at hrest
          have hset : (before ++ none :: List.replicate epks.length none).set before.length
              (some (secret point)) =
              before ++ ([some (secret point)] ++ List.replicate epks.length none) := by
            rw [List.set_append_right _ _ le_rfl, Nat.sub_self]
            rfl
          rw [Option.map_some, Option.toList_some, List.singleton_append, List.map_cons, scatter]
          dsimp only
          rw [require_pos (by rw [List.length_append, List.length_cons]; omega), ok_bind, hset]
          exact hrest

/-- A loop over chunks whose every chunk is right is right. -/
theorem overChunks_eq {chunk : List (List UInt8) → List (Option S) → Outcome Empty (List (Option S))}
    {f : List UInt8 → Option S} {n : ℕ} (hn : 0 < n)
    (h : ∀ epks out, out.length = epks.length → epks.length ≤ n → chunk epks out = .ok (epks.map f))
    (epks : List (List UInt8)) :
    ∀ out : List (Option S), out.length = epks.length →
      overChunks chunk (chunks n epks) (chunks n out) = .ok (epks.map f) := by
  fun_induction chunks n epks with
  | case1 epks hempty =>
      intro out hout
      cases hempty with
      | inl hempty =>
          subst hempty
          rw [List.length_eq_zero_iff.mp hout, chunks, if_pos (Or.inl rfl)]
          rfl
      | inr hzero => omega
  | case2 epks hne ih =>
      intro out hout
      have hpos : 0 < epks.length := List.length_pos_iff.mpr fun he => hne (Or.inl he)
      have hne' : ¬ (out = [] ∨ n = 0) := by
        intro hempty
        cases hempty with
        | inl hempty =>
            rw [hempty] at hout
            exact absurd hout.symm (by rw [List.length_nil]; omega)
        | inr hzero => omega
      have hchunks : chunks n out = out.take n :: chunks n (out.drop n) := by
        rw [chunks, if_neg hne']
      rw [hchunks, overChunks,
        h _ _ (by rw [List.length_take, List.length_take, hout]) (List.length_take_le n epks), ok_bind,
        ih _ (by rw [List.length_drop, List.length_drop, hout]), ok_bind, ← List.map_append,
        List.take_append_drop]
      rfl

/-- What a chunk starts with. -/
theorem holds_fresh (indices : Fin SCAN_CHUNK → ℕ) (points : Fin SCAN_CHUNK → P) :
    (Gathered.mk indices points 0).Holds [] :=
  ⟨FixedArray.startsWith_nil _, FixedArray.startsWith_nil _, rfl⟩

end Chunks

/-! ### Grumpkin -/

def GRUMPKIN_EPK_LEN : ℕ := 32

/-- What the adapter uses of `ark_grumpkin`: the base field, the scalars and the points, affine
and in Jacobian coordinates. -/
structure Grumpkin (Fq Fr Affine Projective : Type) where
  fromLeBytesModOrder : List.Vector UInt8 64 → Fr
  /-- `mul_generator`. -/
  mulGenerator : Fr → Affine
  /-- `compress`. -/
  compress : Affine → List.Vector UInt8 GRUMPKIN_EPK_LEN
  deserializeCompressed : List UInt8 → Option Affine
  isZero : Affine → Bool
  mul : Affine → Fr → Projective
  zero : Projective
  x : Projective → Fq
  z : Projective → Fq
  intoAffine : Projective → Affine
  xy : Affine → Option (Fq × Fq)
  inverse : Fq → Option Fq
  /-- `fq_bytes`. -/
  fqBytes : Fq → SharedBytes

namespace Grumpkin

variable {Fq Fr Affine Projective : Type} [Field Fq] [DecidableEq Fq]
  (G : Grumpkin Fq Fr Affine Projective)

/-- What the adapter relies on: field inversion, and what Jacobian coordinates stand for. -/
structure Lawful : Prop where
  inverse_zero : G.inverse 0 = none
  inverse_of_ne : ∀ a, a ≠ 0 → G.inverse a = some a⁻¹
  xy_identity : ∀ p, G.z p = 0 → G.xy (G.intoAffine p) = none
  xy_affine : ∀ p, G.z p ≠ 0 → ∃ y, G.xy (G.intoAffine p) = some (G.x p / G.z p ^ 2, y)

omit [Field Fq] [DecidableEq Fq] in
/-- `x_coordinate`. -/
def xCoordinate (point : Affine) : Option SharedBytes :=
  (G.xy point).map fun (x, _) => G.fqBytes x

/-- `batch_invert`. -/
def batchInvert (zs scratch : List Fq) : Outcome Empty (List Fq) := do
  Outcome.require (zs.length = scratch.length)
  let (before, running) := multiplyUp 1 zs scratch
  let inverse ← Outcome.expect (G.inverse running)
  pure (divideDown inverse zs before)

omit [Field Fq] [DecidableEq Fq] in
/-- `encap`, from the randomness that the scalar is drawn from. -/
def encap (rng : List.Vector UInt8 64) (pk : Affine) :
    List.Vector UInt8 GRUMPKIN_EPK_LEN × SharedBytes :=
  let esk := G.fromLeBytesModOrder rng
  let epk := G.mulGenerator esk
  let shared := G.intoAffine (G.mul pk esk)
  (G.compress epk, (G.xCoordinate shared).getD (List.Vector.replicate 32 0))

omit [Field Fq] [DecidableEq Fq] in
/-- `decap`. -/
def decap (sk : Fr) (epk : List UInt8) : Option SharedBytes :=
  if epk.length ≠ GRUMPKIN_EPK_LEN then none
  else
    match G.deserializeCompressed epk with
    | none => none
    | some point =>
        if G.isZero point then none
        else G.xCoordinate (G.intoAffine (G.mul point sk))

/-- The checks of `decap_batch` on one key: the point to gather, with its `z`. -/
def sharedPoint (sk : Fr) (epk : List UInt8) : Option (Projective × Fq) :=
  if epk.length ≠ GRUMPKIN_EPK_LEN then none
  else
    match G.deserializeCompressed epk with
    | none => none
    | some point =>
        if G.isZero point then none
        else
          let shared := G.mul point sk
          if G.z shared = 0 then none else some (shared, G.z shared)

/-- One chunk of `decap_batch`.  The source keeps the points and their `z` in two arrays that it
writes together. -/
def decapChunk (sk : Fr) (epks : List (List UInt8)) (out : List (Option SharedBytes)) :
    Outcome Empty (List (Option SharedBytes)) := do
  let (out, s) ← gather (G.sharedPoint sk) 0 epks out ⟨fun _ => 0, fun _ => (G.zero, 0), 0⟩
  let indices ← FixedArray.slice s.indices 0 s.valid
  let points ← FixedArray.slice s.points 0 s.valid
  let scratch ← FixedArray.slice (fun _ : Fin SCAN_CHUNK => (0 : Fq)) 0 s.valid
  let zs ← G.batchInvert (points.map Prod.snd) scratch
  let normalized := (indices.zip (points.map Prod.fst)).zip zs
  scatter (normalized.map fun ((index, point), zInverse) =>
    (index, G.fqBytes (G.x point * zInverse ^ 2))) out

/-- `decap_batch`. -/
def decapBatch (sk : Fr) (epks : List (List UInt8)) (out : List (Option SharedBytes)) :
    Outcome Empty (List (Option SharedBytes)) :=
  overChunks (G.decapChunk sk) (chunks SCAN_CHUNK epks) (chunks SCAN_CHUNK out)

variable {G}

omit [DecidableEq Fq] in
theorem batchInvert_eq (hG : G.Lawful) {zs scratch : List Fq} (hzs : ∀ z ∈ zs, z ≠ 0)
    (hlen : scratch.length = zs.length) :
    G.batchInvert zs scratch = .ok (zs.map fun z => z⁻¹) := by
  have hne := multiplyUp_ne_zero hzs hlen
  have hdown := divideDown_multiplyUp hzs hlen
  unfold batchInvert
  rw [require_pos hlen.symm, ok_bind]
  dsimp only
  rw [hG.inverse_of_ne _ hne, expect_some, ok_bind, hdown]
  rfl

/-- A point that is gathered has an inverse, and its `z` beside it. -/
theorem sharedPoint_spec {sk : Fr} {epk : List UInt8} {p : Projective × Fq}
    (h : G.sharedPoint sk epk = some p) : p.2 = G.z p.1 ∧ p.2 ≠ 0 := by
  unfold sharedPoint at h
  split_ifs at h
  cases hpoint : G.deserializeCompressed epk with
  | none =>
      rw [hpoint] at h
      cases h
  | some point =>
      rw [hpoint] at h
      dsimp only at h
      split_ifs at h with hzero hz
      cases h
      exact ⟨rfl, hz⟩

/-- What the batch makes of a key is what `decap` makes of it. -/
theorem map_sharedPoint (hG : G.Lawful) (sk : Fr) (epk : List UInt8) :
    (G.sharedPoint sk epk).map (fun p => G.fqBytes (G.x p.1 * p.2⁻¹ ^ 2)) = G.decap sk epk := by
  unfold sharedPoint decap xCoordinate
  split_ifs with hlen
  · rfl
  · cases G.deserializeCompressed epk with
    | none => rfl
    | some point =>
        dsimp only
        split_ifs with hzero hz
        · rfl
        · rw [hG.xy_identity _ hz]
          rfl
        · obtain ⟨y, hy⟩ := hG.xy_affine _ hz
          rw [hy, Option.map_some, Option.map_some, inv_pow, ← div_eq_mul_inv]

theorem decapChunk_eq (hG : G.Lawful) (sk : Fr) (epks : List (List UInt8))
    (out : List (Option SharedBytes)) (hout : out.length = epks.length)
    (hroom : epks.length ≤ SCAN_CHUNK) :
    G.decapChunk sk epks out = .ok (epks.map (G.decap sk)) := by
  obtain ⟨s, e, hs⟩ := gather_spec (G.sharedPoint sk) epks 0 out _ [] hout
    (holds_fresh (fun _ => 0) fun _ => (G.zero, 0)) (by rw [List.length_nil]; omega)
  rw [List.nil_append] at hs
  generalize hps : validKeys (G.sharedPoint sk) 0 epks = ps at hs
  have hmem : ∀ p ∈ ps, p.2.2 = G.z p.2.1 ∧ p.2.2 ≠ 0 := by
    intro p hp
    rw [← hps] at hp
    obtain ⟨epk, hepk⟩ := mem_validKeys epks 0 hp
    exact sharedPoint_spec hepk
  have hfits := hs.points.fits
  rw [List.length_map] at hfits
  have hscratch : (FixedArray.slice (fun _ : Fin SCAN_CHUNK => (0 : Fq)) 0 s.valid :
      Outcome Empty (List Fq)) = .ok (List.replicate ps.length 0) := by
    rw [FixedArray.slice_of_le _ (Nat.zero_le _) (by rw [hs.valid]; exact hfits), List.drop_zero,
      List.ofFn_const, List.take_replicate, hs.valid, Nat.min_eq_left hfits]
  have hinvert : G.batchInvert ((ps.map Prod.snd).map Prod.snd) (List.replicate ps.length 0) =
      .ok (((ps.map Prod.snd).map Prod.snd).map fun z => z⁻¹) := batchInvert_eq hG
    (by
      intro z hz
      rw [List.map_map, List.mem_map] at hz
      obtain ⟨p, hp, rfl⟩ := hz
      exact (hmem p hp).2)
    (by rw [List.length_replicate, List.length_map, List.length_map])
  have hscatter := scatter_validKeys (G.sharedPoint sk)
    (fun p => G.fqBytes (G.x p.1 * p.2⁻¹ ^ 2)) epks []
  rw [List.length_nil, hps, List.nil_append, List.nil_append] at hscatter
  have hdecap : (fun epk => (G.sharedPoint sk epk).map fun p => G.fqBytes (G.x p.1 * p.2⁻¹ ^ 2)) =
      G.decap sk := funext fun epk => map_sharedPoint hG sk epk
  rw [hdecap] at hscatter
  unfold decapChunk
  rw [e, ok_bind]
  dsimp only
  rw [hs.indices.slice_all (by rw [List.length_map, hs.valid]), ok_bind,
    hs.points.slice_all (by rw [List.length_map, hs.valid]), ok_bind, hscratch, ok_bind, hinvert,
    ok_bind, ← hscatter]
  congr 1
  rw [List.map_map, List.map_map, List.map_map, List.zip_map', List.zip_map', List.map_map]
  rfl

end Grumpkin

/-! ### secp256k1 -/

def K256_EPK_LEN : ℕ := 33

/-- What the adapter uses of `k256`: the keys and the points, affine and projective. -/
structure K256 (PublicKey SecretKey Scalar AffinePoint ProjectivePoint : Type) where
  /-- `EphemeralSecret::generate_from_rng` and its public key. -/
  ephemeral : List UInt8 → Scalar × PublicKey
  publicKey : SecretKey → PublicKey
  toSec1Bytes : PublicKey → List.Vector UInt8 K256_EPK_LEN
  fromSec1Bytes : List UInt8 → Option PublicKey
  asAffine : PublicKey → AffinePoint
  toNonzeroScalar : SecretKey → Scalar
  ofAffine : AffinePoint → ProjectivePoint
  mul : ProjectivePoint → Scalar → ProjectivePoint
  IDENTITY : ProjectivePoint
  toAffine : ProjectivePoint → AffinePoint
  batchNormalize : (Fin SCAN_CHUNK → ProjectivePoint) → Fin SCAN_CHUNK → AffinePoint
  /-- `SharedSecret::from` and `raw_secret_bytes`. -/
  sharedSecret : AffinePoint → SharedBytes
  /-- `diffie_hellman` and `raw_secret_bytes`. -/
  diffieHellman : Scalar → AffinePoint → SharedBytes

namespace K256

variable {PublicKey SecretKey Scalar AffinePoint ProjectivePoint : Type}
  (K : K256 PublicKey SecretKey Scalar AffinePoint ProjectivePoint)

/-- What the adapter relies on: points are normalized one by one, and a shared secret is made of
the product of the point and the scalar. -/
structure Lawful : Prop where
  batchNormalize_eq : ∀ points i, K.batchNormalize points i = K.toAffine (points i)
  diffieHellman_eq : ∀ scalar point, K.diffieHellman scalar point =
    K.sharedSecret (K.toAffine (K.mul (K.ofAffine point) scalar))

/-- `encap`. -/
def encap (rng : List UInt8) (pk : PublicKey) : List.Vector UInt8 K256_EPK_LEN × SharedBytes :=
  let (esk, epk) := K.ephemeral rng
  (K.toSec1Bytes epk, K.diffieHellman esk (K.asAffine pk))

/-- `decap`. -/
def decap (sk : SecretKey) (epk : List UInt8) : Option SharedBytes :=
  match K.fromSec1Bytes epk with
  | none => none
  | some pk => some (K.diffieHellman (K.toNonzeroScalar sk) (K.asAffine pk))

/-- The check of `decap_batch` on one key: the point to gather. -/
def sharedPoint (sk : SecretKey) (epk : List UInt8) : Option ProjectivePoint :=
  match K.fromSec1Bytes epk with
  | none => none
  | some pk => some (K.mul (K.ofAffine (K.asAffine pk)) (K.toNonzeroScalar sk))

/-- One chunk of `decap_batch`. -/
def decapChunk (sk : SecretKey) (epks : List (List UInt8)) (out : List (Option SharedBytes)) :
    Outcome Empty (List (Option SharedBytes)) := do
  let (out, s) ← gather (K.sharedPoint sk) 0 epks out ⟨fun _ => 0, fun _ => K.IDENTITY, 0⟩
  let indices ← FixedArray.slice s.indices 0 s.valid
  let affines ← FixedArray.slice (K.batchNormalize s.points) 0 s.valid
  scatter ((indices.zip affines).map fun (index, affine) => (index, K.sharedSecret affine)) out

/-- `decap_batch`. -/
def decapBatch (sk : SecretKey) (epks : List (List UInt8)) (out : List (Option SharedBytes)) :
    Outcome Empty (List (Option SharedBytes)) :=
  overChunks (K.decapChunk sk) (chunks SCAN_CHUNK epks) (chunks SCAN_CHUNK out)

variable {K}

/-- What the batch makes of a key is what `decap` makes of it. -/
theorem map_sharedPoint (hK : K.Lawful) (sk : SecretKey) (epk : List UInt8) :
    (K.sharedPoint sk epk).map (fun p => K.sharedSecret (K.toAffine p)) = K.decap sk epk := by
  unfold sharedPoint decap
  cases K.fromSec1Bytes epk with
  | none => rfl
  | some pk =>
      dsimp only
      rw [Option.map_some, hK.diffieHellman_eq]

theorem decapChunk_eq (hK : K.Lawful) (sk : SecretKey) (epks : List (List UInt8))
    (out : List (Option SharedBytes)) (hout : out.length = epks.length)
    (hroom : epks.length ≤ SCAN_CHUNK) :
    K.decapChunk sk epks out = .ok (epks.map (K.decap sk)) := by
  obtain ⟨s, e, hs⟩ := gather_spec (K.sharedPoint sk) epks 0 out _ [] hout
    (holds_fresh (fun _ => 0) fun _ => K.IDENTITY) (by rw [List.length_nil]; omega)
  rw [List.nil_append] at hs
  have hscatter := scatter_validKeys (K.sharedPoint sk) (fun p => K.sharedSecret (K.toAffine p))
    epks []
  rw [List.length_nil, List.nil_append, List.nil_append] at hscatter
  have hdecap : (fun epk => (K.sharedPoint sk epk).map fun p => K.sharedSecret (K.toAffine p)) =
      K.decap sk := funext fun epk => map_sharedPoint hK sk epk
  rw [hdecap] at hscatter
  generalize validKeys (K.sharedPoint sk) 0 epks = ps at hs hscatter
  have hnormal : K.batchNormalize s.points = fun i => K.toAffine (s.points i) :=
    funext fun i => hK.batchNormalize_eq s.points i
  unfold decapChunk
  rw [e, ok_bind]
  dsimp only
  rw [hs.indices.slice_all (by rw [List.length_map, hs.valid]), ok_bind, hnormal,
    (hs.points.map K.toAffine).slice_all (by rw [List.length_map, List.length_map, hs.valid]),
    ok_bind, ← hscatter]
  congr 1
  rw [List.map_map, List.zip_map', List.map_map]
  rfl

end K256

/-! ### Batches -/

section Batches

variable {Fq Fr Affine Projective : Type} [Field Fq] [DecidableEq Fq]
  {PublicKey SecretKey Scalar AffinePoint ProjectivePoint : Type}

theorem SCAN_CHUNK_pos : 0 < SCAN_CHUNK := by decide

theorem Grumpkin.decapBatch_eq {G : Grumpkin Fq Fr Affine Projective} (hG : G.Lawful) (sk : Fr)
    (epks : List (List UInt8)) (out : List (Option SharedBytes)) (hout : out.length = epks.length) :
    G.decapBatch sk epks out = .ok (epks.map (G.decap sk)) :=
  overChunks_eq SCAN_CHUNK_pos (Grumpkin.decapChunk_eq hG sk) epks out hout

theorem K256.decapBatch_eq {K : K256 PublicKey SecretKey Scalar AffinePoint ProjectivePoint}
    (hK : K.Lawful) (sk : SecretKey) (epks : List (List UInt8)) (out : List (Option SharedBytes))
    (hout : out.length = epks.length) : K.decapBatch sk epks out = .ok (epks.map (K.decap sk)) :=
  overChunks_eq SCAN_CHUNK_pos (K256.decapChunk_eq hK sk) epks out hout

/-- **Batched decapsulation is single decapsulation.**  Whatever the keys are and whatever the
slots held, every slot ends with what `decap` makes of its key, and nothing panics. -/
theorem batches_decap_singly {G : Grumpkin Fq Fr Affine Projective} (hG : G.Lawful)
    {K : K256 PublicKey SecretKey Scalar AffinePoint ProjectivePoint} (hK : K.Lawful) :
    (∀ (sk : Fr) (epks : List (List UInt8)) (out : List (Option SharedBytes)),
      out.length = epks.length → G.decapBatch sk epks out = .ok (epks.map (G.decap sk))) ∧
    (∀ (sk : SecretKey) (epks : List (List UInt8)) (out : List (Option SharedBytes)),
      out.length = epks.length → K.decapBatch sk epks out = .ok (epks.map (K.decap sk))) :=
  ⟨Grumpkin.decapBatch_eq hG, K256.decapBatch_eq hK⟩

/-! ### The adapters as Kems -/

/-- `impl Kem for Grumpkin`.  A batch never panics on slots that match its keys
(`Grumpkin.decapBatch_eq`). -/
def Grumpkin.kem (G : Grumpkin Fq Fr Affine Projective) : Kem where
  PublicKey := Affine
  SecretKey := Fr
  Epk := List.Vector UInt8 GRUMPKIN_EPK_LEN
  SharedSecret := SharedBytes
  Rng := List.Vector UInt8 64
  epkBytes := List.Vector.toList
  sharedBytes := List.Vector.toList
  KEM_ID := 0x03
  EPK_LEN := GRUMPKIN_EPK_LEN
  encap := G.encap
  decap := G.decap
  derivePk := G.mulGenerator
  encodePk := G.compress
  decapBatch sk epks out :=
    match G.decapBatch sk epks out with
    | .ok out => out
    | .error _ => out

/-- `impl Kem for K256`. -/
def K256.kem (K : K256 PublicKey SecretKey Scalar AffinePoint ProjectivePoint) : Kem where
  PublicKey := PublicKey
  SecretKey := SecretKey
  Epk := List.Vector UInt8 K256_EPK_LEN
  SharedSecret := SharedBytes
  Rng := List UInt8
  epkBytes := List.Vector.toList
  sharedBytes := List.Vector.toList
  KEM_ID := 0x01
  EPK_LEN := K256_EPK_LEN
  encap := K.encap
  decap := K.decap
  derivePk := K.publicKey
  encodePk := K.toSec1Bytes
  decapBatch sk epks out :=
    match K.decapBatch sk epks out with
    | .ok out => out
    | .error _ => out

/-- The batches of both are what a scan asks of a Kem. -/
theorem Grumpkin.kem_batchPointwise {G : Grumpkin Fq Fr Affine Projective} (hG : G.Lawful) :
    G.kem.BatchPointwise := by
  intro sk epks out hout
  unfold Grumpkin.kem
  dsimp only
  rw [Grumpkin.decapBatch_eq hG sk epks out hout]

theorem K256.kem_batchPointwise
    {K : K256 PublicKey SecretKey Scalar AffinePoint ProjectivePoint} (hK : K.Lawful) :
    K.kem.BatchPointwise := by
  intro sk epks out hout
  unfold K256.kem
  dsimp only
  rw [K256.decapBatch_eq hK sk epks out hout]

/-! ### The libraries at the generators -/

/-- The number one, in 32 bytes from the lowest. -/
def oneBytes : SharedBytes := List.Vector.cons 1 (List.Vector.replicate 31 0)

/-- The encoding of the identity of Grumpkin. -/
def identityBytes : List UInt8 := List.replicate 31 0 ++ [0x40]

/-- `ark_grumpkin` at the generator, whose `x` is one, the identity, and the scalars 0 and 1. -/
def grumpkinAtOne : Grumpkin (ZMod 3) ℕ (Option (ZMod 3 × ZMod 3)) (ZMod 3 × ZMod 3 × ZMod 3) where
  fromLeBytesModOrder _ := 1
  mulGenerator scalar := if scalar = 0 then none else some (1, 1)
  compress _ := oneBytes
  deserializeCompressed bytes :=
    if bytes = oneBytes.toList then some (some (1, 1))
    else if bytes = identityBytes then some none
    else none
  isZero point := point.isNone
  mul point scalar :=
    match point with
    | none => (1, 1, 0)
    | some (x, y) => if scalar = 0 then (1, 1, 0) else (x, y, 1)
  zero := (1, 1, 0)
  x p := p.1
  z p := p.2.2
  intoAffine p :=
    if p.2.2 = 0 then none else some (p.1 / p.2.2 ^ 2, p.2.1 / p.2.2 ^ 3)
  xy point := point
  inverse a := if a = 0 then none else some a⁻¹
  fqBytes x := List.Vector.cons (UInt8.ofNat x.val) (List.Vector.replicate 31 0)

theorem grumpkinAtOne_lawful : grumpkinAtOne.Lawful where
  inverse_zero := rfl
  inverse_of_ne := fun _ ha => if_neg ha
  xy_identity := fun _ hz => if_pos hz
  xy_affine := fun _ hz => ⟨_, if_neg hz⟩

/-- The `x` of the generator of secp256k1. -/
def generatorX : SharedBytes :=
  ⟨[0x79, 0xBE, 0x66, 0x7E, 0xF9, 0xDC, 0xBB, 0xAC, 0x55, 0xA0, 0x62, 0x95, 0xCE, 0x87, 0x0B, 0x07,
    0x02, 0x9B, 0xFC, 0xDB, 0x2D, 0xCE, 0x28, 0xD9, 0x59, 0xF2, 0x81, 0x5B, 0x16, 0xF8, 0x17, 0x98],
    rfl⟩

/-- `k256` at the generator and the scalar 1; a point is the generator or not. -/
def k256AtOne : K256 Unit Unit Unit Bool Bool where
  ephemeral _ := ((), ())
  publicKey _ := ()
  toSec1Bytes _ := List.Vector.cons 2 generatorX
  fromSec1Bytes bytes := if bytes = 2 :: generatorX.toList then some () else none
  asAffine _ := true
  toNonzeroScalar _ := ()
  ofAffine point := point
  mul point _ := point
  IDENTITY := false
  toAffine point := point
  batchNormalize points := points
  sharedSecret point := if point then generatorX else List.Vector.replicate 32 0
  diffieHellman _ point := if point then generatorX else List.Vector.replicate 32 0

theorem k256AtOne_lawful : k256AtOne.Lawful where
  batchNormalize_eq := fun _ _ => rfl
  diffieHellman_eq := fun _ _ => rfl

/-- Keys of the wrong length and the identity between two valid ones. -/
theorem generators_decap :
    grumpkinAtOne.decapBatch 1 [oneBytes.toList, [], identityBytes, oneBytes.toList]
        [none, some generatorX, some generatorX, none] =
      .ok [some oneBytes, none, none, some oneBytes] ∧
    k256AtOne.decapBatch () [[4], 2 :: generatorX.toList] [some oneBytes, some oneBytes] =
      .ok [none, some generatorX] := by
  obtain ⟨hG, hK⟩ := batches_decap_singly grumpkinAtOne_lawful k256AtOne_lawful
  constructor
  · rw [hG 1 _ _ rfl]
    decide +kernel
  · rw [hK () _ _ rfl]
    decide +kernel

end Batches

end Works.Sealring
