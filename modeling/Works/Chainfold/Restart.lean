import Works.Chainfold.EngineRun
import Works.Chainfold.EngineSim

/-! # Restarting from a snapshot

An engine that is saved and decoded again comes back without checkpoints and with its ring
laid out from the start of the lanes.  Neither shows: state, cursor, status and observed blocks
are the same, so the two engines answer every later sequence of batches alike and encode to
the same bytes. -/

namespace Works.Chainfold

open Works.Lib BlockRing

variable {σ E ε π : Type} {P : Persist σ π} {W : Wincode} {crc : Crc}

/-! ### Frames -/

/-- A frame around a serialized envelope opens to it. -/
theorem openFrame_frame (hW : W.Lawful) {env : Envelope} {bytes : List UInt8}
    (hs : W.serialize env = some bytes) (hmagic : env.magic = SNAPSHOT_MAGIC)
    (hversion : env.version = SNAPSHOT_VERSION) :
    (openFrame W crc (bytes ++ leBytes CRC_LEN (crc bytes).toNat) :
      Except (SnapshotError π) Envelope) = .ok env := by
  obtain ⟨rest, hrest⟩ := hW.layout hs
  rw [hmagic, hversion] at hrest
  set out := bytes ++ leBytes CRC_LEN (crc bytes).toNat with hout
  have hlen : out.length = bytes.length + CRC_LEN := by simp [hout]
  have hten : bytes.length = 10 + rest.length := by
    simp only [hrest, List.length_append, length_leBytes,
      show SNAPSHOT_MAGIC.length = 8 from rfl]
  have hfront : out = SNAPSHOT_MAGIC ++ (leBytes 2 SNAPSHOT_VERSION ++
      (rest ++ leBytes CRC_LEN (crc bytes).toNat)) := by
    rw [hout, hrest]
    simp only [List.append_assoc]
  have htake : out.take MAGIC_LEN = SNAPSHOT_MAGIC := by
    rw [hfront]
    exact List.take_left' rfl
  have hver : ofLeBytes ((out.drop MAGIC_LEN).take 2) = SNAPSHOT_VERSION := by
    rw [hfront, List.drop_left' (show SNAPSHOT_MAGIC.length = MAGIC_LEN from rfl),
      List.take_left' (length_leBytes 2 _), ofLeBytes_leBytes_of_lt (by decide)]
  have hpayload : out.take (out.length - CRC_LEN) = bytes := by
    rw [hlen, Nat.add_sub_cancel, hout, List.take_left]
  have htrailer : out.drop (out.length - CRC_LEN) = leBytes CRC_LEN (crc bytes).toNat := by
    rw [hlen, Nat.add_sub_cancel, hout, List.drop_left]
  have hcrc : UInt32.ofNat (ofLeBytes (leBytes CRC_LEN (crc bytes).toNat)) = crc bytes := by
    rw [ofLeBytes_leBytes_of_lt (by exact (crc bytes).toNat_lt), UInt32.ofNat_toNat]
  have hmin : ¬ out.length < MIN_ENVELOPE_LEN := by
    have : MIN_ENVELOPE_LEN = 10 + CRC_LEN := rfl
    omega
  unfold openFrame
  simp only [if_neg hmin, htake, hver, hpayload, htrailer, hcrc, ne_eq, not_true_eq_false,
    if_false, hW.round_trip hs]

theorem length_flatMap_hash (blocks : List BlockRef) :
    (blocks.flatMap fun b => b.hash.toList).length = blocks.length * HASH_LEN := by
  induction blocks with
  | nil => simp
  | cons b blocks ih =>
      rw [List.flatMap_cons, List.length_append, ih, List.length_cons, Nat.succ_mul,
        Vector.length_toList, Nat.add_comm]
      rfl

theorem cursor_envelopeOf (fold : σ) (cursor : Cursor) (blocks : List BlockRef) :
    (envelopeOf P fold cursor blocks).cursor = cursor := by
  cases cursor <;> rfl

/-- The envelope of a good engine passes the checks. -/
theorem checkEnvelope_envelopeOf {config : EngineConfig} {e : Engine σ} (h : e.RingOk)
    (hcap : e.ring.capacity = config.ringCapacity) :
    (checkEnvelope P config (envelopeOf P e.fold e.cursor e.observed) :
      Except (SnapshotError π) Unit) = .ok () := by
  have hlen : ¬ config.ringCapacity < (e.observed.map (·.number)).length := by
    rw [List.length_map, ← hcap, not_lt]
    exact length_iter_le _
  have hasc : firstDescent (e.observed.map (·.number)) = none := by
    rw [firstDescent_eq_none_iff, List.pairwise_map]
    exact h.ascending
  have hhash : (e.observed.flatMap fun b => b.hash.toList).length =
      (e.observed.map (·.number)).length * HASH_LEN := by
    rw [length_flatMap_hash, List.length_map]
  have hlast : (e.observed.map (·.number)).getLast? = Cursor.block e.cursor := by
    rw [List.getLast?_map, ← h.newest, newestNumber_eq]
    rfl
  unfold checkEnvelope
  rw [cursor_envelopeOf]
  simp only [envelopeOf, ringLanes, ne_eq, not_true_eq_false, if_false, if_neg hlen, hasc,
    Option.isSome_none, Bool.false_eq_true, hhash, hlast]

theorem decodeSnapshot_ok {bytes : List UInt8} {config : EngineConfig} {env : Envelope} {fold : σ}
    (hv : config.validate = .ok ())
    (hf : (openFrame W crc bytes : Except (SnapshotError π) Envelope) = .ok env)
    (hc : (checkEnvelope P config env : Except (SnapshotError π) Unit) = .ok ())
    (hd : P.decodeState env.state = .ok fold) :
    ∃ e, Engine.decodeSnapshot P W crc bytes config = .ok e := by
  obtain ⟨-, hlen, -, hhash, -⟩ := checkEnvelope_ok hc
  obtain ⟨ring, blocks, hring, -, -, -⟩ := refillRing_spec (π := π)
    env.ringNumbers env.ringHashes
    (BlockRing.withCapacity config.ringCapacity
      (EngineConfig.isPowerOfTwo_of_validate hv)) hhash (by simpa using hlen)
  unfold Engine.decodeSnapshot
  split
  · rename_i err herr
    rw [hv] at herr
    cases herr
  · rw [hf]
    simp only [bind, Except.bind, hc, hd, Except.mapError, hring, new_ok hv]
    exact ⟨_, rfl⟩

theorem Started.validate {config : EngineConfig} {e : Engine σ} (h : Started P W crc config e) :
    config.validate = .ok () := by
  cases hv : config.validate with
  | ok u => rfl
  | error err =>
      cases h with
      | new h =>
          unfold Engine.new at h
          split at h
          · cases h
          · rename_i u hu
            rw [hv] at hu
            cases hu
      | decoded h =>
          unfold Engine.decodeSnapshot at h
          split at h
          · cases h
          · rename_i u hu
            rw [hv] at hu
            cases hu

/-! ### The restored engine -/

theorem Engine.Sim.after (A : Fold σ E ε) {e₁ e₂ : Engine σ} (h : Engine.Sim ∅ e₁ e₂)
    (bs : List (Batch E)) : Engine.Sim ∅ (e₁.after A bs) (e₂.after A bs) := by
  induction bs generalizing e₁ e₂ with
  | nil => exact h
  | cons b bs ih => exact ih (h.applyBatch A b (by simp)).2

theorem Engine.Sim.observed {e₁ e₂ : Engine σ} (h : Engine.Sim ∅ e₁ e₂) :
    e₁.observed = e₂.observed := by
  obtain ⟨l, hl, hD⟩ := h.older
  have hnil : l = [] := List.eq_nil_iff_forall_not_mem.mpr fun a ha => hD a ha
  rw [Engine.observed, hl, hnil]
  rfl

theorem Engine.Sim.encodeSnapshot {e₁ e₂ : Engine σ} (h : Engine.Sim ∅ e₁ e₂)
    (out : List UInt8) : e₁.encodeSnapshot P W crc out = e₂.encodeSnapshot P W crc out := by
  unfold Engine.encodeSnapshot
  rw [h.status, h.fold, h.cursor, h.observed]

/-- Decoding what a good active engine encodes. -/
theorem decode_encode (hW : W.Lawful) (hP : ∀ s, P.decodeState (P.encodeState s) = .ok s)
    {config : EngineConfig} (hv : config.validate = .ok ()) {e : Engine σ} (h : e.RingOk)
    (hcap : e.ring.capacity = config.ringCapacity) (hactive : e.status = .active)
    {out : List UInt8} (henc : e.encodeSnapshot P W crc [] = (out, .ok ())) :
    ∃ e', Engine.decodeSnapshot P W crc out config = .ok e' ∧ Engine.Sim ∅ e e' := by
  have hout : ∃ bytes, W.serialize (envelopeOf P e.fold e.cursor e.observed) = some bytes ∧
      out = bytes ++ leBytes CRC_LEN (crc bytes).toNat := by
    simp only [Engine.encodeSnapshot, hactive, encodeEnvelope, writeEnvelope] at henc
    cases hs : W.serialize (envelopeOf P e.fold e.cursor e.observed) with
    | none => simp [hs] at henc
    | some bytes =>
        simp only [hs, List.nil_append, Prod.mk.injEq, and_true] at henc
        exact ⟨bytes, rfl, henc.symm⟩
  obtain ⟨bytes, hs, rfl⟩ := hout
  have hframe : (openFrame W crc (bytes ++ leBytes CRC_LEN (crc bytes).toNat) :
      Except (SnapshotError π) Envelope) = _ := openFrame_frame hW hs rfl rfl
  have hcheck := checkEnvelope_envelopeOf (P := P) h hcap
  obtain ⟨e', he'⟩ := decodeSnapshot_ok hv hframe hcheck (hP e.fold)
  refine ⟨e', he', ?_⟩
  obtain ⟨env, hf, hc, hd⟩ := decodeSnapshot_cases he'
  rw [hframe, Except.ok.injEq] at hf
  subst hf
  have hfold : e.fold = e'.fold := by
    have := hd.fold
    rw [envelopeOf, hP, Except.ok.injEq] at this
    exact this
  have hcursor : e'.cursor = e.cursor := by rw [hd.cursor, cursor_envelopeOf]
  have hiter : e'.ring.iter = e.ring.iter := ringLanes_inj hd.lanes
  exact ⟨hfold, hcursor.symm, by rw [hactive, hd.status], h, hd.ringOk hc,
    by rw [hcap, hd.capacity], [], by rw [hiter]; rfl, by simp⟩

/-- **Restart identity.**  A reachable active engine and its decoded snapshot answer every
later sequence of batches alike, observe the same blocks after it and encode to the same
bytes. -/
theorem restart_identity (A : Fold σ E ε) (hW : W.Lawful)
    (hP : ∀ s, P.decodeState (P.encodeState s) = .ok s) {config : EngineConfig} {e₀ : Engine σ}
    (hstart : Started P W crc config e₀) (ops : List (Op σ E))
    (hactive : ((Tracked.start e₀).run A ops).engine.status = .active) {out : List UInt8}
    (henc : ((Tracked.start e₀).run A ops).engine.encodeSnapshot P W crc [] = (out, .ok ())) :
    ∃ e', Engine.decodeSnapshot P W crc out config = .ok e' ∧ e'.status = .active ∧
      ∀ bs : List (Batch E),
        e'.applyAll A bs = ((Tracked.start e₀).run A ops).engine.applyAll A bs ∧
        (e'.after A bs).observed =
          (((Tracked.start e₀).run A ops).engine.after A bs).observed ∧
        ∀ out' : List UInt8, (e'.after A bs).encodeSnapshot P W crc out' =
          (((Tracked.start e₀).run A ops).engine.after A bs).encodeSnapshot P W crc out' := by
  have h := hstart.inv.run A ops
  obtain ⟨e', hdec, hsim⟩ := decode_encode hW hP hstart.validate h.ringOk h.capacity hactive henc
  refine ⟨e', hdec, by rw [← hsim.status, hactive], ?_⟩
  intro bs
  have hafter := hsim.after A bs
  exact ⟨(hsim.applyAll A bs (by simp)).symm, hafter.observed.symm,
    fun out' => (hafter.encodeSnapshot out').symm⟩

/-- A new engine that adds up its events. -/
def sumEngine : Engine UInt64 := Engine.fresh 0 sampleConfig sampleConfig_ringCapacity

/-- The engine after a batch. -/
def summedEngine : Engine UInt64 :=
  ((Tracked.start sumEngine).run sumFold [.applyBatch sampleBatch]).engine

/-- An engine with room for two blocks, after three. -/
def wrappedEngine : Engine UInt64 :=
  ((Tracked.start (Engine.fresh 0 ⟨2, 2⟩ ⟨1, rfl⟩)).run sumFold
    [.applyBatch sampleBatch, .applyBatch laterBatch]).engine

/-- Block 4 again, and an event in block 6. -/
def nextBatch : Batch ℕ :=
  ((Batch.new.withBoundary (some (sampleBlock 4))).pushBlock (sampleBlock 4)
    [(0, 13)]).pushBlock (sampleBlock 6) [(2, 14)]

/-- The ring of the saved engine is wrapped. -/
theorem sample_restart : wrappedEngine.ring.head = 1 ∧
    ∃ e', Engine.decodeSnapshot sumPersist fixint crc32c
        (wrappedEngine.encodeSnapshot sumPersist fixint crc32c []).1 ⟨2, 2⟩ = .ok e' ∧
      e'.applyAll sumFold [nextBatch] = wrappedEngine.applyAll sumFold [nextBatch] ∧
      (e'.after sumFold [nextBatch]).observed =
        (wrappedEngine.after sumFold [nextBatch]).observed := by
  have hstart : Started sumPersist fixint crc32c ⟨2, 2⟩ (Engine.fresh (0 : UInt64) ⟨2, 2⟩ ⟨1, rfl⟩) :=
    .new rfl
  have hser : fixint.serialize (envelopeOf sumPersist wrappedEngine.fold wrappedEngine.cursor
      wrappedEngine.observed) ≠ none := by
    have henv : (envelopeOf sumPersist wrappedEngine.fold wrappedEngine.cursor
      wrappedEngine.observed).Encodable := by decide
    simp [fixint, henv]
  obtain ⟨bytes, hbytes⟩ := Option.ne_none_iff_exists'.mp hser
  have henc : wrappedEngine.encodeSnapshot sumPersist fixint crc32c [] =
      ((wrappedEngine.encodeSnapshot sumPersist fixint crc32c []).1, .ok ()) := by
    have hst : wrappedEngine.status = .active := rfl
    simp only [Engine.encodeSnapshot, hst, encodeEnvelope, writeEnvelope, hbytes]
  obtain ⟨e', hdec, -, hall⟩ := restart_identity sumFold fixint_lawful sumPersist_round_trip
    hstart [.applyBatch sampleBatch, .applyBatch laterBatch] rfl henc
  obtain ⟨hresults, hobserved, -⟩ := hall [nextBatch]
  exact ⟨rfl, e', hdec, hresults, hobserved⟩

end Works.Chainfold
