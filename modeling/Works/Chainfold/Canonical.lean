import Works.Chainfold.Restart

/-! # Which snapshots are canonical

Decoding keeps of an envelope its state, its blocks and its cursor, and the checks fix the
rest: all but the flag byte of the cursor, of which it only looks at zero, and the two fields
of a cursor that is not set.  A snapshot is what the decoded engine encodes to exactly when
these are what the encoder writes. -/

namespace Works.Chainfold

open Works.Lib BlockRing

variable {σ π : Type} {P : Persist σ π} {W : Wincode} {crc : Crc}

/-- A codec that reads back only what it writes: equal envelopes come from equal bytes, and
what was read fits the types of its fields and the length ceiling. -/
structure Wincode.Strict (W : Wincode) : Prop where
  injective : ∀ {env bytes bytes'}, W.deserialize bytes = some env →
    W.deserialize bytes' = some env → bytes = bytes'
  fits : ∀ {env bytes}, W.deserialize bytes = some env → (W.serialize env).isSome
  magic : ∀ {env bytes}, W.deserialize bytes = some env → env.magic.length = MAGIC_LEN
  version : ∀ {env bytes}, W.deserialize bytes = some env → env.version < 256 ^ 2

/-- The flag and the fields of the cursor are what `cursor_fields` gives. -/
def Envelope.CursorCanonical (env : Envelope) : Prop :=
  env.cursorSet = 1 ∨ env.cursorSet = 0 ∧ env.cursorBlock = 0 ∧ env.cursorLogIndex = 0

/-- The bytes of the envelope in the frame `bytes`: all but the trailer. -/
def payload (bytes : List UInt8) : List UInt8 := bytes.take (bytes.length - CRC_LEN)

/-- The envelope in `bytes` has a canonical cursor. -/
def CursorCanonical (W : Wincode) (bytes : List UInt8) : Prop :=
  ∃ env, W.deserialize (payload bytes) = some env ∧ env.CursorCanonical

theorem Envelope.cursorCanonical_iff (env : Envelope) : env.CursorCanonical ↔
    cursorFields env.cursor = (env.cursorSet, env.cursorBlock, env.cursorLogIndex) := by
  unfold CursorCanonical Envelope.cursor
  constructor
  · rintro (h | ⟨h, hb, hi⟩)
    · simp [h, cursorFields]
    · simp [h, hb, hi, cursorFields]
  · intro h
    split_ifs at h with hset
    · simp only [cursorFields, Prod.mk.injEq] at h
      exact .inl h.1.symm
    · simp only [cursorFields, Prod.mk.injEq] at h
      exact .inr ⟨h.1.symm, h.2.1.symm, h.2.2.symm⟩

theorem Wincode.Strict.serialize (hS : W.Strict) (hW : W.Lawful) {env : Envelope}
    {bytes : List UInt8} (h : W.deserialize bytes = some env) :
    W.serialize env = some bytes := by
  obtain ⟨bytes', hser⟩ := Option.isSome_iff_exists.mp (hS.fits h)
  rw [hser, hS.injective (hW.round_trip hser) h]

/-! ### What the checks fix -/

/-- The bytes that `open_frame` accepts end in the checksum of the rest. -/
theorem openFrame_ok {bytes : List UInt8} {env : Envelope}
    (h : (openFrame W crc bytes : Except (SnapshotError π) Envelope) = .ok env) :
    bytes = payload bytes ++ leBytes CRC_LEN (crc (payload bytes)).toNat ∧
    bytes.take MAGIC_LEN = SNAPSHOT_MAGIC ∧
    ofLeBytes ((bytes.drop MAGIC_LEN).take 2) = SNAPSHOT_VERSION ∧
    W.deserialize (payload bytes) = some env := by
  unfold openFrame at h
  dsimp only at h
  split_ifs at h with hlen hmagic hversion hcrc
  set trailer := bytes.drop (bytes.length - CRC_LEN) with htrailer
  have htlen : trailer.length = CRC_LEN := by
    rw [htrailer, List.length_drop]
    unfold MIN_ENVELOPE_LEN at hlen
    omega
  have hword : leBytes CRC_LEN (crc (payload bytes)).toNat = trailer := by
    rw [payload, not_not.mp hcrc, ← htlen, UInt32.toNat_ofNat']
    have hlt := ofLeBytes_lt trailer
    rw [htlen] at hlt
    rw [Nat.mod_eq_of_lt (show ofLeBytes trailer < 2 ^ 32 from hlt), leBytes_ofLeBytes]
  refine ⟨?_, not_not.mp hmagic, not_not.mp hversion, ?_⟩
  · rw [hword, payload, htrailer, List.take_append_drop]
  · cases hd : W.deserialize (bytes.take (bytes.length - CRC_LEN)) with
    | none => simp [hd] at h
    | some env' =>
        simp only [hd, Except.ok.injEq] at h
        exact hd.trans (congrArg some h)

theorem Wincode.Strict.header (hS : W.Strict) (hW : W.Lawful) {bytes : List UInt8}
    {env : Envelope}
    (h : (openFrame W crc bytes : Except (SnapshotError π) Envelope) = .ok env) :
    env.magic = SNAPSHOT_MAGIC ∧ env.version = SNAPSHOT_VERSION := by
  obtain ⟨hbytes, hmagic, hversion, hdes⟩ := openFrame_ok h
  obtain ⟨rest, hrest⟩ := hW.layout (hS.serialize hW hdes)
  have hlen := hS.magic hdes
  rw [hrest, List.append_assoc, List.append_assoc] at hbytes
  rw [hbytes, List.take_left' hlen] at hmagic
  rw [hbytes, List.drop_left' hlen, List.take_left' (length_leBytes 2 _),
    ofLeBytes_leBytes_of_lt (hS.version hdes)] at hversion
  exact ⟨hmagic, hversion⟩

/-- The envelope that the decoded engine encodes to is the one that was read, up to the
cursor. -/
theorem Decoded.envelopeOf (hP : ∀ b s, P.decodeState b = .ok s → P.encodeState s = b)
    {config : EngineConfig} {env : Envelope} {e : Engine σ} (h : Decoded P config env e)
    (hc : (checkEnvelope P config env : Except (SnapshotError π) Unit) = .ok ())
    (hmagic : env.magic = SNAPSHOT_MAGIC) (hversion : env.version = SNAPSHOT_VERSION) :
    envelopeOf P e.fold e.cursor e.observed =
      { env with
        cursorSet := (cursorFields env.cursor).1
        cursorBlock := (cursorFields env.cursor).2.1
        cursorLogIndex := (cursorFields env.cursor).2.2 } := by
  obtain ⟨htag, -⟩ := checkEnvelope_ok hc
  have hlanes : ringLanes e.observed = (env.ringNumbers, env.ringHashes) := h.lanes
  rw [Chainfold.envelopeOf, hlanes, h.cursor, hP _ _ h.fold, ← htag, ← hmagic, ← hversion]

/-- The encoding of a decoded engine. -/
theorem decoded_encode {e : Engine σ} (hactive : e.status = .active) {bytes : List UInt8} :
    e.encodeSnapshot P W crc [] = (bytes, .ok ()) ↔
      ∃ written, W.serialize (envelopeOf P e.fold e.cursor e.observed) = some written ∧
        bytes = written ++ leBytes CRC_LEN (crc written).toNat := by
  unfold Engine.encodeSnapshot encodeEnvelope writeEnvelope
  simp only [hactive]
  cases W.serialize (envelopeOf P e.fold e.cursor e.observed) with
  | none => simp
  | some written =>
      simp only [List.nil_append, Prod.mk.injEq, and_true, Option.some.injEq, exists_eq_left']
      exact eq_comm

/-- Re-encoding gives back the bytes exactly when their cursor is canonical. -/
theorem encode_decoded_iff (hW : W.Lawful) (hS : W.Strict)
    (hP : ∀ b s, P.decodeState b = .ok s → P.encodeState s = b) {config : EngineConfig}
    {bytes : List UInt8} {e : Engine σ}
    (h : Engine.decodeSnapshot P W crc bytes config = .ok e) :
    e.encodeSnapshot P W crc [] = (bytes, .ok ()) ↔ CursorCanonical W bytes := by
  obtain ⟨env, hf, hc, hd⟩ := decodeSnapshot_cases h
  obtain ⟨hbytes, -, -, hdes⟩ := openFrame_ok hf
  obtain ⟨hmagic, hversion⟩ := hS.header hW hf
  have henv := hd.envelopeOf hP hc hmagic hversion
  rw [decoded_encode hd.status, henv]
  constructor
  · rintro ⟨written, hser, heq⟩
    have hsame : payload bytes = written := by
      rw [heq, payload, List.length_append, length_leBytes, Nat.add_sub_cancel, List.take_left]
    have hback := hW.round_trip hser
    rw [← hsame, hdes, Option.some.injEq] at hback
    refine ⟨env, hdes, env.cursorCanonical_iff.mpr ?_⟩
    exact Prod.ext (congrArg Envelope.cursorSet hback).symm
      (Prod.ext (congrArg Envelope.cursorBlock hback).symm
        (congrArg Envelope.cursorLogIndex hback).symm)
  · rintro ⟨env', hdes', hcan⟩
    rw [hdes, Option.some.injEq] at hdes'
    subst hdes'
    rw [env.cursorCanonical_iff.mp hcan]
    exact ⟨payload bytes, hS.serialize hW hdes, hbytes⟩

/-- **Which snapshots are canonical.**  Of the byte strings that decode, exactly those with a
canonical cursor are what the decoded engine encodes to, and no two of them denote the same
engine. -/
theorem canonical_snapshots (hW : W.Lawful) (hS : W.Strict)
    (hP : ∀ b s, P.decodeState b = .ok s → P.encodeState s = b) {config : EngineConfig}
    {bytes : List UInt8} {e : Engine σ}
    (h : Engine.decodeSnapshot P W crc bytes config = .ok e) :
    (e.encodeSnapshot P W crc [] = (bytes, .ok ()) ↔ CursorCanonical W bytes) ∧
      ∀ bytes', Engine.decodeSnapshot P W crc bytes' config = .ok e →
        CursorCanonical W bytes → CursorCanonical W bytes' → bytes = bytes' := by
  refine ⟨encode_decoded_iff hW hS hP h, ?_⟩
  intro bytes' h' hcan hcan'
  have henc := (encode_decoded_iff hW hS hP h).mpr hcan
  rw [(encode_decoded_iff hW hS hP h').mpr hcan'] at henc
  exact (Prod.ext_iff.mp henc).1.symm

/-- Decoding does not tell one flag byte from another. -/
theorem decodeSnapshot_congr {config : EngineConfig} {bytes bytes' : List UInt8}
    {env env' : Envelope}
    (hf : (openFrame W crc bytes : Except (SnapshotError π) Envelope) = .ok env)
    (hf' : (openFrame W crc bytes' : Except (SnapshotError π) Envelope) = .ok env')
    (hcursor : env.cursor = env'.cursor) (htag : env.tag = env'.tag)
    (hnumbers : env.ringNumbers = env'.ringNumbers) (hhashes : env.ringHashes = env'.ringHashes)
    (hstate : env.state = env'.state) :
    Engine.decodeSnapshot P W crc bytes config = Engine.decodeSnapshot P W crc bytes' config := by
  unfold Engine.decodeSnapshot checkEnvelope
  simp only [hf, hf', bind, Except.bind, hcursor, htag, hnumbers, hhashes, hstate]

/-! ### A snapshot that is not canonical -/

/-- The fixed-width codec that refuses what it would write otherwise. -/
def exactFixint : Wincode where
  serialize := fixint.serialize
  deserialize bytes := (fixint.deserialize bytes).filter (fixint.serialize · == some bytes)

theorem exactFixint_some {bytes : List UInt8} {env : Envelope}
    (h : exactFixint.deserialize bytes = some env) : exactFixint.serialize env = some bytes := by
  simp only [exactFixint, Option.filter_eq_some_iff, beq_iff_eq] at h
  exact h.2

theorem encodable_of_serialize {bytes : List UInt8} {env : Envelope}
    (h : fixint.serialize env = some bytes) : env.Encodable := by
  simp only [fixint, Option.ite_none_right_eq_some] at h
  exact h.1

theorem exactFixint_lawful : exactFixint.Lawful where
  round_trip := by
    intro env bytes h
    simp only [exactFixint, Option.filter_eq_some_iff, beq_iff_eq]
    exact ⟨fixint_lawful.round_trip h, h⟩
  layout := fixint_lawful.layout

theorem exactFixint_strict : exactFixint.Strict where
  injective := by
    intro env bytes bytes' h h'
    have heq := (exactFixint_some h).symm.trans (exactFixint_some h')
    exact Option.some.inj heq
  fits := fun h => Option.isSome_iff_exists.mpr ⟨_, exactFixint_some h⟩
  magic := fun h => (encodable_of_serialize (exactFixint_some h)).magic
  version := fun h => (encodable_of_serialize (exactFixint_some h)).version

/-- `Persist` of a state that is its own bytes. -/
def bytesPersist : Persist (List UInt8) Unit where
  stateTag := [98]
  encodeState := id
  decodeState := .ok

theorem bytesPersist_canonical (b s : List UInt8) (h : bytesPersist.decodeState b = .ok s) :
    bytesPersist.encodeState s = b := (Except.ok.inj h).symm

/-- An envelope at block 3 with the flag byte `flag`. -/
def flaggedEnvelope (flag : ℕ) : Envelope where
  magic := SNAPSHOT_MAGIC
  version := SNAPSHOT_VERSION
  tag := bytesPersist.stateTag
  cursorSet := flag
  cursorBlock := 3
  cursorLogIndex := 1
  ringNumbers := [3]
  ringHashes := (sampleBlock 3).hash.toList
  state := [7]

/-- The snapshot around `flaggedEnvelope`. -/
def flaggedSnapshot (flag : ℕ) : List UInt8 :=
  (flaggedEnvelope flag).bytes ++
    leBytes CRC_LEN (crc32c (flaggedEnvelope flag).bytes).toNat

theorem flagged_open (flag : ℕ) (h : (flaggedEnvelope flag).Encodable) :
    (openFrame exactFixint crc32c (flaggedSnapshot flag) : Except (SnapshotError Unit) Envelope) =
      .ok (flaggedEnvelope flag) :=
  openFrame_frame exactFixint_lawful (if_pos h) rfl rfl

theorem flagged_encodable (flag : ℕ) (h : flag < 256) : (flaggedEnvelope flag).Encodable where
  magic := rfl
  version := show 1 < 256 ^ 2 by decide
  cursorSet := h
  cursorBlock := show 3 < 256 ^ 8 by decide
  cursorLogIndex := show 1 < 256 ^ 8 by decide
  words := by
    intro n hn
    rw [List.mem_singleton.mp hn]
    decide
  tagLen := show 1 ≤ 2 ^ 30 by decide
  ringLen := show 8 ≤ 2 ^ 30 by decide
  hashesLen := show 32 ≤ 2 ^ 30 by decide
  stateLen := show 1 ≤ 2 ^ 30 by decide

theorem flagged_decode {flag flag' : ℕ} (h : flag < 256) (h' : flag' < 256) (hset : flag ≠ 0)
    (hset' : flag' ≠ 0) :
    Engine.decodeSnapshot bytesPersist exactFixint crc32c (flaggedSnapshot flag) sampleConfig =
      Engine.decodeSnapshot bytesPersist exactFixint crc32c (flaggedSnapshot flag')
        sampleConfig := by
  have hcursor : (flaggedEnvelope flag).cursor = (flaggedEnvelope flag').cursor :=
    (if_pos hset).trans (if_pos hset').symm
  exact decodeSnapshot_congr (flagged_open _ (flagged_encodable flag h))
    (flagged_open _ (flagged_encodable flag' h')) hcursor rfl rfl rfl rfl

theorem flagged_decodes : ∃ e, Engine.decodeSnapshot bytesPersist exactFixint crc32c
    (flaggedSnapshot 1) sampleConfig = .ok e :=
  decodeSnapshot_ok rfl (flagged_open 1 (flagged_encodable 1 (by decide))) rfl rfl

theorem flagged_canonical {flag : ℕ} (h : flag < 256) :
    CursorCanonical exactFixint (flaggedSnapshot flag) ↔ flag = 1 := by
  have hdes := (openFrame_ok (flagged_open flag (flagged_encodable flag h))).2.2.2
  unfold CursorCanonical Envelope.CursorCanonical
  rw [hdes]
  simp [flaggedEnvelope]

/-- A snapshot with another nonzero flag byte is accepted, denotes the same engine as the
canonical one and is not what that engine encodes to. -/
theorem flag_byte_not_canonical : ∃ e : Engine (List UInt8),
    Engine.decodeSnapshot bytesPersist exactFixint crc32c (flaggedSnapshot 2) sampleConfig =
      .ok e ∧
    Engine.decodeSnapshot bytesPersist exactFixint crc32c (flaggedSnapshot 1) sampleConfig =
      .ok e ∧
    flaggedSnapshot 2 ≠ flaggedSnapshot 1 ∧
    e.encodeSnapshot bytesPersist exactFixint crc32c [] ≠ (flaggedSnapshot 2, .ok ()) := by
  obtain ⟨e, he⟩ := flagged_decodes
  have htwo : Engine.decodeSnapshot bytesPersist exactFixint crc32c (flaggedSnapshot 2)
      sampleConfig = .ok e :=
    (flagged_decode (by decide) (by decide) (by decide) (by decide)).trans he
  have hnot : ¬ CursorCanonical exactFixint (flaggedSnapshot 2) := by
    rw [flagged_canonical (by decide)]
    decide
  refine ⟨e, htwo, he, ?_, ?_⟩
  · intro heq
    rw [heq, flagged_canonical (by decide)] at hnot
    exact hnot rfl
  · rw [Ne, encode_decoded_iff exactFixint_lawful exactFixint_strict bytesPersist_canonical htwo]
    exact hnot

theorem flagged_canonical_snapshot : ∃ e : Engine (List UInt8),
    e.encodeSnapshot bytesPersist exactFixint crc32c [] = (flaggedSnapshot 1, .ok ()) := by
  obtain ⟨e, he⟩ := flagged_decodes
  exact ⟨e, (canonical_snapshots exactFixint_lawful exactFixint_strict bytesPersist_canonical
    he).1.mpr ((flagged_canonical (by decide)).mpr rfl)⟩

end Works.Chainfold
