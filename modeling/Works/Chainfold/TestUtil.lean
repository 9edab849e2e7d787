import Works.Chainfold.Snapshot
import Works.Lib.Crc32

/-! # Fixtures

`RecordingFold` of `test_util.rs`, and concrete instances of what the snapshot code takes from
outside: the fixed-width little-endian codec that `EnvelopeConfig` selects, which is lawful
(`fixint_lawful`). -/

namespace Works.Chainfold

open Works.Lib

/-! ### The recording fold -/

/-- `FailKind`, less the panic. -/
inductive FailKind where
  | skip
  | halt
  | poison
deriving DecidableEq, Repr

/-- `RecordingFold`. -/
structure RecordingFold where
  applied : List (Position × ℕ)
  failAt : Option (Position × FailKind)
deriving DecidableEq, Repr

/-- `RecordingFold::apply`. -/
def recordingFold : Fold RecordingFold ℕ FailKind where
  apply s pos event :=
    match s.failAt with
    | none => ({ s with applied := s.applied ++ [(pos, event)] }, .ok ())
    | some (scripted, kind) =>
        if scripted = pos then match kind with
          | .skip => (s, .error (.skip .skip))
          | .halt => (s, .error (.halt .halt))
          | .poison =>
              ({ s with applied := s.applied ++ [(pos, event)] }, .error (.poison .poison))
        else ({ s with applied := s.applied ++ [(pos, event)] }, .ok ())

/-- The bytes of a recorded call. -/
def entryBytes (entry : Position × ℕ) : List UInt8 :=
  leBytes 8 entry.1.block ++ leBytes 8 entry.1.logIndex ++ leBytes 8 entry.2

/-- The recorded calls in `n` entries of 24 bytes. -/
def getEntries : ℕ → List UInt8 → List (Position × ℕ)
  | 0, _ => []
  | n + 1, bytes =>
      (⟨ofLeBytes (bytes.take 8), ofLeBytes ((bytes.drop 8).take 8)⟩,
        ofLeBytes ((bytes.drop 16).take 8)) :: getEntries n (bytes.drop 24)

/-- `Persist` of the recording fold; a scripted failure is not saved. -/
def recordingPersist : Persist RecordingFold Unit where
  stateTag := "chainfold.test.recording".toUTF8.data.toList
  encodeState s := leBytes 8 s.applied.length ++ s.applied.flatMap entryBytes
  decodeState bytes :=
    let count := ofLeBytes (bytes.take 8)
    if bytes.length < 8 ∨ (bytes.drop 8).length ≠ count * 24 then .error ()
    else .ok ⟨getEntries count (bytes.drop 8), none⟩

/-- A fold that adds up its events, and keeps everything it is saved with. -/
def sumFold : Fold UInt64 ℕ FailKind where
  apply s _ event := (s + UInt64.ofNat event, .ok ())

/-- `Persist` of the sum. -/
def sumPersist : Persist UInt64 Unit where
  stateTag := [115, 117, 109]
  encodeState s := leBytes 8 s.toNat
  decodeState bytes := .ok (UInt64.ofNat (ofLeBytes bytes))

theorem sumPersist_round_trip (s : UInt64) :
    sumPersist.decodeState (sumPersist.encodeState s) = .ok s := by
  simp only [sumPersist, ofLeBytes_leBytes_of_lt (show s.toNat < 256 ^ 8 from s.toNat_lt),
    UInt64.ofNat_toNat]

/-! ### The codec -/

/-- A field with its length in front. -/
def putField (bytes : List UInt8) : List UInt8 := leBytes 8 bytes.length ++ bytes

/-- The words of a lane. -/
def putWords (words : List ℕ) : List UInt8 := words.flatMap (leBytes 8)

/-- What fits the fixed widths and the length ceiling. -/
structure Envelope.Encodable (env : Envelope) : Prop where
  magic : env.magic.length = MAGIC_LEN
  version : env.version < 256 ^ 2
  cursorSet : env.cursorSet < 256 ^ 1
  cursorBlock : env.cursorBlock < 256 ^ 8
  cursorLogIndex : env.cursorLogIndex < 256 ^ 8
  words : ∀ n ∈ env.ringNumbers, n < 256 ^ 8
  tagLen : env.tag.length ≤ MAX_ENVELOPE_FIELD_LEN
  ringLen : env.ringNumbers.length * 8 ≤ MAX_ENVELOPE_FIELD_LEN
  hashesLen : env.ringHashes.length ≤ MAX_ENVELOPE_FIELD_LEN
  stateLen : env.state.length ≤ MAX_ENVELOPE_FIELD_LEN

instance (env : Envelope) : Decidable env.Encodable :=
  decidable_of_iff (env.magic.length = MAGIC_LEN ∧ env.version < 256 ^ 2 ∧
      env.cursorSet < 256 ^ 1 ∧ env.cursorBlock < 256 ^ 8 ∧ env.cursorLogIndex < 256 ^ 8 ∧
      (∀ n ∈ env.ringNumbers, n < 256 ^ 8) ∧ env.tag.length ≤ MAX_ENVELOPE_FIELD_LEN ∧
      env.ringNumbers.length * 8 ≤ MAX_ENVELOPE_FIELD_LEN ∧
      env.ringHashes.length ≤ MAX_ENVELOPE_FIELD_LEN ∧
      env.state.length ≤ MAX_ENVELOPE_FIELD_LEN)
    ⟨fun ⟨h₁, h₂, h₃, h₄, h₅, h₆, h₇, h₈, h₉, h₁₀⟩ => ⟨h₁, h₂, h₃, h₄, h₅, h₆, h₇, h₈, h₉, h₁₀⟩,
      fun ⟨h₁, h₂, h₃, h₄, h₅, h₆, h₇, h₈, h₉, h₁₀⟩ => ⟨h₁, h₂, h₃, h₄, h₅, h₆, h₇, h₈, h₉, h₁₀⟩⟩

/-- The fields of an envelope in order. -/
def Envelope.bytes (env : Envelope) : List UInt8 :=
  env.magic ++ (leBytes 2 env.version ++ (putField env.tag ++ (leBytes 1 env.cursorSet ++
    (leBytes 8 env.cursorBlock ++ (leBytes 8 env.cursorLogIndex ++
      (leBytes 8 env.ringNumbers.length ++ (putWords env.ringNumbers ++
        (putField env.ringHashes ++ putField env.state))))))))

/-- A field with its length in front and the rest. -/
def getField (bytes : List UInt8) : Option (List UInt8 × List UInt8) :=
  (getWord 8 bytes).bind fun r =>
    if MAX_ENVELOPE_FIELD_LEN < r.1 then none else getBytes r.1 r.2

/-- `n` words and the rest. -/
def getWords : ℕ → List UInt8 → Option (List ℕ × List UInt8)
  | 0, bytes => some ([], bytes)
  | n + 1, bytes => do
      let (word, bytes) ← getWord 8 bytes
      let (words, bytes) ← getWords n bytes
      some (word :: words, bytes)

/-- The fixed-width little-endian codec. -/
def fixint : Wincode where
  serialize env := if env.Encodable then some env.bytes else none
  deserialize bytes := do
    let (magic, bytes) ← getBytes MAGIC_LEN bytes
    let (version, bytes) ← getWord 2 bytes
    let (tag, bytes) ← getField bytes
    let (cursorSet, bytes) ← getWord 1 bytes
    let (cursorBlock, bytes) ← getWord 8 bytes
    let (cursorLogIndex, bytes) ← getWord 8 bytes
    let (ringLen, bytes) ← getWord 8 bytes
    if MAX_ENVELOPE_FIELD_LEN < ringLen * 8 then none
    let (ringNumbers, bytes) ← getWords ringLen bytes
    let (ringHashes, bytes) ← getField bytes
    let (state, _) ← getField bytes
    some ⟨magic, version, tag, cursorSet, cursorBlock, cursorLogIndex, ringNumbers, ringHashes,
      state⟩

section RoundTrip

variable (rest : List UInt8)

theorem getField_append {bytes : List UInt8} (h : bytes.length ≤ MAX_ENVELOPE_FIELD_LEN) :
    getField (putField bytes ++ rest) = some (bytes, rest) := by
  have hlt : bytes.length < 256 ^ 8 := lt_of_le_of_lt h (by decide)
  rw [getField, putField, List.append_assoc, getWord_append _ hlt, Option.bind_some,
    if_neg (not_lt.mpr h), getBytes_append rest rfl]

theorem getWords_append : ∀ {words : List ℕ}, (∀ n ∈ words, n < 256 ^ 8) →
    getWords words.length (putWords words ++ rest) = some (words, rest)
  | [], _ => rfl
  | word :: words, h => by
      have hword := h word List.mem_cons_self
      have ih := getWords_append fun n hn => h n (List.mem_cons_of_mem word hn)
      simp only [putWords] at ih
      simp only [putWords, List.flatMap_cons, List.append_assoc, List.length_cons, getWords,
        getWord_append _ hword, bind, Option.bind_some, ih]

end RoundTrip

theorem fixint_lawful : fixint.Lawful where
  round_trip := by
    intro env bytes h
    simp only [fixint, Option.ite_none_right_eq_some, Option.some.injEq] at h
    obtain ⟨he, rfl⟩ := h
    have hring : env.ringNumbers.length < 256 ^ 8 := by
      have := he.ringLen
      simp only [MAX_ENVELOPE_FIELD_LEN] at this
      omega
    have hstate := getField_append [] he.stateLen
    rw [List.append_nil] at hstate
    simp only [fixint, Envelope.bytes, getBytes_append _ he.magic, getWord_append _ he.version,
      getField_append _ he.tagLen, getWord_append _ he.cursorSet, getWord_append _ he.cursorBlock,
      getWord_append _ he.cursorLogIndex, getWord_append _ hring, bind, Option.bind_some,
      if_neg (not_lt.mpr he.ringLen), getWords_append _ he.words, getField_append _ he.hashesLen,
      hstate]
  layout := by
    intro env bytes h
    simp only [fixint, Option.ite_none_right_eq_some, Option.some.injEq] at h
    obtain ⟨-, rfl⟩ := h
    exact ⟨_, by rw [List.append_assoc]; rfl⟩

/-! ### A small chain -/

/-- A configuration with a ring of four blocks and two checkpoint slots. -/
def sampleConfig : EngineConfig := ⟨4, 2⟩

theorem sampleConfig_ringCapacity : ∃ k, sampleConfig.ringCapacity = 2 ^ k := ⟨2, rfl⟩

/-- The blocks of a small chain. -/
def sampleBlock (n : ℕ) : BlockRef := ⟨n, Vector.replicate 32 (UInt8.ofNat n)⟩

/-- A new engine around an empty recording fold. -/
def sampleEngine : Engine RecordingFold :=
  Engine.fresh ⟨[], none⟩ sampleConfig sampleConfig_ringCapacity

/-- Events in blocks 1 and 3. -/
def sampleBatch : Batch ℕ :=
  (Batch.new.pushBlock (sampleBlock 1) [(0, 10), (2, 11)]).pushBlock (sampleBlock 3) [(1, 12)]

/-- Block 3 again, and an event in block 4. -/
def laterBatch : Batch ℕ :=
  ((Batch.new.withBoundary (some (sampleBlock 3))).pushBlock (sampleBlock 3)
    [(1, 12)]).pushBlock (sampleBlock 4) [(0, 13)]

theorem sampleEngine_new :
    Engine.new (⟨[], none⟩ : RecordingFold) sampleConfig = .ok sampleEngine := rfl

end Works.Chainfold
