import Works.Lib.Bytes
import Works.Chainfold.Engine

/-! # Snapshots

The envelope of `snapshot.rs`: magic, version, state tag, cursor, observed ring and state
bytes, written by `wincode` and followed by a CRC32C.  Neither `wincode` nor the checksum is
part of the repository, and the state codec belongs to the fold: they are parameters.
Decoding takes arbitrary bytes and checks everything the engine relies on. -/

namespace Works.Chainfold

open Works.Lib

variable {σ π E ε : Type}

/-- `MAX_ENVELOPE_FIELD_LEN`. -/
def MAX_ENVELOPE_FIELD_LEN : ℕ := 2 ^ 30

/-- `HASH_LEN`. -/
def HASH_LEN : ℕ := 32

/-- `MAGIC_LEN`. -/
def MAGIC_LEN : ℕ := 8

/-- `CRC_LEN`. -/
def CRC_LEN : ℕ := 4

/-- `MIN_ENVELOPE_LEN`: magic, version and trailer. -/
def MIN_ENVELOPE_LEN : ℕ := MAGIC_LEN + 2 + CRC_LEN

/-- `SNAPSHOT_MAGIC`, `CHNFOLD1`. -/
def SNAPSHOT_MAGIC : List UInt8 := [67, 72, 78, 70, 79, 76, 68, 49]

/-- `SNAPSHOT_VERSION`. -/
def SNAPSHOT_VERSION : ℕ := 1

/-- `Persist`: the tag and the codec of the fold's state. -/
structure Persist (σ π : Type) where
  stateTag : List UInt8
  encodeState : σ → List UInt8
  decodeState : List UInt8 → Except π σ

/-- `Envelope`. -/
structure Envelope where
  magic : List UInt8
  version : ℕ
  tag : List UInt8
  cursorSet : ℕ
  cursorBlock : ℕ
  cursorLogIndex : ℕ
  ringNumbers : List ℕ
  ringHashes : List UInt8
  state : List UInt8
deriving DecidableEq

/-- `wincode` at the type `Envelope`, with the length ceiling of the engine. -/
structure Wincode where
  serialize : Envelope → Option (List UInt8)
  deserialize : List UInt8 → Option Envelope

/-- What the engine relies on: the round trip, and fields in order with the fixed-width
little-endian version. -/
structure Wincode.Lawful (W : Wincode) : Prop where
  round_trip : ∀ {env bytes}, W.serialize env = some bytes → W.deserialize bytes = some env
  layout : ∀ {env bytes}, W.serialize env = some bytes →
    ∃ rest, bytes = env.magic ++ leBytes 2 env.version ++ rest

/-- `crc32c`. -/
abbrev Crc := List UInt8 → UInt32

/-- `SnapshotError`. -/
inductive SnapshotError (π : Type) where
  | tooShort
  | badMagic
  | badVersion (got : ℕ)
  | badTag
  | crc (expected got : UInt32)
  | envelope
  | tooLarge (limit : ℕ)
  | poisoned (at_ : Position)
  | ringExceedsCapacity (len capacity : ℕ)
  | ringNotAscending
  | ringHashLenMismatch
  | ringCursorMismatch
  | config (error : ConfigError)
  | state (error : π)

/-! ### Encoding -/

variable (P : Persist σ π) (W : Wincode) (crc : Crc)

/-- `write_envelope`: the bytes in `out` and the result. -/
def writeEnvelope (env : Envelope) (out : List UInt8) :
    List UInt8 × Except (SnapshotError π) Unit :=
  match W.serialize env with
  | none => (out, .error (.tooLarge MAX_ENVELOPE_FIELD_LEN))
  | some bytes => (out ++ bytes ++ leBytes CRC_LEN (crc bytes).toNat, .ok ())

/-- `ring_lanes`. -/
def ringLanes (blocks : List BlockRef) : List ℕ × List UInt8 :=
  (blocks.map (·.number), blocks.flatMap fun b => b.hash.toList)

/-- `cursor_fields`. -/
def cursorFields : Cursor → ℕ × ℕ × ℕ
  | some pos => (1, pos.block, pos.logIndex)
  | none => (0, 0, 0)

/-- The envelope `encode_envelope` builds. -/
def envelopeOf (fold : σ) (cursor : Cursor) (blocks : List BlockRef) : Envelope where
  magic := SNAPSHOT_MAGIC
  version := SNAPSHOT_VERSION
  tag := P.stateTag
  cursorSet := (cursorFields cursor).1
  cursorBlock := (cursorFields cursor).2.1
  cursorLogIndex := (cursorFields cursor).2.2
  ringNumbers := (ringLanes blocks).1
  ringHashes := (ringLanes blocks).2
  state := P.encodeState fold

/-- `encode_envelope`. -/
def encodeEnvelope (fold : σ) (cursor : Cursor) (blocks : List BlockRef) (out : List UInt8) :
    List UInt8 × Except (SnapshotError π) Unit :=
  writeEnvelope W crc (envelopeOf P fold cursor blocks) out

namespace Engine

/-- `Engine::encode_snapshot`. -/
def encodeSnapshot (e : Engine σ) (out : List UInt8) :
    List UInt8 × Except (SnapshotError π) Unit :=
  match e.status with
  | .poisoned at_ => (out, .error (.poisoned at_))
  | _ => encodeEnvelope P W crc e.fold e.cursor e.observed out

/-- `Engine::encode_durable_snapshot`. -/
def encodeDurableSnapshot (e : Engine σ) (out : List UInt8) :
    List UInt8 × Except (SnapshotError π) Cursor :=
  match e.checkpoints.oldest e.ring with
  | none => (out, .ok none)
  | some slot => match slot.cursor with
      | none => (out, .ok none)
      | some point =>
          match encodeEnvelope P W crc slot.fold slot.cursor (e.ring.iterAtOrBelow point.block)
            out with
          | (out, .error error) => (out, .error error)
          | (out, .ok ()) => (out, .ok (some point))

end Engine

/-! ### Decoding -/

/-- `<[u8; 32]>::try_from`. -/
def toHash (bytes : List UInt8) : Option Hash :=
  if h : bytes.length = 32 then some ⟨bytes.toArray, h⟩ else none

/-- The loop of `decode_snapshot` that refills the ring: the numbers zipped with the chunks of
32 bytes. -/
def refillRing : List ℕ → List UInt8 → BlockRing → Except (SnapshotError π) BlockRing
  | [], _, ring => .ok ring
  | number :: numbers, hashes, ring =>
      if hashes.length < HASH_LEN then .ok ring
      else match toHash (hashes.take HASH_LEN) with
        | none => .error .ringHashLenMismatch
        | some hash => refillRing numbers (hashes.drop HASH_LEN) (ring.push ⟨number, hash⟩)

/-- The cursor in an envelope. -/
def Envelope.cursor (env : Envelope) : Cursor :=
  if env.cursorSet ≠ 0 then some ⟨env.cursorBlock, env.cursorLogIndex⟩ else none

/-- The checks of `decode_snapshot` on the frame: the envelope in it. -/
def openFrame (bytes : List UInt8) : Except (SnapshotError π) Envelope :=
  if bytes.length < MIN_ENVELOPE_LEN then .error .tooShort
  else if bytes.take MAGIC_LEN ≠ SNAPSHOT_MAGIC then .error .badMagic
  else
    let version := ofLeBytes ((bytes.drop MAGIC_LEN).take 2)
    if version ≠ SNAPSHOT_VERSION then .error (.badVersion version)
    else
      let payload := bytes.take (bytes.length - CRC_LEN)
      let trailer := bytes.drop (bytes.length - CRC_LEN)
      let expected := UInt32.ofNat (ofLeBytes trailer)
      if crc payload ≠ expected then .error (.crc expected (crc payload))
      else match W.deserialize payload with
        | none => .error .envelope
        | some env => .ok env

/-- The checks of `decode_snapshot` on the ring and the cursor of an envelope. -/
def checkEnvelope (config : EngineConfig) (env : Envelope) : Except (SnapshotError π) Unit :=
  if env.tag ≠ P.stateTag then .error .badTag
  else if config.ringCapacity < env.ringNumbers.length then
    .error (.ringExceedsCapacity env.ringNumbers.length config.ringCapacity)
  else if (firstDescent env.ringNumbers).isSome then .error .ringNotAscending
  else if env.ringHashes.length ≠ env.ringNumbers.length * HASH_LEN then
    .error .ringHashLenMismatch
  else if env.ringNumbers.getLast? ≠ Cursor.block env.cursor then .error .ringCursorMismatch
  else .ok ()

namespace Engine

/-- `Engine::decode_snapshot`. -/
def decodeSnapshot (bytes : List UInt8) (config : EngineConfig) :
    Except (SnapshotError π) (Engine σ) :=
  match h : config.validate with
  | .error error => .error (.config error)
  | .ok _ => do
      let env ← openFrame W crc bytes
      checkEnvelope P config env
      let fold ← (P.decodeState env.state).mapError .state
      let ring ← refillRing env.ringNumbers env.ringHashes
        (BlockRing.withCapacity config.ringCapacity (EngineConfig.isPowerOfTwo_of_validate h))
      let engine ← (Engine.new fold config).mapError .config
      pure { engine with cursor := env.cursor, ring := ring }

end Engine

end Works.Chainfold
