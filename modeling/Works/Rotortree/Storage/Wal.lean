import Works.Rotortree.Storage.Frame

/-! # The write-ahead log

The header and the entries of the log (`storage/wal.rs`), and the two metadata files of a
checkpoint (`storage/checkpoint.rs`), all of them frames.  `Wire` collects what `wincode` and
`crc_fast` provide, `Wire.Lawful` what the code relies on: values of the types the code
serialises read back, and everything but a batch fits into a frame.

`framesFrom W s ps` are the bytes of consecutive entries; reading them back is reading one
entry after the other, up to a torn end. -/

namespace Works.Rotortree

open Works.Lib

variable {Hash : Type}

/-- One more than `u32::MAX`. -/
def U32_SIZE : ℕ := 2 ^ 32

/-- `FILE_MAGIC`. -/
def FILE_MAGIC : List UInt8 := [0x52, 0x4F, 0x54, 0x52]

/-- `HEADER_MAGIC`, `*b"RTRD"`. -/
def HEADER_MAGIC : List UInt8 := [0x52, 0x54, 0x52, 0x44]

/-- `META_MAGIC`, `*b"RTMD"`. -/
def META_MAGIC : List UInt8 := [0x52, 0x54, 0x4D, 0x44]

/-- `WalHeader::V1`. -/
structure WalHeader where
  magic : List UInt8
  n : ℕ
  maxDepth : ℕ
deriving DecidableEq, Repr

/-- `WalPayload`. -/
inductive WalPayload (Hash : Type) where
  | single (leaf : Hash)
  | batch (leaves : List Hash)
deriving DecidableEq, Repr

/-- `WalEntryV1`. -/
structure WalEntry (Hash : Type) where
  seq : ℕ
  payload : WalPayload Hash
deriving DecidableEq, Repr

/-- `HeaderFrame::V1`: the contents of `header.bin`. -/
structure HeaderFrame where
  magic : List UInt8
  n : ℕ
  maxDepth : ℕ
  chunkSize : ℕ
deriving DecidableEq, Repr

/-- `MetaFrame::V1`: the contents of `checkpoint.meta`. -/
structure MetaFrame (Hash : Type) where
  magic : List UInt8
  n : ℕ
  maxDepth : ℕ
  lastWalSeq : ℕ
  leafCount : ℕ
  depth : ℕ
  rootHash : Hash
deriving DecidableEq, Repr

/-- The leaves an entry brings. -/
def WalPayload.leaves : WalPayload Hash → List Hash
  | single leaf => [leaf]
  | batch leaves => leaves

/-- The encodings and the checksum. -/
structure Wire (Hash : Type) where
  crc : Crc
  walHeader : Codec WalHeader
  walEntry : Codec (WalEntry Hash)
  headerFrame : Codec HeaderFrame
  metaFrame : Codec (MetaFrame Hash)

/-- The fields of a log header are in the range of their types. -/
def WalHeader.InRange (h : WalHeader) : Prop :=
  h.magic.length = 4 ∧ h.n < U32_SIZE ∧ h.maxDepth < U32_SIZE

/-- The fields of `header.bin` are in the range of their types. -/
def HeaderFrame.InRange (h : HeaderFrame) : Prop :=
  h.magic.length = 4 ∧ h.n < U32_SIZE ∧ h.maxDepth < U32_SIZE ∧ h.chunkSize < U32_SIZE

/-- The fields of `checkpoint.meta` are in the range of their types. -/
def MetaFrame.InRange (m : MetaFrame Hash) : Prop :=
  m.magic.length = 4 ∧ m.n < U32_SIZE ∧ m.maxDepth < U32_SIZE ∧ m.lastWalSeq < U64_SIZE ∧
    m.leafCount < U64_SIZE ∧ m.depth < U32_SIZE

/-- What the code relies on. -/
structure Wire.Lawful (W : Wire Hash) : Prop where
  walHeader : ∀ h : WalHeader, h.InRange →
    W.walHeader.deserialize (W.walHeader.serialize h) = some h ∧
    (W.walHeader.serialize h).length ≤ MAX_FRAME_PAYLOAD
  walEntry : ∀ e : WalEntry Hash, e.seq < U64_SIZE →
    W.walEntry.deserialize (W.walEntry.serialize e) = some e
  single : ∀ seq leaf, (W.walEntry.serialize ⟨seq, .single leaf⟩).length ≤ MAX_FRAME_PAYLOAD
  headerFrame : ∀ h : HeaderFrame, h.InRange →
    W.headerFrame.deserialize (W.headerFrame.serialize h) = some h ∧
    (W.headerFrame.serialize h).length ≤ MAX_FRAME_PAYLOAD
  metaFrame : ∀ m : MetaFrame Hash, m.InRange →
    W.metaFrame.deserialize (W.metaFrame.serialize m) = some m ∧
    (W.metaFrame.serialize m).length ≤ MAX_FRAME_PAYLOAD

variable (W : Wire Hash)

/-! ### The source's functions -/

/-- `wal::serialize_header`, for `N as u32` and `MAX_DEPTH as u32`. -/
def serializeHeader (N MAX_DEPTH : ℕ) : Outcome StorageError (List UInt8) :=
  serializeFrame W.crc W.walHeader ⟨FILE_MAGIC, N % U32_SIZE, MAX_DEPTH % U32_SIZE⟩

/-- `wal::deserialize_header`: `(n, max_depth, frame size)`. -/
def deserializeHeader (data : List UInt8) : Outcome StorageError (ℕ × ℕ × ℕ) := do
  match ← readFrame W.crc data 0 with
  | none => .fail (.walCorrupted 0)
  | some (payload, frameSize) =>
      match W.walHeader.deserialize payload with
      | none => .fail (.walCorrupted 0)
      | some header =>
          if header.magic ≠ FILE_MAGIC then .fail (.walCorrupted 0)
          else pure (header.n, header.maxDepth, frameSize)

/-- `wal::serialize_entry`. -/
def serializeEntry (buf : List UInt8) (seq : ℕ) (payload : WalPayload Hash) :
    Outcome StorageError (List UInt8) :=
  writeFrame W.crc W.walEntry buf ⟨seq, payload⟩

/-- `wal::deserialize_entry`: an entry that does not continue the sequence ends the log. -/
def deserializeEntry (data : List UInt8) (offset : ℕ) (lastSeq : Option ℕ) :
    Outcome StorageError (Option (WalEntry Hash × ℕ)) := do
  match ← readFrame W.crc data offset with
  | none => pure none
  | some (payload, frameSize) =>
      match W.walEntry.deserialize payload with
      | none => .fail (.walCorrupted offset)
      | some entry =>
          match lastSeq with
          | none => pure (some (entry, frameSize))
          | some last =>
              if U64_SIZE ≤ last + 1 then .fail .mathError
              else if entry.seq ≠ last + 1 then pure none
              else pure (some (entry, frameSize))

/-- `write_header`: the new contents of `header.bin`. -/
def writeHeader (N MAX_DEPTH : ℕ) : Outcome StorageError (List UInt8) :=
  serializeFrame W.crc W.headerFrame
    ⟨HEADER_MAGIC, N % U32_SIZE, MAX_DEPTH % U32_SIZE, CHUNK_SIZE % U32_SIZE⟩

/-- `read_header`. -/
def readHeader (file : Option (List UInt8)) : Outcome StorageError (Option HeaderFrame) := do
  match ← readFrameFile W.crc W.headerFrame file with
  | none => pure none
  | some h => if h.magic ≠ HEADER_MAGIC then pure none else pure (some h)

/-- `write_meta`: the new contents of `checkpoint.meta`. -/
def writeMeta (N MAX_DEPTH lastWalSeq leafCount depth : ℕ) (rootHash : Hash) :
    Outcome StorageError (List UInt8) :=
  serializeFrame W.crc W.metaFrame
    ⟨META_MAGIC, N % U32_SIZE, MAX_DEPTH % U32_SIZE, lastWalSeq, leafCount, depth % U32_SIZE,
      rootHash⟩

/-- `read_meta`. -/
def readMeta (file : Option (List UInt8)) : Outcome StorageError (Option (MetaFrame Hash)) := do
  match ← readFrameFile W.crc W.metaFrame file with
  | none => pure none
  | some m => if m.magic ≠ META_MAGIC then pure none else pure (some m)

/-! ### The bytes of a log -/

/-- The bytes of the header. -/
def headerBytes (N MAX_DEPTH : ℕ) : List UInt8 :=
  frameOf W.crc (W.walHeader.serialize ⟨FILE_MAGIC, N % U32_SIZE, MAX_DEPTH % U32_SIZE⟩)

/-- The bytes of one entry. -/
def entryBytes (seq : ℕ) (payload : WalPayload Hash) : List UInt8 :=
  frameOf W.crc (W.walEntry.serialize ⟨seq, payload⟩)

/-- The bytes of consecutive entries, the first of them with sequence number `seq`. -/
def framesFrom : ℕ → List (WalPayload Hash) → List UInt8
  | _, [] => []
  | seq, p :: ps => entryBytes W seq p ++ framesFrom (seq + 1) ps

/-- An entry fits into a frame. -/
def WalPayload.Fits (seq : ℕ) (p : WalPayload Hash) : Prop :=
  (W.walEntry.serialize ⟨seq, p⟩).length ≤ MAX_FRAME_PAYLOAD

instance (seq : ℕ) (p : WalPayload Hash) : Decidable (p.Fits W seq) :=
  inferInstanceAs (Decidable (_ ≤ _))

/-- Consecutive entries fit into frames. -/
def AllFit : ℕ → List (WalPayload Hash) → Prop
  | _, [] => True
  | seq, p :: ps => p.Fits W seq ∧ AllFit (seq + 1) ps

section Spec

variable {W}

theorem allFit_append {seq : ℕ} {ps qs : List (WalPayload Hash)} :
    AllFit W seq (ps ++ qs) ↔ AllFit W seq ps ∧ AllFit W (seq + ps.length) qs := by
  induction ps generalizing seq with
  | nil => simp [AllFit]
  | cons p ps ih =>
      rw [List.cons_append, AllFit, AllFit, ih, and_assoc, List.length_cons,
        Nat.add_right_comm, Nat.add_assoc]

theorem framesFrom_append (seq : ℕ) (ps qs : List (WalPayload Hash)) :
    framesFrom W seq (ps ++ qs) = framesFrom W seq ps ++ framesFrom W (seq + ps.length) qs := by
  induction ps generalizing seq with
  | nil => rfl
  | cons p ps ih =>
      rw [List.cons_append, framesFrom, framesFrom, ih, List.append_assoc, List.length_cons]
      congr 3
      omega

theorem length_entryBytes_pos (seq : ℕ) (p : WalPayload Hash) : 8 ≤ (entryBytes W seq p).length := by
  rw [entryBytes, length_frameOf]
  omega

theorem serializeHeader_eq (hW : W.Lawful) (N MAX_DEPTH : ℕ) :
    serializeHeader W N MAX_DEPTH = .ok (headerBytes W N MAX_DEPTH) := by
  have hin : (⟨FILE_MAGIC, N % U32_SIZE, MAX_DEPTH % U32_SIZE⟩ : WalHeader).InRange :=
    ⟨rfl, Nat.mod_lt _ (by decide), Nat.mod_lt _ (by decide)⟩
  rw [serializeHeader, serializeFrame, writeFrame_eq (hW.walHeader _ hin).2]
  rfl

theorem deserializeEntry_torn {u : List UInt8} (hu : Torn W.crc u) (pre : List UInt8)
    (lastSeq : Option ℕ) : deserializeEntry W (pre ++ u) pre.length lastSeq = .ok none := by
  unfold deserializeEntry
  rw [readFrame_torn hu pre]
  rfl

end Spec

end Works.Rotortree
