import Works.Chainfold.Snapshot

/-! # Manifest slots

`manifest.rs`: a slot of 64 bytes names a version, a cursor and a snapshot, with zeros up to a
CRC32C of the rest.  The manifest holds two slots, a page apart. -/

namespace Works.Chainfold

open Works.Lib

/-- `CRC_COVERED_LEN`. -/
def CRC_COVERED_LEN : ℕ := 60

/-- `SLOT_SIZE`. -/
def SLOT_SIZE : ℕ := CRC_COVERED_LEN + CRC_LEN

/-- `SLOT_STRIDE`. -/
def SLOT_STRIDE : ℕ := 4096

/-- `MANIFEST_SIZE`. -/
def MANIFEST_SIZE : ℕ := SLOT_STRIDE + SLOT_SIZE

/-- `MANIFEST_FILE`. -/
def MANIFEST_FILE : String := "manifest"

/-- `SlotRecord`. -/
structure SlotRecord where
  version : ℕ
  cursor : Cursor
  snapshotId : ℕ
deriving DecidableEq, Repr

/-- The fields of a slot without the checksum. -/
def slotFields (record : SlotRecord) : List UInt8 :=
  leBytes 8 record.version ++ [if record.cursor.isSome then 1 else 0] ++
    leBytes 8 (record.cursor.elim 0 (·.block)) ++ leBytes 8 (record.cursor.elim 0 (·.logIndex)) ++
    leBytes 8 record.snapshotId

/-- The bytes of a slot that the checksum covers. -/
def slotCovered (record : SlotRecord) : List UInt8 :=
  slotFields record ++ List.replicate (CRC_COVERED_LEN - (slotFields record).length) 0

/-- `encode_slot`. -/
def encodeSlot (crc : Crc) (record : SlotRecord) : List UInt8 :=
  slotCovered record ++ leBytes CRC_LEN (crc (slotCovered record)).toNat

/-- `get_u64`. -/
def getU64 (bytes : List UInt8) (offset : ℕ) : ℕ := ofLeBytes ((bytes.drop offset).take 8)

/-- `decode_slot`. -/
def decodeSlot (crc : Crc) (bytes : List UInt8) : Option SlotRecord :=
  if bytes.length ≠ SLOT_SIZE then none
  else if crc (bytes.take CRC_COVERED_LEN) ≠
      UInt32.ofNat (ofLeBytes ((bytes.drop CRC_COVERED_LEN).take CRC_LEN)) then none
  else match (bytes[8]? : Option UInt8) with
    | some 0 => some ⟨getU64 bytes 0, none, getU64 bytes 25⟩
    | some 1 => some ⟨getU64 bytes 0, some ⟨getU64 bytes 9, getU64 bytes 17⟩, getU64 bytes 25⟩
    | _ => none

/-- The record's numbers are 64-bit words. -/
structure SlotRecord.Fits (record : SlotRecord) : Prop where
  version : record.version ≤ U64_MAX
  snapshotId : record.snapshotId ≤ U64_MAX
  cursor : ∀ p, record.cursor = some p → p.block ≤ U64_MAX ∧ p.logIndex ≤ U64_MAX

theorem length_slotFields (record : SlotRecord) : (slotFields record).length = 33 := by
  simp [slotFields]

theorem length_slotCovered (record : SlotRecord) :
    (slotCovered record).length = CRC_COVERED_LEN := by
  rw [slotCovered, List.length_append, List.length_replicate, length_slotFields]
  rfl

@[simp] theorem length_encodeSlot (crc : Crc) (record : SlotRecord) :
    (encodeSlot crc record).length = SLOT_SIZE := by
  rw [encodeSlot, List.length_append, length_slotCovered, length_leBytes]
  rfl

/-- A field of a slot reads back. -/
theorem getU64_eq {a b : List UInt8} {n : ℕ} (h : n ≤ U64_MAX) :
    getU64 (a ++ leBytes 8 n ++ b) a.length = n := by
  rw [getU64, List.append_assoc, List.drop_left, List.take_append_of_le_length (by simp),
    List.take_of_length_le (by simp), ofLeBytes_leBytes_of_lt]
  unfold U64_MAX at h
  omega

/-- **A slot round trips.** -/
theorem decodeSlot_encodeSlot (crc : Crc) {record : SlotRecord} (h : record.Fits) :
    decodeSlot crc (encodeSlot crc record) = some record := by
  have hcovered : (encodeSlot crc record).take CRC_COVERED_LEN = slotCovered record := by
    rw [encodeSlot, List.take_append_of_le_length (length_slotCovered record).ge,
      List.take_of_length_le (length_slotCovered record).le]
  have hcrc : (encodeSlot crc record).drop CRC_COVERED_LEN =
      leBytes CRC_LEN (crc (slotCovered record)).toNat := by
    rw [encodeSlot, ← length_slotCovered record, List.drop_left]
  have hsplit : encodeSlot crc record = slotFields record ++
      (List.replicate (CRC_COVERED_LEN - (slotFields record).length) 0 ++
        leBytes CRC_LEN (crc (slotCovered record)).toNat) := by
    rw [encodeSlot, slotCovered, List.append_assoc]
  have hword : ofLeBytes (leBytes CRC_LEN (crc (slotCovered record)).toNat) =
      (crc (slotCovered record)).toNat :=
    ofLeBytes_leBytes_of_lt (crc (slotCovered record)).toNat_lt
  unfold decodeSlot
  rw [if_neg (not_not.mpr (length_encodeSlot crc record)), hcovered, hcrc,
    List.take_of_length_le (by simp), hword, UInt32.ofNat_toNat, if_neg (not_not.mpr rfl), hsplit]
  generalize List.replicate (CRC_COVERED_LEN - (slotFields record).length) 0 ++
    leBytes CRC_LEN (crc (slotCovered record)).toNat = rest
  obtain ⟨version, cursor, snapshotId⟩ := record
  have hversion : getU64 (slotFields ⟨version, cursor, snapshotId⟩ ++ rest) 0 = version := by
    have := @getU64_eq [] ([if cursor.isSome then 1 else 0] ++
      leBytes 8 (cursor.elim 0 (·.block)) ++ leBytes 8 (cursor.elim 0 (·.logIndex)) ++
      leBytes 8 snapshotId ++ rest) version h.version
    simpa [slotFields, List.append_assoc] using this
  have hid : getU64 (slotFields ⟨version, cursor, snapshotId⟩ ++ rest) 25 = snapshotId := by
    have := @getU64_eq (leBytes 8 version ++ [if cursor.isSome then 1 else 0] ++
      leBytes 8 (cursor.elim 0 (·.block)) ++ leBytes 8 (cursor.elim 0 (·.logIndex))) rest
      snapshotId h.snapshotId
    simpa [slotFields, List.append_assoc] using this
  cases cursor with
  | none =>
      have hflag : (slotFields ⟨version, none, snapshotId⟩ ++ rest)[8]? = some 0 := by
        simp [slotFields, List.append_assoc]
      rw [hflag, hversion, hid]
      rfl
  | some p =>
      obtain ⟨hblock, hlog⟩ := h.cursor p rfl
      have hflag : (slotFields ⟨version, some p, snapshotId⟩ ++ rest)[8]? = some 1 := by
        simp [slotFields, List.append_assoc]
      have hb : getU64 (slotFields ⟨version, some p, snapshotId⟩ ++ rest) 9 = p.block := by
        have := @getU64_eq (leBytes 8 version ++ [1]) (leBytes 8 p.logIndex ++
          leBytes 8 snapshotId ++ rest) p.block hblock
        simpa [slotFields, List.append_assoc] using this
      have hl : getU64 (slotFields ⟨version, some p, snapshotId⟩ ++ rest) 17 = p.logIndex := by
        have := @getU64_eq (leBytes 8 version ++ [1] ++ leBytes 8 p.block)
          (leBytes 8 snapshotId ++ rest) p.logIndex hlog
        simpa [slotFields, List.append_assoc] using this
      rw [hflag, hversion, hid, hb, hl]
      rfl

end Works.Chainfold
