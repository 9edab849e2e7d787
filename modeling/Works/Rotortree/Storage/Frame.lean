import Works.Rotortree.Storage.Shards

/-! # Frames

The frames of `storage/frame.rs`: the length of the payload, the payload, and a CRC32C over
both.  `wincode` and `crc_fast` are not part of the repository: a `Codec` is what `wincode`
derives for one type, and the checksum is an arbitrary function of the bytes.

`Torn` describes what an interrupted write may leave at the end of a file: less than a frame,
or a frame whose checksum does not match, and nothing after it.  Reading there finds the end
of the log. -/

namespace Works.Rotortree

open Works.Lib

/-- `MAX_FRAME_PAYLOAD`. -/
def MAX_FRAME_PAYLOAD : ℕ := 128 * 1024 * 1024

/-- `wincode::serialize` and `wincode::deserialize` at one type. -/
structure Codec (α : Type) where
  serialize : α → List UInt8
  deserialize : List UInt8 → Option α

/-- `crc32_iscsi`. -/
abbrev Crc := List UInt8 → UInt32

variable {α : Type} (crc : Crc)

/-! ### Little-endian words -/

/-- `u32::to_le_bytes`. -/
def toLeBytes (n : ℕ) : List UInt8 :=
  [UInt8.ofNat n, UInt8.ofNat (n / 256), UInt8.ofNat (n / 65536), UInt8.ofNat (n / 16777216)]

/-- `u32::from_le_bytes`. -/
def fromLeBytes : List UInt8 → ℕ
  | [] => 0
  | b :: bs => b.toNat + 256 * fromLeBytes bs

@[simp] theorem length_toLeBytes (n : ℕ) : (toLeBytes n).length = 4 := rfl

theorem fromLeBytes_toLeBytes {n : ℕ} (h : n < 4294967296) : fromLeBytes (toLeBytes n) = n := by
  simp only [toLeBytes, fromLeBytes, UInt8.toNat_ofNat']
  omega

/-! ### Writing and reading -/

/-- The bytes of a frame. -/
def frameOf (payload : List UInt8) : List UInt8 :=
  toLeBytes payload.length ++ payload ++
    toLeBytes (crc (toLeBytes payload.length ++ payload)).toNat

/-- `write_frame`: appends a frame to `buf`; panics on a payload that is too large. -/
def writeFrame (codec : Codec α) (buf : List UInt8) (value : α) :
    Outcome StorageError (List UInt8) := do
  let payload := codec.serialize value
  Outcome.require (payload.length ≤ MAX_FRAME_PAYLOAD)
  pure (buf ++ frameOf crc payload)

/-- `serialize_frame`. -/
def serializeFrame (codec : Codec α) (value : α) : Outcome StorageError (List UInt8) :=
  writeFrame crc codec [] value

/-- `read_frame`: the payload of the frame at `offset` and the size of the frame.  Offsets are
positions in a buffer in memory, so that the checked additions of the source do not fail. -/
def readFrame (data : List UInt8) (offset : ℕ) :
    Outcome StorageError (Option (List UInt8 × ℕ)) :=
  let rest := data.drop offset
  let remaining := data.length - offset
  if remaining < 4 then .ok none
  else
    let len := fromLeBytes (rest.take 4)
    if MAX_FRAME_PAYLOAD < len then .ok none
    else
      let frameSize := 4 + len + 4
      if remaining < frameSize then .ok none
      else
        let storedCrc := fromLeBytes ((rest.drop (4 + len)).take 4)
        let computedCrc := (crc (rest.take (4 + len))).toNat
        if storedCrc ≠ computedCrc then
          if data.length ≤ offset + frameSize then .ok none
          else .fail (.crcMismatch offset storedCrc computedCrc)
        else .ok (some ((rest.drop 4).take len, frameSize))

/-- `read_frame_file`, on the contents of the file if it exists. -/
def readFrameFile (codec : Codec α) : Option (List UInt8) → Outcome StorageError (Option α)
  | none => .ok none
  | some data => match readFrame crc data 0 with
      | .ok none => .ok none
      | .ok (some (payload, _)) => match codec.deserialize payload with
          | some v => .ok (some v)
          | none => .fail .serdeFailed
      | .error (.err (.crcMismatch _ _ _)) => .ok none
      | .error e => .error e

/-- The end of a file after an interrupted write. -/
def Torn (u : List UInt8) : Prop :=
  u.length < 4 ∨ MAX_FRAME_PAYLOAD < fromLeBytes (u.take 4) ∨
    u.length < fromLeBytes (u.take 4) + 8 ∨
    (u.length = fromLeBytes (u.take 4) + 8 ∧
      fromLeBytes ((u.drop (4 + fromLeBytes (u.take 4))).take 4) ≠
        (crc (u.take (4 + fromLeBytes (u.take 4)))).toNat)

section Spec

theorem torn_nil : Torn crc [] := Or.inl (by decide)

theorem length_frameOf (payload : List UInt8) :
    (frameOf crc payload).length = payload.length + 8 := by
  simp only [frameOf, List.length_append, length_toLeBytes]
  omega

/-- The parts of a frame, whatever follows it. -/
theorem frameOf_parts {payload : List UInt8} (h : payload.length ≤ MAX_FRAME_PAYLOAD)
    (post : List UInt8) :
    fromLeBytes ((frameOf crc payload ++ post).take 4) = payload.length ∧
    (frameOf crc payload ++ post).take (4 + payload.length) =
      toLeBytes payload.length ++ payload ∧
    ((frameOf crc payload ++ post).drop (4 + payload.length)).take 4 =
      toLeBytes (crc (toLeBytes payload.length ++ payload)).toNat ∧
    ((frameOf crc payload ++ post).drop 4).take payload.length = payload := by
  have hlen : payload.length < 4294967296 := by
    have : MAX_FRAME_PAYLOAD = 134217728 := rfl
    omega
  have h4 : (toLeBytes payload.length ++ payload).length = 4 + payload.length := by simp
  unfold frameOf
  refine ⟨?_, ?_, ?_, ?_⟩
  · rw [List.append_assoc, List.append_assoc, List.take_left' (length_toLeBytes _),
      fromLeBytes_toLeBytes hlen]
  · rw [List.append_assoc, List.take_left' h4]
  · rw [List.append_assoc, List.drop_left' h4, List.take_left' (length_toLeBytes _)]
  · rw [List.append_assoc, List.append_assoc, List.drop_left' (length_toLeBytes _),
      List.take_left' rfl]

/-- A frame reads back, wherever it stands. -/
theorem readFrame_frameOf {payload : List UInt8} (h : payload.length ≤ MAX_FRAME_PAYLOAD)
    (pre post : List UInt8) :
    readFrame crc (pre ++ (frameOf crc payload ++ post)) pre.length =
      .ok (some (payload, (frameOf crc payload).length)) := by
  obtain ⟨h1, h2, h3, h4⟩ := frameOf_parts crc h post
  have hlen := length_frameOf crc payload
  unfold readFrame
  dsimp only
  rw [List.drop_left' rfl, List.length_append, Nat.add_sub_cancel_left, List.length_append, hlen,
    if_neg (by omega), h1, if_neg (by omega), if_neg (by omega), h2, h3, h4,
    fromLeBytes_toLeBytes (UInt32.toNat_lt _), if_neg (by simp)]
  congr 3
  omega

variable {crc}

/-- Reading stops at a torn end. -/
theorem readFrame_torn {u : List UInt8} (h : Torn crc u) (pre : List UInt8) :
    readFrame crc (pre ++ u) pre.length = .ok none := by
  unfold readFrame
  dsimp only
  rw [List.drop_left' rfl, List.length_append, Nat.add_sub_cancel_left]
  split_ifs with h1 h2 h3 h4 h5
  · rfl
  · rfl
  · rfl
  · rfl
  · unfold Torn at h
    omega
  · unfold Torn at h
    rw [not_not] at h4
    omega

/-- A frame is not a torn end. -/
theorem not_torn_frameOf {payload : List UInt8} (h : payload.length ≤ MAX_FRAME_PAYLOAD)
    (post : List UInt8) : ¬ Torn crc (frameOf crc payload ++ post) := by
  intro ht
  have h1 := readFrame_torn ht []
  have h2 := readFrame_frameOf crc h [] post
  rw [List.nil_append] at h1 h2
  rw [h1] at h2
  cases h2

/-- Less than a frame is a torn end. -/
theorem torn_of_shorter {payload u : List UInt8} (h : payload.length ≤ MAX_FRAME_PAYLOAD)
    (hu : u <+: frameOf crc payload) (hne : u.length < (frameOf crc payload).length) :
    Torn crc u := by
  obtain ⟨h1, -⟩ := frameOf_parts crc h []
  rw [List.append_nil] at h1
  rw [length_frameOf] at hne
  rcases Nat.lt_or_ge u.length 4 with h4 | h4
  · exact Or.inl h4
  · obtain ⟨v, hv⟩ := hu
    rw [← hv, List.take_append_of_le_length h4] at h1
    exact Or.inr (Or.inr (Or.inl (by omega)))

/-- Frames that begin the same bytes are frames of the same payload. -/
theorem frameOf_inj {p q s t : List UInt8} (hp : p.length ≤ MAX_FRAME_PAYLOAD)
    (hq : q.length ≤ MAX_FRAME_PAYLOAD) (h : frameOf crc p ++ s = frameOf crc q ++ t) :
    p = q ∧ s = t := by
  have hread := readFrame_frameOf crc hp [] s
  rw [h, readFrame_frameOf crc hq [] t] at hread
  have e : p = q := by
    injection hread with hread
    injection hread with hread
    exact (congrArg Prod.fst hread).symm
  subst e
  exact ⟨rfl, List.append_cancel_left h⟩

theorem writeFrame_eq {codec : Codec α} {value : α}
    (h : (codec.serialize value).length ≤ MAX_FRAME_PAYLOAD) (buf : List UInt8) :
    writeFrame crc codec buf value = .ok (buf ++ frameOf crc (codec.serialize value)) := by
  unfold writeFrame
  dsimp only
  rw [Outcome.require_pos h, Outcome.ok_bind]
  rfl

theorem readFrameFile_frameOf {codec : Codec α} {value : α}
    (h : (codec.serialize value).length ≤ MAX_FRAME_PAYLOAD)
    (hrt : codec.deserialize (codec.serialize value) = some value) :
    readFrameFile crc codec (some (frameOf crc (codec.serialize value))) = .ok (some value) := by
  have hread := readFrame_frameOf crc h [] []
  rw [List.nil_append, List.append_nil] at hread
  unfold readFrameFile
  rw [show ([] : List UInt8).length = 0 from rfl] at hread
  simp only [hread, hrt]

end Spec

end Works.Rotortree
