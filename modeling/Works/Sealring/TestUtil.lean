import Works.Sealring.Seal

/-! # The mock Kem and the frozen envelope

`MockKem` and `TestDomain` of `test_util.rs`, and a table that holds what HKDF-SHA256 and
ChaCha20-Poly1305 compute for the envelope that the tests of `seal.rs` freeze.  Away from that
entry the table encrypts to the message and sixteen zeros. -/

namespace Works.Sealring

open Works.Lib

/-- Thirty-two bytes. -/
abbrev Bytes32 := List.Vector UInt8 32

/-- `xor32`. -/
def xor32 (a b : Bytes32) : Bytes32 := List.Vector.map₂ (· ^^^ ·) a b

/-- `MockKem`. -/
def MockKem : Kem where
  PublicKey := Bytes32
  SecretKey := Bytes32
  Epk := Bytes32
  SharedSecret := Bytes32
  Rng := Bytes32
  epkBytes := List.Vector.toList
  sharedBytes := List.Vector.toList
  KEM_ID := 0xFF
  EPK_LEN := 32
  encap epk pk := (epk, xor32 epk pk)
  decap sk epk := if h : epk.length = 32 then some (xor32 ⟨epk, h⟩ sk) else none
  derivePk sk := sk
  encodePk pk := pk
  decapBatch sk epks _ := epks.map fun epk =>
    if h : epk.length = 32 then some (xor32 ⟨epk, h⟩ sk) else none

/-- `TestDomain`: notes are bytes, and the codec cannot fail. -/
def TestDomain : Domain where
  Note := List UInt8
  Error := Empty
  DOMAIN_TAG := "sealring-test"
  encodeNote note out := (.ok (), out ++ note)
  decodeNote bytes := .ok bytes
  verify _ _ := true

theorem mockKem_batchPointwise : MockKem.BatchPointwise := fun _ _ _ _ => rfl

theorem mockKem_epkSized : MockKem.EpkSized := fun e => e.toList_length

theorem mockKem_decapsulates (sk rng : Bytes32) :
    MockKem.Decapsulates (Recipient.new sk) rng := by
  unfold Kem.Decapsulates
  exact dif_pos rng.toList_length

theorem testDomain_roundTrips (note : List UInt8) : TestDomain.RoundTrips note := by
  intro out bytes h
  cases h
  rfl

theorem mock_suiteAsserts : SuiteAsserts MockKem TestDomain where
  tag_ne := by decide
  tag_le := by decide
  epk_le := by decide

/-! ### The frozen envelope -/

def goldenRecipient : Recipient MockKem := Recipient.new (List.Vector.replicate 32 0x42)

/-- The ephemeral key that the seeded generator draws. -/
def goldenEpk : Bytes32 :=
  ⟨[178, 247, 245, 129, 214, 222, 60, 6, 168, 34, 253, 110, 126, 130, 101, 251, 192, 15, 132, 1,
    105, 106, 91, 220, 52, 245, 166, 210, 255, 63, 146, 47], rfl⟩

def goldenKey : List.Vector UInt8 KEY_LEN :=
  ⟨[218, 180, 181, 161, 110, 167, 253, 167, 14, 7, 210, 118, 141, 53, 144, 0, 47, 201, 253, 131, 42,
    93, 250, 79, 196, 34, 135, 235, 169, 166, 230, 181], rfl⟩

def goldenNonce : List.Vector UInt8 NONCE_LEN :=
  ⟨[165, 102, 78, 62, 194, 93, 53, 146, 27, 32, 139, 97], rfl⟩

def goldenCommit : List.Vector UInt8 COMMIT_LEN :=
  ⟨[232, 123, 147, 237, 191, 7, 21, 77, 211, 14, 231, 235, 141, 90, 24, 140, 87, 32, 55, 137, 153,
    234, 185, 252, 230, 216, 24, 18, 50, 29, 124, 123], rfl⟩

def goldenNote : List UInt8 := [1, 2, 3, 4]

/-- The bytes of `golden-aad`. -/
def goldenAad : List UInt8 := [103, 111, 108, 100, 101, 110, 45, 97, 97, 100]

def goldenCt : List UInt8 :=
  [73, 227, 90, 166, 201, 106, 179, 159, 168, 59, 165, 25, 112, 163, 182, 17, 197, 129, 107, 190]

/-- The secret and the info string of the frozen envelope. -/
def goldenSecret : List UInt8 := (xor32 goldenEpk (List.Vector.replicate 32 0x42)).toList

def goldenInfo : List UInt8 :=
  kdfInfo VERSION MockKem.KEM_ID TestDomain.DOMAIN_TAG goldenEpk.toList
    (List.replicate 32 0x42)

/-- The frozen envelope. -/
def goldenEnvelope : SealedNote MockKem where
  bytes := VERSION :: MockKem.KEM_ID ::
    (goldenEpk.toList ++ goldenCommit.toList ++ goldenCt)
  parses := ⟨by decide, rfl, rfl, by decide⟩

/-- Its ciphertext with another first byte. -/
def brokenEnvelope : SealedNote MockKem where
  bytes := VERSION :: MockKem.KEM_ID ::
    (goldenEpk.toList ++ goldenCommit.toList ++ goldenCt.set 0 0)
  parses := ⟨by decide, rfl, rfl, by decide⟩

/-- Its commitment and ciphertext behind another ephemeral key. -/
def foreignEnvelope : SealedNote MockKem where
  bytes := VERSION :: MockKem.KEM_ID ::
    (List.replicate 32 1 ++ goldenCommit.toList ++ goldenCt)
  parses := ⟨by decide, rfl, rfl, by decide⟩

/-- Sixteen zeros in place of a tag. -/
def zeroTag : List UInt8 := List.replicate AEAD_TAG_LEN 0

/-- The table. -/
def goldenCrypto : Crypto where
  hkdf salt secret info len :=
    let okm := if salt = SALT ∧ secret = goldenSecret ∧ info = goldenInfo then
      goldenKey.toList ++ goldenNonce.toList ++ goldenCommit.toList else []
    List.Vector.ofFn fun i : Fin len => (okm[i.val]?).getD 0
  encrypt key nonce msg aad :=
    if key = goldenKey ∧ nonce = goldenNonce ∧ msg = goldenNote ∧ aad = goldenAad then some goldenCt
    else some (msg ++ zeroTag)
  decrypt key nonce ct aad :=
    if key = goldenKey ∧ nonce = goldenNonce ∧ ct = goldenCt ∧ aad = goldenAad then some goldenNote
    else if ct.drop (ct.length - AEAD_TAG_LEN) = zeroTag then
      some (ct.take (ct.length - AEAD_TAG_LEN))
    else none
  decryptInPlace key nonce aad buffer :=
    if key = goldenKey ∧ nonce = goldenNonce ∧ buffer = goldenCt ∧ aad = goldenAad then
      (true, goldenNote)
    else if buffer.drop (buffer.length - AEAD_TAG_LEN) = zeroTag then
      (true, buffer.take (buffer.length - AEAD_TAG_LEN))
    else (false, buffer)

theorem goldenCrypto_inPlaceAgrees : goldenCrypto.InPlaceAgrees := by
  intro key nonce aad ct
  unfold goldenCrypto
  dsimp only
  split_ifs <;> simp

theorem goldenCrypto_aeadCorrect : goldenCrypto.AeadCorrect where
  encrypts := by
    intro key nonce msg aad _
    unfold goldenCrypto
    dsimp only
    split_ifs
    · exact ⟨_, rfl⟩
    · exact ⟨_, rfl⟩
  length := by
    intro key nonce msg aad ct h
    unfold goldenCrypto at h
    dsimp only at h
    split_ifs at h with hg
    · cases h
      rw [hg.2.2.1]
      rfl
    · cases h
      rw [List.length_append, zeroTag, List.length_replicate]
  decrypts := by
    intro key nonce msg aad ct h
    unfold goldenCrypto at h ⊢
    dsimp only at h ⊢
    split_ifs at h with hg
    · cases h
      rw [if_pos ⟨hg.1, hg.2.1, rfl, hg.2.2.2⟩, hg.2.2.1]
    · cases h
      have hlen : (msg ++ zeroTag).length - AEAD_TAG_LEN = msg.length := by
        rw [List.length_append, zeroTag, List.length_replicate, Nat.add_sub_cancel]
      -- the frozen ciphertext does not end in zeros
      have hne : msg ++ zeroTag ≠ goldenCt := by
        intro heq
        have hm := congrArg List.length heq
        rw [List.length_append, zeroTag, List.length_replicate, AEAD_TAG_LEN] at hm
        have hdrop := congrArg (List.drop msg.length) heq
        rw [List.drop_left, show msg.length = 4 by
          have : goldenCt.length = 20 := rfl
          omega] at hdrop
        exact absurd hdrop (by decide)
      rw [if_neg fun hg' => hne hg'.2.2.1, hlen, List.drop_left, if_pos rfl, List.take_left]

end Works.Sealring
