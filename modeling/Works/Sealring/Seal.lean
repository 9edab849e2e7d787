import Works.Sealring.Basic
import Mathlib.Data.Vector.Basic

/-! # Sealing and opening

`seal.rs`.  The derivation runs HKDF over the shared secret and an info string that names the
version, the Kem, the domain, the ephemeral key and the recipient; its output is split into a key,
a nonce and a commitment.  `seal` writes the commitment into the envelope, `open` compares it
before it decrypts.

HKDF and the AEAD are parameters (`Crypto`).  A field longer than its length prefix can say stops
the program, as the source's `expect` does. -/

namespace Works.Sealring

open Works.Lib

def SALT : List UInt8 := asBytes "sealring/v1"

def KEY_LEN : ℕ := 32

def NONCE_LEN : ℕ := 12

def DERIVED_LEN : ℕ := KEY_LEN + NONCE_LEN + COMMIT_LEN

/-- The longest field a two-byte prefix can name. -/
def U16_MAX : ℕ := 65535

/-- HKDF-SHA256 and ChaCha20-Poly1305. -/
structure Crypto where
  /-- Extract with a salt from a secret, then expand under an info string to `len` bytes. -/
  hkdf : (salt secret info : List UInt8) → (len : ℕ) → List.Vector UInt8 len
  encrypt : (key : List.Vector UInt8 KEY_LEN) → (nonce : List.Vector UInt8 NONCE_LEN) →
    (msg aad : List UInt8) → Option (List UInt8)
  decrypt : (key : List.Vector UInt8 KEY_LEN) → (nonce : List.Vector UInt8 NONCE_LEN) →
    (ct aad : List UInt8) → Option (List UInt8)
  /-- Whether decryption succeeded, and the buffer after it. -/
  decryptInPlace : (key : List.Vector UInt8 KEY_LEN) → (nonce : List.Vector UInt8 NONCE_LEN) →
    (aad buffer : List UInt8) → Bool × List UInt8

/-- `suite_asserts`, checked when the suite is compiled. -/
structure SuiteAsserts (K : Kem) (D : Domain) : Prop where
  tag_ne : D.DOMAIN_TAG ≠ ""
  tag_le : (asBytes D.DOMAIN_TAG).length ≤ U16_MAX
  epk_le : K.EPK_LEN ≤ U16_MAX

/-- `Derived`. -/
structure Derived where
  key : List.Vector UInt8 KEY_LEN
  nonce : List.Vector UInt8 NONCE_LEN
  commit : List.Vector UInt8 COMMIT_LEN

/-- `push_lp`. -/
def pushLp {ε : Type} (out field : List UInt8) : Outcome ε (List UInt8) := do
  Outcome.require (field.length ≤ U16_MAX)
  pure (out ++ framed 2 field)

/-- `write_kdf_info`. -/
def writeKdfInfo {ε : Type} (out : List UInt8) (version kemId : UInt8) (tag : String)
    (epk pkR : List UInt8) : Outcome ε (List UInt8) := do
  let out ← pushLp out [version]
  let out ← pushLp out [kemId]
  let out ← pushLp out (asBytes tag)
  let out ← pushLp out epk
  pushLp out pkR

variable (C : Crypto)

/-- `expand`. -/
def expand (shared info : List UInt8) : Derived :=
  let okm : List.Vector UInt8 DERIVED_LEN := C.hkdf SALT shared info DERIVED_LEN
  { key := okm.take KEY_LEN
    nonce := (okm.drop KEY_LEN).take NONCE_LEN
    commit := okm.drop (KEY_LEN + NONCE_LEN) }

/-- `derive`. -/
def derive {ε : Type} (shared : List UInt8) (kemId : UInt8) (tag : String) (epk pkR : List UInt8) :
    Outcome ε Derived := do
  let info ← writeKdfInfo [] VERSION kemId tag epk pkR
  pure (expand C shared info)

/-- `is_all_zero`: the bytes folded with `|`. -/
def isAllZero (bytes : List UInt8) : Bool := bytes.foldl (· ||| ·) 0 == 0

variable (K : Kem) (D : Domain)

/-- `seal`. -/
def sealNote (pk : K.PublicKey) (note : D.Note) (aad : List UInt8) (rng : K.Rng) :
    Outcome SealError (SealedNote K) :=
  let (epk, shared) := K.encap rng pk
  if isAllZero (K.sharedBytes shared) then .fail .sealError
  else do
    let pkREncoded := K.encodePk pk
    let derived ← derive C (K.sharedBytes shared) K.KEM_ID D.DOMAIN_TAG (K.epkBytes epk)
      (K.epkBytes pkREncoded)
    match D.encodeNote note [] with
    | (.error _, _) => .fail .sealError
    | (.ok _, noteBytes) =>
        match C.encrypt derived.key derived.nonce noteBytes aad with
        | none => .fail .sealError
        | some ct =>
            let bytes := VERSION :: K.KEM_ID :: (K.epkBytes epk ++ derived.commit.toList ++ ct)
            match SealedNote.parse K bytes with
            | .ok e => .ok e
            | .error _ => .fail .sealError

/-- `open`. -/
def openNote (recipient : Recipient K) (envelope : SealedNote K) (aad : List UInt8) :
    Outcome OpenError (Option D.Note) :=
  match K.decap recipient.sk envelope.epk with
  | none => .ok none
  | some shared => do
      let derived ← derive C (K.sharedBytes shared) K.KEM_ID D.DOMAIN_TAG envelope.epk
        (K.epkBytes recipient.pkEncoded)
      if derived.commit.toList ≠ envelope.commit then .ok none
      else
        match C.decrypt derived.key derived.nonce envelope.ct aad with
        | none => .fail .aead
        | some plaintext =>
            match D.decodeNote plaintext with
            | .error _ => .fail .noteDecode
            | .ok note => if D.verify note aad then .ok (some note) else .fail .verify

/-! ### Assumptions on the parameters -/

/-- An AEAD that decrypts what it encrypted, with a tag of 16 bytes. -/
structure Crypto.AeadCorrect (C : Crypto) : Prop where
  encrypts : ∀ key nonce msg aad, msg.length + AEAD_TAG_LEN ≤ MAX_CT_LEN →
    ∃ ct, C.encrypt key nonce msg aad = some ct
  length : ∀ key nonce msg aad ct, C.encrypt key nonce msg aad = some ct →
    ct.length = msg.length + AEAD_TAG_LEN
  decrypts : ∀ key nonce msg aad ct, C.encrypt key nonce msg aad = some ct →
    C.decrypt key nonce ct aad = some msg

/-- `EPK_LEN` is the byte length of `Epk`. -/
def Kem.EpkSized (K : Kem) : Prop := ∀ e, (K.epkBytes e).length = K.EPK_LEN

/-- What was encapsulated to the recipient is decapsulated by it. -/
def Kem.Decapsulates (K : Kem) (recipient : Recipient K) (rng : K.Rng) : Prop :=
  K.decap recipient.sk (K.epkBytes (K.encap rng recipient.pk).1) =
    some (K.encap rng recipient.pk).2

/-- The codec of the domain reads back what it wrote. -/
def Domain.RoundTrips (D : Domain) (note : D.Note) : Prop :=
  ∀ out bytes, D.encodeNote note [] = (.ok out, bytes) → D.decodeNote bytes = .ok note

/-- `decap_batch` is `decap` on every key, whatever the slots held. -/
def Kem.BatchPointwise (K : Kem) : Prop :=
  ∀ sk epks out, out.length = epks.length → K.decapBatch sk epks out = epks.map (K.decap sk)

/-- Decryption in place agrees with the allocating one. -/
def Crypto.InPlaceAgrees (C : Crypto) : Prop :=
  ∀ key nonce aad ct,
    (∀ plaintext, C.decrypt key nonce ct aad = some plaintext →
      C.decryptInPlace key nonce aad ct = (true, plaintext)) ∧
    (C.decrypt key nonce ct aad = none → (C.decryptInPlace key nonce aad ct).1 = false)

/-! ### The info string -/

section Info

variable {ε : Type} {out : List UInt8}

theorem pushLp_of_le {field : List UInt8} (h : field.length ≤ U16_MAX) :
    (pushLp out field : Outcome ε (List UInt8)) = .ok (out ++ framed 2 field) := by
  rw [pushLp, Outcome.require_pos h]
  rfl

theorem pushLp_eq_ok {field res : List UInt8} :
    (pushLp out field : Outcome ε (List UInt8)) = .ok res ↔
      field.length ≤ U16_MAX ∧ res = out ++ framed 2 field := by
  rw [pushLp, Outcome.bind_eq_ok]
  constructor
  · rintro ⟨_, hle, hres⟩
    cases hres
    exact ⟨Outcome.require_eq_ok.mp hle, rfl⟩
  · rintro ⟨hle, rfl⟩
    exact ⟨(), Outcome.require_pos hle, rfl⟩

/-- The info string: five fields, each behind its length. -/
def kdfInfo (version kemId : UInt8) (tag : String) (epk pkR : List UInt8) : List UInt8 :=
  framed 2 [version] ++ (framed 2 [kemId] ++ (framed 2 (asBytes tag) ++ (framed 2 epk ++
    framed 2 pkR)))

theorem writeKdfInfo_eq_ok {version kemId : UInt8} {tag : String} {epk pkR res : List UInt8} :
    (writeKdfInfo out version kemId tag epk pkR : Outcome ε (List UInt8)) = .ok res ↔
      ((asBytes tag).length ≤ U16_MAX ∧ epk.length ≤ U16_MAX ∧ pkR.length ≤ U16_MAX) ∧
        res = out ++ kdfInfo version kemId tag epk pkR := by
  have h1 : ∀ b : UInt8, [b].length ≤ U16_MAX := fun b => by simp [U16_MAX]
  unfold writeKdfInfo
  rw [pushLp_of_le (h1 version), Outcome.ok_bind, pushLp_of_le (h1 kemId), Outcome.ok_bind,
    Outcome.bind_eq_ok]
  constructor
  · rintro ⟨out₁, h₁, h⟩
    obtain ⟨out₂, h₂, h₃⟩ := Outcome.bind_eq_ok.mp h
    obtain ⟨ht, rfl⟩ := pushLp_eq_ok.mp h₁
    obtain ⟨he, rfl⟩ := pushLp_eq_ok.mp h₂
    obtain ⟨hp, rfl⟩ := pushLp_eq_ok.mp h₃
    exact ⟨⟨ht, he, hp⟩, by simp [kdfInfo]⟩
  · rintro ⟨⟨ht, he, hp⟩, rfl⟩
    refine ⟨_, pushLp_of_le ht, ?_⟩
    rw [pushLp_of_le he, Outcome.ok_bind, pushLp_of_le hp]
    simp [kdfInfo]

theorem pushLp_of_gt {field : List UInt8} (h : ¬ field.length ≤ U16_MAX) :
    (pushLp out field : Outcome ε (List UInt8)) = .panic := by
  rw [pushLp, Outcome.require, if_neg h]
  rfl

/-- A field too long for its prefix stops the program. -/
theorem writeKdfInfo_of_gt {version kemId : UInt8} {tag : String} {epk pkR : List UInt8}
    (h : ¬ ((asBytes tag).length ≤ U16_MAX ∧ epk.length ≤ U16_MAX ∧ pkR.length ≤ U16_MAX)) :
    (writeKdfInfo out version kemId tag epk pkR : Outcome ε (List UInt8)) = .panic := by
  have h1 : ∀ b : UInt8, [b].length ≤ U16_MAX := fun b => by simp [U16_MAX]
  unfold writeKdfInfo
  rw [pushLp_of_le (h1 version), Outcome.ok_bind, pushLp_of_le (h1 kemId), Outcome.ok_bind]
  by_cases ht : (asBytes tag).length ≤ U16_MAX
  · rw [pushLp_of_le ht, Outcome.ok_bind]
    by_cases he : epk.length ≤ U16_MAX
    · rw [pushLp_of_le he, Outcome.ok_bind, pushLp_of_gt fun hp => h ⟨ht, he, hp⟩]
    · rw [pushLp_of_gt he, Outcome.panic_bind]
  · rw [pushLp_of_gt ht, Outcome.panic_bind]

/-- A field the prefix can name. -/
theorem lt_of_le_u16 {n : ℕ} (h : n ≤ U16_MAX) : n < 256 ^ 2 := by
  unfold U16_MAX at h
  omega

/-- **The info string has one reading.** -/
theorem kdfInfo_inj {v v' k k' : UInt8} {t t' : String} {e e' p p' : List UInt8}
    (ht : (asBytes t).length ≤ U16_MAX) (ht' : (asBytes t').length ≤ U16_MAX)
    (he : e.length ≤ U16_MAX) (he' : e'.length ≤ U16_MAX) (hp : p.length ≤ U16_MAX)
    (hp' : p'.length ≤ U16_MAX) (h : kdfInfo v k t e p = kdfInfo v' k' t' e' p') :
    v = v' ∧ k = k' ∧ t = t' ∧ e = e' ∧ p = p' := by
  unfold kdfInfo at h
  obtain ⟨hv, h⟩ := framed_append_inj (by simp) (by simp) h
  obtain ⟨hk, h⟩ := framed_append_inj (by simp) (by simp) h
  obtain ⟨htag, h⟩ := framed_append_inj (lt_of_le_u16 ht) (lt_of_le_u16 ht') h
  obtain ⟨hepk, h⟩ := framed_append_inj (lt_of_le_u16 he) (lt_of_le_u16 he') h
  rw [← List.append_nil (framed 2 p), ← List.append_nil (framed 2 p')] at h
  obtain ⟨hpk, -⟩ := framed_append_inj (lt_of_le_u16 hp) (lt_of_le_u16 hp') h
  exact ⟨(List.cons.inj hv).1, (List.cons.inj hk).1, asBytes_injective htag, hepk, hpk⟩

end Info

end Works.Sealring
