import Works.Lib.Bytes
import Works.Lib.Outcome

/-! # Kems, domains and envelopes

`kem.rs`, `domain.rs`, `recipient.rs`, `error.rs` and `envelope.rs`.  A Kem and a domain are what
their users implement: types and functions.  A sealed note wraps bytes that `parse` accepted, so
its fields lie inside them (`SealedNote.bytes_eq`). -/

namespace Works.Sealring

open Works.Lib

/-! ### Parameters -/

/-- `Kem`.  `Rng` is what `encap` draws from the generator. -/
structure Kem where
  PublicKey : Type
  SecretKey : Type
  Epk : Type
  SharedSecret : Type
  Rng : Type
  /-- `Epk: AsRef<[u8]>`. -/
  epkBytes : Epk → List UInt8
  /-- `SharedSecret: AsRef<[u8]>`. -/
  sharedBytes : SharedSecret → List UInt8
  KEM_ID : UInt8
  EPK_LEN : ℕ
  encap : Rng → PublicKey → Epk × SharedSecret
  decap : SecretKey → List UInt8 → Option SharedSecret
  derivePk : SecretKey → PublicKey
  encodePk : PublicKey → Epk
  /-- The slots after the call, from the keys and the slots before. -/
  decapBatch : SecretKey → List (List UInt8) → List (Option SharedSecret) →
    List (Option SharedSecret)

/-- `Domain`.  `encode_note` appends to a buffer, and may fail after it has. -/
structure Domain where
  Note : Type
  Error : Type
  DOMAIN_TAG : String
  encodeNote : Note → List UInt8 → Except Error Unit × List UInt8
  decodeNote : List UInt8 → Except Error Note
  verify : Note → List UInt8 → Bool

/-- The bytes of a string. -/
def asBytes (s : String) : List UInt8 := s.toByteArray.data.toList

theorem asBytes_injective : Function.Injective asBytes := by
  intro s t h
  exact String.toByteArray_inj.mp (ByteArray.ext (Array.toList_inj.mp h))

/-- `Recipient`: the secret key with the public key it derives, and that key's encoding. -/
structure Recipient (K : Kem) where
  sk : K.SecretKey
  pk : K.PublicKey
  pkEncoded : K.Epk
  pk_eq : pk = K.derivePk sk
  pkEncoded_eq : pkEncoded = K.encodePk pk

/-- `Recipient::new`. -/
def Recipient.new {K : Kem} (sk : K.SecretKey) : Recipient K where
  sk := sk
  pk := K.derivePk sk
  pkEncoded := K.encodePk (K.derivePk sk)
  pk_eq := rfl
  pkEncoded_eq := rfl

/-- `OpenError`. -/
inductive OpenError where
  | aead
  | noteDecode
  | verify
deriving DecidableEq, Repr

/-- `SealError`. -/
inductive SealError where
  | sealError
deriving DecidableEq, Repr

/-- `Malformed`. -/
structure Malformed where
  error : OpenError
deriving DecidableEq, Repr

/-- `ParseErrorKind`. -/
inductive ParseErrorKind where
  | tooShort (expected actual : ℕ)
  | wrongVersion (expected actual : UInt8)
  | wrongKemId (expected actual : UInt8)
  | ctTooLong (max actual : ℕ)
deriving DecidableEq, Repr

/-- `ParseError`: the rejected input and the reason. -/
structure ParseError where
  input : List UInt8
  kind : ParseErrorKind
deriving DecidableEq, Repr

/-! ### Envelopes -/

def MAX_CT_LEN : ℕ := 64 * 1024

def VERSION : UInt8 := 1

def HEADER_LEN : ℕ := 2

def COMMIT_LEN : ℕ := 32

def AEAD_TAG_LEN : ℕ := 16

/-- What `parse` checks. -/
structure Parses (K : Kem) (bytes : List UInt8) : Prop where
  long : HEADER_LEN + K.EPK_LEN + COMMIT_LEN + AEAD_TAG_LEN ≤ bytes.length
  version : bytes[0]? = some VERSION
  kemId : bytes[1]? = some K.KEM_ID
  short : bytes.length - (HEADER_LEN + K.EPK_LEN + COMMIT_LEN) ≤ MAX_CT_LEN

/-- `SealedNote`: bytes that were parsed. -/
@[ext]
structure SealedNote (K : Kem) where
  bytes : List UInt8
  parses : Parses K bytes

namespace SealedNote

variable {K : Kem}

/-- `SealedNote::parse`. -/
def parse (K : Kem) (bytes : List UInt8) : Except ParseError (SealedNote K) :=
  let minLen := HEADER_LEN + K.EPK_LEN + COMMIT_LEN + AEAD_TAG_LEN
  let len := bytes.length
  if h1 : len < minLen then .error ⟨bytes, .tooShort minLen len⟩
  else
    have hpos : 2 ≤ bytes.length := by
      simp only [len, minLen, HEADER_LEN] at h1
      omega
    let version := bytes.get ⟨0, by omega⟩
    if h2 : version ≠ VERSION then .error ⟨bytes, .wrongVersion VERSION version⟩
    else
      let kemId := bytes.get ⟨1, by omega⟩
      if h3 : kemId ≠ K.KEM_ID then .error ⟨bytes, .wrongKemId K.KEM_ID kemId⟩
      else
        let ctLen := len - (HEADER_LEN + K.EPK_LEN + COMMIT_LEN)
        if h4 : MAX_CT_LEN < ctLen then .error ⟨bytes, .ctTooLong MAX_CT_LEN ctLen⟩
        else .ok {
          bytes
          parses :=
            { long := Nat.le_of_not_lt h1
              version := (List.getElem?_eq_getElem _).trans (congrArg some (not_not.mp h2))
              kemId := (List.getElem?_eq_getElem _).trans (congrArg some (not_not.mp h3))
              short := Nat.le_of_not_lt h4 } }

/-- `version`. -/
def version (e : SealedNote K) : UInt8 := e.bytes.headD 0

/-- `kem_id`. -/
def kemId (e : SealedNote K) : UInt8 := e.bytes.tail.headD 0

/-- `epk`. -/
def epk (e : SealedNote K) : List UInt8 := (e.bytes.take (HEADER_LEN + K.EPK_LEN)).drop HEADER_LEN

/-- `commit`, the first chunk of 32 bytes after the key. -/
def commit (e : SealedNote K) : List UInt8 :=
  (e.bytes.drop (HEADER_LEN + K.EPK_LEN)).take COMMIT_LEN

/-- `ct`. -/
def ct (e : SealedNote K) : List UInt8 := e.bytes.drop (HEADER_LEN + K.EPK_LEN + COMMIT_LEN)

/-- Parsing accepts exactly the bytes that pass its checks. -/
theorem parse_eq_ok_iff (K : Kem) (bytes : List UInt8) (e : SealedNote K) :
    parse K bytes = .ok e ↔ Parses K bytes ∧ e.bytes = bytes := by
  unfold parse
  dsimp only
  split_ifs with h1 h2 h3 h4
  · refine iff_of_false (fun h => nomatch h) fun h => ?_
    exact absurd h.1.long (by omega)
  · refine iff_of_false (fun h => nomatch h) fun h => h2 ?_
    have := h.1.version
    rw [List.getElem?_eq_getElem, Option.some.injEq] at this
    exact this
  · refine iff_of_false (fun h => nomatch h) fun h => h3 ?_
    have := h.1.kemId
    rw [List.getElem?_eq_getElem, Option.some.injEq] at this
    exact this
  · refine iff_of_false (fun h => nomatch h) fun h => ?_
    exact absurd h.1.short (by omega)
  · rw [Except.ok.injEq]
    constructor
    · intro h
      have hbytes : bytes = e.bytes := congrArg SealedNote.bytes h
      have hparses := e.parses
      rw [← hbytes] at hparses
      exact ⟨hparses, hbytes.symm⟩
    · intro h
      exact SealedNote.ext h.2.symm

/-- An envelope parses from its own bytes. -/
theorem parse_bytes (e : SealedNote K) : parse K e.bytes = .ok e :=
  (parse_eq_ok_iff K e.bytes e).mpr ⟨e.parses, rfl⟩

theorem length_epk (e : SealedNote K) : e.epk.length = K.EPK_LEN := by
  have := e.parses.long
  rw [epk, List.length_drop, List.length_take]
  omega

theorem length_commit (e : SealedNote K) : e.commit.length = COMMIT_LEN := by
  have := e.parses.long
  rw [commit, List.length_take, List.length_drop]
  omega

/-- The fields of an envelope, one after the other, are its bytes. -/
theorem bytes_eq (e : SealedNote K) :
    e.version :: e.kemId :: (e.epk ++ e.commit ++ e.ct) = e.bytes := by
  obtain ⟨bytes, hlong, hversion, hkem, hshort⟩ := e
  unfold version kemId epk commit ct
  dsimp only
  cases bytes with
  | nil => exact absurd hversion (by simp)
  | cons a bytes =>
      cases bytes with
      | nil => exact absurd hkem (by simp)
      | cons b rest =>
          have h1 : HEADER_LEN + K.EPK_LEN = K.EPK_LEN + 2 := by unfold HEADER_LEN; omega
          have h2 : HEADER_LEN + K.EPK_LEN + COMMIT_LEN = K.EPK_LEN + COMMIT_LEN + 2 := by
            unfold HEADER_LEN; omega
          rw [h2, h1, HEADER_LEN]
          simp only [List.headD_cons, List.tail_cons, List.take_succ_cons, List.drop_succ_cons,
            List.drop_zero]
          rw [← List.drop_drop, List.append_assoc, List.take_append_drop, List.take_append_drop]

/-- An envelope written field by field has these fields. -/
theorem fields_of_bytes {e : SealedNote K} {v k : UInt8} {epk' commit' ct' : List UInt8}
    (hepk : epk'.length = K.EPK_LEN) (hcommit : commit'.length = COMMIT_LEN)
    (h : e.bytes = v :: k :: (epk' ++ commit' ++ ct')) :
    e.version = v ∧ e.kemId = k ∧ e.epk = epk' ∧ e.commit = commit' ∧ e.ct = ct' := by
  have hb := e.bytes_eq
  rw [h, List.cons.injEq, List.cons.injEq] at hb
  obtain ⟨hv, hk, hrest⟩ := hb
  obtain ⟨hec, hct⟩ := List.append_inj hrest (by
    rw [List.length_append, List.length_append, e.length_epk, e.length_commit, hepk, hcommit])
  obtain ⟨he, hc⟩ := List.append_inj hec (by rw [e.length_epk, hepk])
  exact ⟨hv, hk, he, hc, hct⟩

end SealedNote

end Works.Sealring
