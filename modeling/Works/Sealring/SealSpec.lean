import Works.Sealring.TestUtil

/-! # What sealing promises

A sealed note parses back and opens for its recipient (`seal_round_trip`).  An envelope opens as
someone's own under one domain tag and one recipient key only, whoever wrote it, as long as the
commitments of the derivations at hand do not collide (`open_binds`). -/

namespace Works.Sealring

open Works.Lib Outcome

variable {C : Crypto} {K : Kem} {D : Domain}

/-! ### Sealing -/

theorem derive_eq (hs : SuiteAsserts K D) {shared epk pkR : List UInt8} {ε : Type}
    (hepk : epk.length = K.EPK_LEN) (hpk : pkR.length = K.EPK_LEN) :
    (derive C shared K.KEM_ID D.DOMAIN_TAG epk pkR : Outcome ε Derived) =
      .ok (expand C shared (kdfInfo VERSION K.KEM_ID D.DOMAIN_TAG epk pkR)) := by
  have hle := hs.epk_le
  unfold derive
  rw [writeKdfInfo_eq_ok.mpr ⟨⟨hs.tag_le, by omega, by omega⟩, rfl⟩, ok_bind]
  rfl

/-- What `seal` writes is parsed exactly if the ciphertext is short enough. -/
theorem parses_sealed {epk commit ct : List UInt8} (hepk : epk.length = K.EPK_LEN)
    (hcommit : commit.length = COMMIT_LEN) (htag : AEAD_TAG_LEN ≤ ct.length) :
    Parses K (VERSION :: K.KEM_ID :: (epk ++ commit ++ ct)) ↔ ct.length ≤ MAX_CT_LEN := by
  have hlen : (VERSION :: K.KEM_ID :: (epk ++ commit ++ ct)).length =
      HEADER_LEN + K.EPK_LEN + COMMIT_LEN + ct.length := by
    simp only [List.length_cons, List.length_append, HEADER_LEN]
    omega
  constructor
  · intro h
    have := h.short
    omega
  · intro h
    exact ⟨by omega, rfl, rfl, by omega⟩

section Seal

variable {recipient : Recipient K} {note : D.Note} {aad : List UInt8} {rng : K.Rng}

/-- The key material of a note sealed to `recipient`. -/
def sealedDerived (C : Crypto) (D : Domain) (recipient : Recipient K) (rng : K.Rng) : Derived :=
  expand C (K.sharedBytes (K.encap rng recipient.pk).2)
    (kdfInfo VERSION K.KEM_ID D.DOMAIN_TAG (K.epkBytes (K.encap rng recipient.pk).1)
      (K.epkBytes recipient.pkEncoded))

/-- `seal` past the derivation. -/
theorem sealNote_eq (hs : SuiteAsserts K D) (hepk : K.EpkSized) :
    sealNote C K D recipient.pk note aad rng =
      if isAllZero (K.sharedBytes (K.encap rng recipient.pk).2) then .fail .sealError
      else match D.encodeNote note [] with
        | (.error _, _) => .fail .sealError
        | (.ok _, noteBytes) =>
            match C.encrypt (sealedDerived C D recipient rng).key
                (sealedDerived C D recipient rng).nonce noteBytes aad with
            | none => .fail .sealError
            | some ct =>
                match SealedNote.parse K (VERSION :: K.KEM_ID ::
                    (K.epkBytes (K.encap rng recipient.pk).1 ++
                      (sealedDerived C D recipient rng).commit.toList ++ ct)) with
                | .ok e => .ok e
                | .error _ => .fail .sealError := by
  unfold sealNote sealedDerived
  dsimp only
  rw [recipient.pkEncoded_eq, derive_eq hs (hepk _) (hepk _)]
  rfl

/-- `seal` returns an envelope exactly if the secret is not zero, the note encodes and the
ciphertext is short enough; it then holds the fields written. -/
theorem sealNote_eq_ok (hs : SuiteAsserts K D) (hepk : K.EpkSized) (haead : C.AeadCorrect)
    (env : SealedNote K) :
    sealNote C K D recipient.pk note aad rng = .ok env ↔
      isAllZero (K.sharedBytes (K.encap rng recipient.pk).2) = false ∧
      ∃ out noteBytes ct, D.encodeNote note [] = (.ok out, noteBytes) ∧
        C.encrypt (sealedDerived C D recipient rng).key (sealedDerived C D recipient rng).nonce
          noteBytes aad = some ct ∧
        noteBytes.length + AEAD_TAG_LEN ≤ MAX_CT_LEN ∧
        env.bytes = VERSION :: K.KEM_ID :: (K.epkBytes (K.encap rng recipient.pk).1 ++
          (sealedDerived C D recipient rng).commit.toList ++ ct) := by
  rw [sealNote_eq hs hepk]
  cases hz : isAllZero (K.sharedBytes (K.encap rng recipient.pk).2) with
  | true => simp [Outcome.fail]
  | false =>
      rw [if_neg Bool.false_ne_true]
      cases henc : D.encodeNote note [] with
      | mk res noteBytes =>
          cases res with
          | error e => simp [Outcome.fail]
          | ok out =>
              dsimp only
              cases hct : C.encrypt (sealedDerived C D recipient rng).key
                  (sealedDerived C D recipient rng).nonce noteBytes aad with
              | none => simp [Outcome.fail, hct]
              | some ct =>
                  dsimp only
                  have hlen := haead.length _ _ _ _ _ hct
                  have hp := parses_sealed (K := K) (hepk (K.encap rng recipient.pk).1)
                    (sealedDerived C D recipient rng).commit.toList_length
                    (show AEAD_TAG_LEN ≤ ct.length by omega)
                  constructor
                  · intro h
                    split at h
                    · rename_i e he
                      cases h
                      obtain ⟨hparses, hbytes⟩ := (SealedNote.parse_eq_ok_iff _ _ _).mp he
                      have := hp.mp hparses
                      exact ⟨rfl, out, noteBytes, ct, rfl, hct, by omega, hbytes⟩
                    · cases h
                  · rintro ⟨-, out', noteBytes', ct', heq, hct', hle, hbytes⟩
                    cases heq
                    rw [hct, Option.some.injEq] at hct'
                    subst hct'
                    rw [(SealedNote.parse_eq_ok_iff _ _ _).mpr ⟨hp.mpr (by omega), hbytes⟩]

theorem sealNote_returns (hs : SuiteAsserts K D) (hepk : K.EpkSized) :
    Returns (sealNote C K D recipient.pk note aad rng) := by
  rw [sealNote_eq hs hepk]
  split_ifs
  · exact returns_fail _
  · split
    · exact returns_fail _
    · split
      · exact returns_fail _
      · split
        · exact returns_ok _
        · exact returns_fail _

/-- The recipient opens what was sealed to it. -/
theorem open_sealed (hs : SuiteAsserts K D) (hepk : K.EpkSized) (haead : C.AeadCorrect)
    (hkem : K.Decapsulates recipient rng) (hcodec : D.RoundTrips note)
    (hverify : D.verify note aad = true) {env : SealedNote K}
    (h : sealNote C K D recipient.pk note aad rng = .ok env) :
    openNote C K D recipient env aad = .ok (some note) := by
  obtain ⟨-, out, noteBytes, ct, henc, hct, -, hbytes⟩ := (sealNote_eq_ok hs hepk haead env).mp h
  obtain ⟨-, -, he, hc, hct'⟩ := SealedNote.fields_of_bytes (hepk _)
    (sealedDerived C D recipient rng).commit.toList_length hbytes
  unfold openNote
  rw [he, hkem]
  dsimp only
  rw [derive_eq hs (hepk _) (hepk _), ok_bind,
    show expand C (K.sharedBytes (K.encap rng recipient.pk).2)
      (kdfInfo VERSION K.KEM_ID D.DOMAIN_TAG (K.epkBytes (K.encap rng recipient.pk).1)
        (K.epkBytes recipient.pkEncoded)) = sealedDerived C D recipient rng from rfl,
    if_neg (not_not_intro hc.symm), hct', haead.decrypts _ _ _ _ _ hct]
  dsimp only
  rw [hcodec out noteBytes henc]
  dsimp only
  rw [if_pos hverify]

/-- **The round trip.**  `seal` returns, and it returns an envelope exactly if the shared secret is
not all zero, the note encodes and its ciphertext with the tag is at most `MAX_CT_LEN` bytes.  The
fields of the envelope make up its bytes, these parse back to it, and the recipient opens it to
the note. -/
theorem seal_round_trip (hs : SuiteAsserts K D) (hepk : K.EpkSized) (haead : C.AeadCorrect)
    (hkem : K.Decapsulates recipient rng) (hcodec : D.RoundTrips note)
    (hverify : D.verify note aad = true) :
    Returns (sealNote C K D recipient.pk note aad rng) ∧
    ((∃ env, sealNote C K D recipient.pk note aad rng = .ok env) ↔
      isAllZero (K.sharedBytes (K.encap rng recipient.pk).2) = false ∧
      ∃ out noteBytes, D.encodeNote note [] = (.ok out, noteBytes) ∧
        noteBytes.length + AEAD_TAG_LEN ≤ MAX_CT_LEN) ∧
    ∀ env, sealNote C K D recipient.pk note aad rng = .ok env →
      env.version :: env.kemId :: (env.epk ++ env.commit ++ env.ct) = env.bytes ∧
      SealedNote.parse K env.bytes = .ok env ∧
      openNote C K D recipient env aad = .ok (some note) := by
  refine ⟨sealNote_returns hs hepk, ?_, ?_⟩
  · constructor
    · rintro ⟨env, h⟩
      obtain ⟨hz, out, noteBytes, ct, henc, -, hle, -⟩ := (sealNote_eq_ok hs hepk haead env).mp h
      exact ⟨hz, out, noteBytes, henc, hle⟩
    · rintro ⟨hz, out, noteBytes, henc, hle⟩
      obtain ⟨ct, hct⟩ := haead.encrypts (sealedDerived C D recipient rng).key
        (sealedDerived C D recipient rng).nonce noteBytes aad hle
      have hlen := haead.length _ _ _ _ _ hct
      have hp := (parses_sealed (K := K) (hepk (K.encap rng recipient.pk).1)
        (sealedDerived C D recipient rng).commit.toList_length
        (show AEAD_TAG_LEN ≤ ct.length by omega)).mpr (by omega)
      exact ⟨⟨_, hp⟩, (sealNote_eq_ok hs hepk haead _).mpr
        ⟨hz, out, noteBytes, ct, henc, hct, hle, rfl⟩⟩
  · intro env h
    exact ⟨env.bytes_eq, env.parse_bytes, open_sealed hs hepk haead hkem hcodec hverify h⟩

end Seal

/-- The frozen envelope is sealed and opens. -/
theorem seal_round_trip_golden :
    ∃ env, sealNote goldenCrypto MockKem TestDomain goldenRecipient.pk goldenNote goldenAad goldenEpk =
        .ok env ∧
      SealedNote.parse MockKem env.bytes = .ok env ∧
      openNote goldenCrypto MockKem TestDomain goldenRecipient env goldenAad =
        .ok (some goldenNote) := by
  obtain ⟨-, hok, hopen⟩ := @seal_round_trip goldenCrypto MockKem TestDomain goldenRecipient
    goldenNote goldenAad goldenEpk mock_suiteAsserts mockKem_epkSized goldenCrypto_aeadCorrect
    (mockKem_decapsulates _ goldenEpk) (testDomain_roundTrips goldenNote) rfl
  obtain ⟨env, henv⟩ := hok.mpr ⟨by decide, (), goldenNote, rfl, by decide⟩
  obtain ⟨-, hparse, hnote⟩ := hopen env henv
  exact ⟨env, henv, hparse, hnote⟩

/-! ### Binding -/

/-- The derivation `open` runs: the secret and the info string. -/
def Derives (K : Kem) (D : Domain) (recipient : Recipient K) (e : SealedNote K) :
    Set (List UInt8 × List UInt8) :=
  {q | ∃ shared, K.decap recipient.sk e.epk = some shared ∧ q.1 = K.sharedBytes shared ∧
    (writeKdfInfo [] VERSION K.KEM_ID D.DOMAIN_TAG e.epk (K.epkBytes recipient.pkEncoded) :
      Outcome Empty (List UInt8)) = .ok q.2}

/-- The commitment of a derivation. -/
def Crypto.commitOf (C : Crypto) (q : List UInt8 × List UInt8) : List.Vector UInt8 COMMIT_LEN :=
  (expand C q.1 q.2).commit

/-- An envelope that opens as the recipient's own holds the commitment of its derivation. -/
theorem commit_of_open {recipient : Recipient K} {e : SealedNote K} {aad : List UInt8}
    (hret : Returns (openNote C K D recipient e aad))
    (hmine : openNote C K D recipient e aad ≠ .ok none) :
    ∃ q ∈ Derives K D recipient e, (C.commitOf q).toList = e.commit := by
  unfold openNote at hret hmine
  cases hshared : K.decap recipient.sk e.epk with
  | none =>
      rw [hshared] at hmine
      exact absurd rfl hmine
  | some shared =>
      rw [hshared] at hret hmine
      dsimp only at hret hmine
      have hderive := (returns_bind.mp hret).1
      unfold derive at hderive hmine
      have hinfo := (returns_bind.mp hderive).1
      by_cases hle : (asBytes D.DOMAIN_TAG).length ≤ U16_MAX ∧ e.epk.length ≤ U16_MAX ∧
          (K.epkBytes recipient.pkEncoded).length ≤ U16_MAX
      · refine ⟨(K.sharedBytes shared, kdfInfo VERSION K.KEM_ID D.DOMAIN_TAG e.epk
          (K.epkBytes recipient.pkEncoded)), ⟨shared, hshared, rfl,
            writeKdfInfo_eq_ok.mpr ⟨hle, rfl⟩⟩, ?_⟩
        by_contra hc
        rw [writeKdfInfo_eq_ok.mpr ⟨hle, rfl⟩, ok_bind] at hmine
        exact hmine (if_pos hc)
      · rw [writeKdfInfo_of_gt hle] at hinfo
        exact absurd hinfo not_returns_panic

/-- `open` does not panic on a suite that compiles. -/
theorem openNote_returns (hs : SuiteAsserts K D) (hepk : K.EpkSized) (recipient : Recipient K)
    (e : SealedNote K) (aad : List UInt8) : Returns (openNote C K D recipient e aad) := by
  unfold openNote
  cases K.decap recipient.sk e.epk with
  | none => exact returns_ok _
  | some shared =>
      dsimp only
      rw [derive_eq hs e.length_epk (hepk _), ok_bind]
      split_ifs
      · exact returns_ok _
      · split
        · exact returns_fail _
        · split
          · exact returns_fail _
          · split_ifs
            · exact returns_ok _
            · exact returns_fail _

/-- What `seal` derives from: the secret and the info string. -/
def sealedInput (D : Domain) (recipient : Recipient K) (rng : K.Rng) : List UInt8 × List UInt8 :=
  (K.sharedBytes (K.encap rng recipient.pk).2,
    kdfInfo VERSION K.KEM_ID D.DOMAIN_TAG (K.epkBytes (K.encap rng recipient.pk).1)
      (K.epkBytes recipient.pkEncoded))

/-- A note sealed to one key does not open for another one, unless the commitments collide. -/
theorem open_stranger (hs : SuiteAsserts K D) (hepk : K.EpkSized) (haead : C.AeadCorrect)
    {recipient r : Recipient K} {note : D.Note} {aad aad' : List UInt8} {rng : K.Rng}
    {env : SealedNote K} (h : sealNote C K D recipient.pk note aad rng = .ok env)
    (hpk : K.epkBytes recipient.pkEncoded ≠ K.epkBytes r.pkEncoded)
    (hinj : Set.InjOn C.commitOf (insert (sealedInput D recipient rng) (Derives K D r env))) :
    openNote C K D r env aad' = .ok none := by
  by_contra hmine
  obtain ⟨q, hq, hc⟩ := commit_of_open (openNote_returns hs hepk r env aad') hmine
  obtain ⟨-, -, -, ct, -, -, -, hbytes⟩ := (sealNote_eq_ok hs hepk haead env).mp h
  obtain ⟨-, -, -, hcommit, -⟩ := SealedNote.fields_of_bytes (hepk _)
    (sealedDerived C D recipient rng).commit.toList_length hbytes
  have heq : q = sealedInput D recipient rng :=
    hinj (.inr hq) (.inl rfl) (List.Vector.toList_injective (hc.trans hcommit))
  subst heq
  obtain ⟨-, -, -, hinfo⟩ := hq
  obtain ⟨⟨ht, he, hp⟩, hinfo⟩ := writeKdfInfo_eq_ok.mp hinfo
  have hle : ∀ e, (K.epkBytes e).length ≤ U16_MAX := fun e => (hepk e).trans_le hs.epk_le
  obtain ⟨-, -, -, -, hkeys⟩ := kdfInfo_inj hs.tag_le ht (hle _) he (hle _) hp hinfo
  exact hpk hkeys

/-- An envelope and a recipient have one derivation. -/
theorem derives_subsingleton (K : Kem) (D : Domain) (recipient : Recipient K) (e : SealedNote K) :
    (Derives K D recipient e).Subsingleton := by
  rintro ⟨s, i⟩ ⟨shared, h1, rfl, h2⟩ ⟨s', i'⟩ ⟨shared', h1', rfl, h2'⟩
  rw [h1, Option.some.injEq] at h1'
  rw [h2, Except.ok.injEq] at h2'
  exact Prod.ext (by rw [h1']) h2'

/-- **Binding.**  The info string has one reading.  So if an envelope, whoever wrote it, opens as
one's own under two pairs of a domain and a recipient, and the commitments of the two derivations do
not collide, the domain tags and the recipient keys are equal. -/
theorem open_binds :
    (∀ (out : List UInt8) (v v' k k' : UInt8) (t t' : String) (e e' p p' : List UInt8),
      (asBytes t).length ≤ U16_MAX → e.length ≤ U16_MAX → p.length ≤ U16_MAX →
      (asBytes t').length ≤ U16_MAX → e'.length ≤ U16_MAX → p'.length ≤ U16_MAX →
      ∃ info info', (writeKdfInfo out v k t e p : Outcome Empty (List UInt8)) = .ok info ∧
        (writeKdfInfo out v' k' t' e' p' : Outcome Empty (List UInt8)) = .ok info' ∧
        (info = info' → v = v' ∧ k = k' ∧ t = t' ∧ e = e' ∧ p = p')) ∧
    ∀ (C : Crypto) (K : Kem) (D D' : Domain) (r r' : Recipient K) (env : SealedNote K)
      (aad aad' : List UInt8),
      Set.InjOn C.commitOf (Derives K D r env ∪ Derives K D' r' env) →
      Returns (openNote C K D r env aad) → openNote C K D r env aad ≠ .ok none →
      Returns (openNote C K D' r' env aad') → openNote C K D' r' env aad' ≠ .ok none →
      D.DOMAIN_TAG = D'.DOMAIN_TAG ∧ K.epkBytes r.pkEncoded = K.epkBytes r'.pkEncoded := by
  constructor
  · intro out v v' k k' t t' e e' p p' ht he hp ht' he' hp'
    refine ⟨_, _, writeKdfInfo_eq_ok.mpr ⟨⟨ht, he, hp⟩, rfl⟩,
      writeKdfInfo_eq_ok.mpr ⟨⟨ht', he', hp'⟩, rfl⟩, ?_⟩
    intro h
    exact kdfInfo_inj ht ht' he he' hp hp' (List.append_cancel_left h)
  · intro C K D D' r r' env aad aad' hinj hret hmine hret' hmine'
    obtain ⟨q, hq, hc⟩ := commit_of_open hret hmine
    obtain ⟨q', hq', hc'⟩ := commit_of_open hret' hmine'
    have hqq : q = q' := hinj (.inl hq) (.inr hq') (List.Vector.toList_injective (hc.trans hc'.symm))
    subst hqq
    obtain ⟨-, -, -, hinfo⟩ := hq
    obtain ⟨-, -, -, hinfo'⟩ := hq'
    obtain ⟨⟨ht, he, hp⟩, h⟩ := writeKdfInfo_eq_ok.mp hinfo
    obtain ⟨⟨ht', he', hp'⟩, h'⟩ := writeKdfInfo_eq_ok.mp hinfo'
    obtain ⟨-, -, htag, -, hpk⟩ := kdfInfo_inj ht ht' he he' hp hp'
      (List.append_cancel_left (h.symm.trans h'))
    exact ⟨htag, hpk⟩

/-- Another codec under the tag of the test domain: a note is one byte. -/
def byteDomain : Domain where
  Note := UInt8
  Error := Unit
  DOMAIN_TAG := TestDomain.DOMAIN_TAG
  encodeNote note out := (.ok (), out ++ [note])
  decodeNote
    | [b] => .ok b
    | _ => .error ()
  verify _ _ := true

/-- The same codec under another tag. -/
def otherDomain : Domain := { byteDomain with DOMAIN_TAG := "sealring-other" }

/-- The derivation of the frozen envelope under a tag. -/
def goldenInput (tag : String) : List UInt8 × List UInt8 :=
  (goldenSecret, kdfInfo VERSION MockKem.KEM_ID tag goldenEpk.toList (List.replicate 32 0x42))

theorem commitOf_goldenInput_ne : goldenCrypto.commitOf (goldenInput TestDomain.DOMAIN_TAG) ≠
    goldenCrypto.commitOf (goldenInput otherDomain.DOMAIN_TAG) := by
  decide +kernel

/-- The frozen envelope opens under its tag, with either codec: the second one refuses the note.
Under another tag it does not open. -/
theorem open_binds_golden :
    (openNote goldenCrypto MockKem TestDomain goldenRecipient goldenEnvelope goldenAad =
        .ok (some goldenNote) ∧
      openNote goldenCrypto MockKem byteDomain goldenRecipient goldenEnvelope goldenAad =
        .fail .noteDecode ∧
      TestDomain.DOMAIN_TAG = byteDomain.DOMAIN_TAG) ∧
    openNote goldenCrypto MockKem otherDomain goldenRecipient goldenEnvelope goldenAad =
      .ok none := by
  have hopen : openNote goldenCrypto MockKem TestDomain goldenRecipient goldenEnvelope goldenAad =
      .ok (some goldenNote) := by rfl
  have hrefused : openNote goldenCrypto MockKem byteDomain goldenRecipient goldenEnvelope
      goldenAad = .fail .noteDecode := by rfl
  have hbinds := open_binds.2 goldenCrypto MockKem TestDomain
  refine ⟨⟨hopen, hrefused, ?_⟩, ?_⟩
  · -- one derivation behind both domains
    have hsame : Derives MockKem byteDomain goldenRecipient goldenEnvelope =
        Derives MockKem TestDomain goldenRecipient goldenEnvelope := rfl
    refine (hbinds byteDomain goldenRecipient goldenRecipient goldenEnvelope goldenAad goldenAad
      ?_ ?_ ?_ ?_ ?_).1
    · rw [hsame, Set.union_self]
      exact (derives_subsingleton _ _ _ _).injOn _
    · rw [hopen]
      exact returns_ok _
    · rw [hopen]
      intro h
      cases h
    · rw [hrefused]
      exact returns_fail _
    · rw [hrefused]
      intro h
      cases h
  · by_contra hmine
    have hreturns : Returns (openNote goldenCrypto MockKem otherDomain goldenRecipient
        goldenEnvelope goldenAad) :=
      openNote_returns ⟨by decide, by decide, by decide⟩ mockKem_epkSized _ _ _
    have hmem : goldenInput TestDomain.DOMAIN_TAG ∈
        Derives MockKem TestDomain goldenRecipient goldenEnvelope := ⟨_, rfl, rfl, rfl⟩
    have hmem' : goldenInput otherDomain.DOMAIN_TAG ∈
        Derives MockKem otherDomain goldenRecipient goldenEnvelope := ⟨_, rfl, rfl, rfl⟩
    have htags := (hbinds otherDomain goldenRecipient goldenRecipient goldenEnvelope goldenAad
      goldenAad ?_ ?_ ?_ hreturns hmine).1
    · exact absurd htags (by decide)
    · rintro q (hq | hq) q' (hq' | hq') heq
      · exact derives_subsingleton _ _ _ _ hq hq'
      · rw [derives_subsingleton _ _ _ _ hq hmem, derives_subsingleton _ _ _ _ hq' hmem'] at heq
        exact absurd heq commitOf_goldenInput_ne
      · rw [derives_subsingleton _ _ _ _ hq hmem', derives_subsingleton _ _ _ _ hq' hmem] at heq
        exact absurd heq.symm commitOf_goldenInput_ne
      · exact derives_subsingleton _ _ _ _ hq hq'
    · rw [hopen]
      exact returns_ok _
    · rw [hopen]
      intro h
      cases h

end Works.Sealring
